import Whosecoin.Library.ByteStrings

namespace Whosecoin.Cryptography

open Library.ByteStrings

/-- `crypto_generichash_BYTES`. -/
abbrev generichashBytes : Nat := 32

/-- `crypto_sign_PUBLICKEYBYTES` and `crypto_vrf_PUBLICKEYBYTES`. -/
abbrev publicKeyBytes : Nat := 32

/-- `crypto_vrf_SECRETKEYBYTES`. -/
abbrev secretKeyBytes : Nat := 64

/-- `crypto_sign_BYTES`. -/
abbrev signBytes : Nat := 64

/-- `crypto_vrf_PROOFBYTES`. -/
abbrev vrfProofBytes : Nat := 80

/-- `crypto_vrf_OUTPUTBYTES`. -/
abbrev vrfOutputBytes : Nat := 64

/-- The result of `crypto_generichash`. -/
abbrev Hash := Bytes generichashBytes
abbrev PublicKey := Bytes publicKeyBytes
abbrev SecretKey := Bytes secretKeyBytes
abbrev Signature := Bytes signBytes
abbrev VrfProof := Bytes vrfProofBytes
abbrev VrfOutput := Bytes vrfOutputBytes

/-- The functions that the program takes from libsodium. The verifiers return
`true`, respectively the VRF output, where the C functions return zero. -/
structure Sodium where
  generichash : List UInt8 → Hash
  signDetached : List UInt8 → SecretKey → Signature
  signVerifyDetached : Signature → List UInt8 → PublicKey → Bool
  vrfProve : SecretKey → List UInt8 → VrfProof
  vrfProofToHash : VrfProof → VrfOutput
  vrfVerify : PublicKey → VrfProof → List UInt8 → Option VrfOutput

/-- What the documentation of libsodium promises for a key pair: what is signed
or proved with the secret key verifies under the public key. -/
structure Sodium.Complete (S : Sodium) (KeyPair : PublicKey → SecretKey → Prop) : Prop where
  sign_verifies : ∀ pk sk m, KeyPair pk sk →
    S.signVerifyDetached (S.signDetached m sk) m pk = true
  vrf_verifies : ∀ pk sk m, KeyPair pk sk →
    S.vrfVerify pk (S.vrfProve sk m) m = some (S.vrfProofToHash (S.vrfProve sk m))

/-- No two different strings of the set have one hash. -/
def Sodium.CollisionFree (S : Sodium) (strings : Set (List UInt8)) : Prop :=
  Set.InjOn S.generichash strings

section Transparent

/-- Key pairs of the transparent scheme: the secret key starts with the public
key. -/
def TransparentKeyPair (pk : PublicKey) (sk : SecretKey) : Prop :=
  sk.toList.take publicKeyBytes = pk.toList

/-- A scheme without secrets that can be evaluated: the hash is a polynomial in
the bytes, and a signature or a proof names the message and its signer. -/
def transparent : Sodium where
  generichash m :=
    ⟨toBigEndian 32 (m.foldl (fun acc b => (acc * 257 + b.toNat + 1) % 256 ^ 32) 0),
    toBigEndian_length _ _⟩
  signDetached m sk := Bytes.ofList signBytes (m.take 32 ++ sk.toList.take publicKeyBytes)
  signVerifyDetached s m pk := s = Bytes.ofList signBytes (m.take 32 ++ pk.toList)
  vrfProve sk m := Bytes.ofList vrfProofBytes (m.take 32 ++ sk.toList.take publicKeyBytes)
  vrfProofToHash p := Bytes.ofList vrfOutputBytes p.toList
  vrfVerify pk p m :=
    if p = Bytes.ofList vrfProofBytes (m.take 32 ++ pk.toList) then
      some (Bytes.ofList vrfOutputBytes p.toList)
    else none

theorem transparent_complete : transparent.Complete TransparentKeyPair where
  sign_verifies := by
    intro pk sk m h
    have h' : sk.toList.take publicKeyBytes = pk.toList := h
    simp only [transparent, h', decide_true]
  vrf_verifies := by
    intro pk sk m h
    have h' : sk.toList.take publicKeyBytes = pk.toList := h
    simp only [transparent, h', if_true]

end Transparent

end Whosecoin.Cryptography

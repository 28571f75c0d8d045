import Whosecoin.BlockSchema
import Whosecoin.Chains

namespace Whosecoin.BlockDelivery

open Library.Outcomes
open Library.ByteStrings
open Library.Maps
open Cryptography
open TupleParser
open TupleFormat
open Transactions
open TransactionSchema
open Accounts
open Blocks
open BlockSchema
open Chains

/-- The transaction comes from `transaction_create` with a key pair or from
`transaction_create_from_tuple`. -/
inductive Genuine (S : Sodium) (KeyPair : PublicKey → SecretKey → Prop) :
    Transaction → Prop where
  | created {pk : PublicKey} {sk : SecretKey} (hkeys : KeyPair pk sk) (recipient : PublicKey)
      (value : UInt64) (nonce : UInt32) :
      Genuine S KeyPair (transactionCreate S pk sk recipient value nonce)
  | accepted {tuple : Tuple} {txn : Transaction}
      (hrun : transactionCreateFromTuple S tuple = .ok (some txn)) : Genuine S KeyPair txn

variable {S : Sodium} {KeyPair : PublicKey → SecretKey → Prop}

/-- The hash is that of the fields and the signature is the sender's. -/
structure Signed (S : Sodium) (txn : Transaction) : Prop where
  hash_eq : txn.hash = S.generichash (transactionHashInput txn)
  verifies : S.signVerifyDetached txn.signature txn.hash.toList txn.sender = true

theorem signed_of_accepted {tuple : Tuple} {txn : Transaction}
    (hrun : transactionCreateFromTuple S tuple = .ok (some txn)) : Signed S txn := by
  simp only [transactionCreateFromTuple, bind_eq_ok] at hrun
  obtain ⟨valid, -, hrun⟩ := hrun
  split at hrun
  · simp at hrun
  simp only [bind_eq_ok] at hrun
  obtain ⟨inner, -, signature, -, sender, -, recipient, -, value, -, nonce, -, pk, -, pk', -,
    sig, -, hrun⟩ := hrun
  split at hrun
  · simp at hrun
  rename_i hverify
  simp only [pure_eq_ok, Except.ok.injEq, Option.some.injEq] at hrun
  subst hrun
  exact ⟨rfl, by simpa using hverify⟩

theorem Genuine.signed (hS : S.Complete KeyPair) {txn : Transaction}
    (h : Genuine S KeyPair txn) : Signed S txn := by
  cases h with
  | created hkeys recipient value nonce => exact ⟨rfl, hS.sign_verifies _ _ _ hkeys⟩
  | accepted hrun => exact signed_of_accepted hrun

theorem Signed.transaction_eq {txn : Transaction} (h : Signed S txn) :
    (TransactionMessage.ofTransaction txn).transaction S = txn :=
  transaction_ofTransaction h.hash_eq

theorem Signed.message_verifies {txn : Transaction} (h : Signed S txn) :
    (TransactionMessage.ofTransaction txn).Verifies S := by
  rw [TransactionMessage.Verifies, h.transaction_eq]
  exact h.verifies

section Sortition

variable (S) (sortitionHash : VrfOutput)

theorem minDelegateFrom_snd (remaining i : Nat) (minDelegate : UInt32) :
    (minDelegateFrom S sortitionHash remaining i minDelegate
        (delegateHash S sortitionHash minDelegate)).2 =
      delegateHash S sortitionHash (minDelegateFrom S sortitionHash remaining i minDelegate
        (delegateHash S sortitionHash minDelegate)).1 := by
  induction remaining generalizing i minDelegate with
  | zero => rfl
  | succ remaining ih =>
      rw [minDelegateFrom]
      split_ifs with hless
      · exact ih (i + 1) (UInt32.ofNat i)
      · exact ih (i + 1) minDelegate

theorem minDelegateFrom_lt (remaining i : Nat) (minDelegate : UInt32) (min : Hash) (n : UInt32)
    (hi : i + remaining ≤ n.toNat) (hmin : minDelegate < n) :
    (minDelegateFrom S sortitionHash remaining i minDelegate min).1 < n := by
  induction remaining generalizing i minDelegate min with
  | zero => exact hmin
  | succ remaining ih =>
      rw [minDelegateFrom]
      split_ifs with hless
      · refine ih (i + 1) (UInt32.ofNat i) _ (by omega) ?_
        have hsize : i < UInt32.size := (show i < n.toNat by omega).trans n.toNat_lt
        rw [UInt32.lt_iff_toNat_lt, UInt32.toNat_ofNat_of_lt' hsize]
        omega
      · exact ih (i + 1) minDelegate min (by omega) hmin

theorem minDelegate_snd (nDelegates : UInt32) :
    (minDelegate S sortitionHash nDelegates).2 =
      delegateHash S sortitionHash (minDelegate S sortitionHash nDelegates).1 :=
  minDelegateFrom_snd S sortitionHash _ 1 0

theorem minDelegate_lt {nDelegates : UInt32} (h : nDelegates ≠ 0) :
    (minDelegate S sortitionHash nDelegates).1 < nDelegates := by
  have hpos : 0 < nDelegates := UInt32.pos_iff_ne_zero.mpr h
  have hpos' := UInt32.lt_iff_toNat_lt.mp hpos
  exact minDelegateFrom_lt S sortitionHash _ 1 0 _ nDelegates (by omega) hpos

end Sortition

section Creation

variable (S) (now : UInt64) (pk : PublicKey) (sk : SecretKey) (prev : BlockPtr)
  (txns : List Transaction)

/-- The block that `block_create` signs. -/
def unsignedBlock : Block :=
  let sortitionProof := S.vrfProve sk (blockComputeSeed S prev).toList
  let sortition := minDelegate S (S.vrfProofToHash sortitionProof) (nDelegates prev pk)
  { timestamp := now
    merkleRoot := merkleRootFromList S txns
    publicKey := pk
    sortitionProof := sortitionProof
    signature := Bytes.zero signBytes
    delegate := sortition.1
    transactions := txns
    hash := Bytes.zero generichashBytes
    sortitionSeed := blockComputeSeed S prev
    sortitionHash := S.vrfProofToHash sortitionProof
    sortitionPriority := sortition.2
    height := 1 + blockGetHeight prev
    accounts := [] }

def unsignedHash : Hash :=
  blockComputeHash S (unsignedBlock S now pk sk prev txns) prev txns.length

/-- The block as `block_create` returns it. -/
def signedBlock (accounts : Map PublicKey AccountPtr) : Block :=
  { unsignedBlock S now pk sk prev txns with
    hash := unsignedHash S now pk sk prev txns
    signature := S.signDetached (unsignedHash S now pk sk prev txns).toList sk
    accounts := accounts }

variable {S now pk sk prev txns}

theorem blockCreate_spec {prev' : BlockPtr} {data : Block}
    (h : blockCreate S now pk sk prev txns = .ok (data :: prev')) :
    prev' = prev ∧ isStakingAllowed prev pk = true ∧ nDelegates prev pk ≠ 0 ∧
      ∃ accounts, areTransactionsValid prev pk (1 + blockGetHeight prev) (txns.map some) =
          .ok (some accounts) ∧ data = signedBlock S now pk sk prev txns accounts := by
  simp only [blockCreate] at h
  split at h
  · simp at h
  rename_i hstaking
  split at h
  · simp at h
  rename_i hdelegates
  simp only [pure_eq_ok, bind_eq_ok] at h
  obtain ⟨result, hledger, h⟩ := h
  cases result with
  | none => simp at h
  | some accounts =>
      simp only [Except.ok.injEq, List.cons.injEq] at h
      exact ⟨h.2.symm, by simpa using hstaking, hdelegates, accounts, hledger, h.1.symm⟩

theorem isDelegateAllowed_of_lt {delegate : UInt32}
    (h : delegate < nDelegates prev pk) : isDelegateAllowed prev pk delegate = true := by
  rcases prev with _ | ⟨block, prev⟩
  · rfl
  rw [nDelegates] at h
  rw [isDelegateAllowed]
  cases haccount : blockGetAccount (block :: prev) pk with
  | nil => rfl
  | cons account earlier =>
      simp only [haccount] at h
      exact decide_eq_true h

theorem leaves_messageOf {block : Block}
    (hsigned : ∀ txn ∈ block.transactions, Signed S txn) :
    (messageOf block prev).leaves S = block.transactions.map Transaction.hash := by
  rw [BlockMessage.leaves, messageOf, List.map_map]
  refine List.map_congr_left fun txn htxn => ?_
  rw [Function.comp_apply, ← transactionHashInput_eq, (hsigned txn htxn).hash_eq]

theorem txns_messageOf {block : Block}
    (hsigned : ∀ txn ∈ block.transactions, Signed S txn) :
    (messageOf block prev).txns S = block.transactions := by
  rw [BlockMessage.txns, messageOf, List.map_map]
  conv_rhs => rw [← List.map_id block.transactions]
  exact List.map_congr_left fun txn htxn => (hsigned txn htxn).transaction_eq

theorem length_le_encodeAll (vs : List Value) : vs.length ≤ (encodeAll vs).length := by
  induction vs with
  | nil => exact le_rfl
  | cons v vs ih =>
      have hpos := encode_length_pos v
      rw [encodeAll, List.length_append, List.length_cons]
      omega

theorem count_le_encode (m : BlockMessage) :
    m.transactions.length ≤ (Value.tuple m.values).encode.length := by
  have hle := length_le_encodeAll (m.transactions.map fun t => Value.tuple t.values)
  rw [List.length_map] at hle
  rw [encode_tuple_length, BlockMessage.values]
  simp only [encodeAll, List.length_append, encode_tuple_length]
  omega

theorem consistent_messageOf (hsigned : ∀ txn ∈ txns, Signed S txn)
    (accounts : Map PublicKey AccountPtr) (hcount : txns.length < 2 ^ 32) :
    (messageOf (signedBlock S now pk sk prev txns accounts) prev).Consistent S where
  count_eq := by
    change (txns.map TransactionMessage.ofTransaction).length = (UInt32.ofNat txns.length).toNat
    rw [List.length_map, UInt32.toNat_ofNat_of_lt' hcount]
  merkleRoot_eq := congrArg (merkleRootOfHashes S) (leaves_messageOf hsigned)

theorem hash_messageOf (accounts : Map PublicKey AccountPtr) :
    (messageOf (signedBlock S now pk sk prev txns accounts) prev).hash S prev =
      unsignedHash S now pk sk prev txns :=
  (blockComputeHash_eq rfl).symm

theorem checks_messageOf (hS : S.Complete KeyPair) (hkeys : KeyPair pk sk)
    (hsigned : ∀ txn ∈ txns, Signed S txn) (hstaking : isStakingAllowed prev pk = true)
    (hdelegates : nDelegates prev pk ≠ 0) (accounts : Map PublicKey AccountPtr) :
    (messageOf (signedBlock S now pk sk prev txns accounts) prev).Checks S prev
      (S.vrfProofToHash (S.vrfProve sk (blockComputeSeed S prev).toList)) where
  signature_length := (Bytes.length_eq _).le
  staking := hstaking
  sortition := hS.vrf_verifies pk sk _ hkeys
  delegate := isDelegateAllowed_of_lt (minDelegate_lt S _ hdelegates)
  transactions := by
    intro t ht
    obtain ⟨txn, htxn, rfl⟩ := List.mem_map.mp ht
    exact (hsigned txn htxn).message_verifies
  signature := by
    rw [hash_messageOf]
    change S.signVerifyDetached (Bytes.ofList signBytes (S.signDetached _ sk).toList) _ pk = true
    rw [Bytes.ofList_self]
    exact hS.sign_verifies pk sk _ hkeys

theorem block_messageOf (hsigned : ∀ txn ∈ txns, Signed S txn)
    (accounts : Map PublicKey AccountPtr) :
    (messageOf (signedBlock S now pk sk prev txns accounts) prev).block S prev
      (S.vrfProofToHash (S.vrfProve sk (blockComputeSeed S prev).toList)) accounts =
      signedBlock S now pk sk prev txns accounts := by
  have htxns : (messageOf (signedBlock S now pk sk prev txns accounts) prev).txns S = txns :=
    txns_messageOf hsigned
  rw [BlockMessage.block, hash_messageOf, htxns]
  simp only [signedBlock, unsignedBlock, messageOf, headerOf, minDelegate_snd, Bytes.ofList_self]

/-- A block that a key pair creates on top of `prev` is the one that its message
becomes there. -/
theorem accept_of_blockCreate (hS : S.Complete KeyPair) (hkeys : KeyPair pk sk)
    (hsigned : ∀ txn ∈ txns, Signed S txn) {data : Block} {prev' : BlockPtr}
    (hcreate : blockCreate S now pk sk prev txns = .ok (data :: prev'))
    (hsize : (Value.tuple (messageOf data prev').values).encode.length < 2 ^ 32) :
    (messageOf data prev').Consistent S ∧
      (messageOf data prev').accept S prev' = .ok (data :: prev') := by
  obtain ⟨rfl, hstaking, hdelegates, accounts, hledger, rfl⟩ := blockCreate_spec hcreate
  have hcount : txns.length < 2 ^ 32 := by
    have hle := count_le_encode (messageOf (signedBlock S now pk sk prev' txns accounts) prev')
    have hlength :
        (messageOf (signedBlock S now pk sk prev' txns accounts) prev').transactions.length
        = txns.length := List.length_map _
    omega
  refine ⟨consistent_messageOf hsigned accounts hcount, ?_⟩
  rw [accept_eq_ok_iff]
  refine ⟨rfl, _, accounts, checks_messageOf hS hkeys hsigned hstaking hdelegates accounts, ?_,
    (block_messageOf hsigned accounts).symm⟩
  rw [txns_messageOf hsigned]
  exact hledger

theorem exists_tuple_of_blockCreate (hS : S.Complete KeyPair) (hkeys : KeyPair pk sk)
    (hsigned : ∀ txn ∈ txns, Signed S txn) {data : Block} {prev' : BlockPtr}
    (hcreate : blockCreate S now pk sk prev txns = .ok (data :: prev'))
    (hsize : (Value.tuple (messageOf data prev').values).encode.length < 2 ^ 31)
    {find : Hash → BlockPtr} (hfind : find (blockGetHash prev') = prev') (after : List UInt8) :
    ∃ tuple, tupleParse ⟨(Value.tuple (messageOf data prev').values).encode.length,
        (Value.tuple (messageOf data prev').values).encode ++ after⟩ = .ok (some tuple) ∧
      blockCreateFromTuple S tuple find = .ok (data :: prev') := by
  obtain ⟨hconsistent, haccept⟩ := accept_of_blockCreate hS hkeys hsigned hcreate (by omega)
  obtain ⟨tuple, hparse, hrep⟩ := exists_parsed (messageOf data prev') after
  refine ⟨tuple, hparse, ?_⟩
  rw [blockCreateFromTuple_eq hrep hconsistent]
  change BlockMessage.accept S _ (find (blockGetHash prev')) = _
  rw [hfind, haccept]

/-- A block that a key pair creates is accepted by every node that finds its
parent, and becomes the same block there. -/
theorem blockCreate_accepted (hS : S.Complete KeyPair) (hkeys : KeyPair pk sk)
    (htxns : ∀ txn ∈ txns, Genuine S KeyPair txn) {block : BlockPtr}
    (hcreate : blockCreate S now pk sk prev txns = .ok block) (hne : block ≠ [])
    {find : Hash → BlockPtr} (hfind : find (blockGetHash prev) = prev) (after : List UInt8) :
    ∃ bytes, blockWrite [] block = .ok bytes ∧ (bytes.length < 2 ^ 31 →
      ∃ tuple, tupleParse ⟨bytes.length, bytes ++ after⟩ = .ok (some tuple) ∧
        blockCreateFromTuple S tuple find = .ok block) := by
  obtain ⟨data, rfl⟩ := eq_cons_of_blockCreate hcreate hne
  refine ⟨_, blockWrite_eq [] data prev, fun hsize => ?_⟩
  rw [List.nil_append] at hsize ⊢
  have hsigned : ∀ txn ∈ txns, Signed S txn := fun txn htxn => (htxns txn htxn).signed hS
  exact exists_tuple_of_blockCreate hS hkeys hsigned hcreate hsize hfind after

/-- A block with a payment, accepted by a node that has its parent only. -/
theorem blockCreate_accepted_payment :
    let prev := minedBlock 1 [] []
    let block := minedBlock 2 prev [payment 1 100 0]
    let find := fun hash => if hash = blockGetHash prev then prev else []
    ∃ bytes, blockWrite [] block = .ok bytes ∧
      ∃ tuple, tupleParse ⟨bytes.length, bytes ++ [0]⟩ = .ok (some tuple) ∧
        blockCreateFromTuple transparent tuple find = .ok block := by
  intro prev block find
  have hne : block ≠ [] := by decide +kernel
  have hkeys : TransparentKeyPair minerKey minerSecret := by
    rw [TransparentKeyPair]
    decide
  have htxns : ∀ txn ∈ [payment 1 100 0], Genuine transparent TransparentKeyPair txn := by
    intro txn htxn
    rw [List.mem_singleton.mp htxn]
    exact .created hkeys payeeKey 100 0
  have hfind : find (blockGetHash prev) = prev := if_pos rfl
  obtain ⟨bytes, hwrite, haccept⟩ := blockCreate_accepted transparent_complete hkeys htxns
    (blockCreate_eq_minedBlock hne) hne hfind [0]
  have hsize :
      (blockWrite [] block).toOption.all (fun bytes => bytes.length < 2 ^ 31) = true := by
    decide +kernel
  rw [hwrite] at hsize
  exact ⟨bytes, hwrite, haccept (by simpa [Except.toOption] using hsize)⟩

end Creation

end Whosecoin.BlockDelivery

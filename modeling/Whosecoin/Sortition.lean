import Whosecoin.BlockRelay

namespace Whosecoin.Sortition

open Library.Outcomes
open Library.ByteStrings
open Cryptography
open TupleParser
open Transactions
open Accounts
open Blocks
open Chains
open BlockDelivery

variable {S : Sodium}

/-- The output of the VRF is a function of the key and the string, whichever way
one gets at it. -/
structure VrfFunction (S : Sodium) (KeyPair : PublicKey → SecretKey → Prop)
    (output : PublicKey → List UInt8 → VrfOutput) : Prop where
  prove : ∀ pk sk m, KeyPair pk sk → S.vrfProofToHash (S.vrfProve sk m) = output pk m
  verify : ∀ pk proof m hash, S.vrfVerify pk proof m = some hash → hash = output pk m

/-- A block that a node has put on top of a chain. -/
inductive PutOn (S : Sodium) (KeyPair : PublicKey → SecretKey → Prop) (block : Block)
    (prev : BlockPtr) : Prop where
  | create {now : UInt64} {pk : PublicKey} {sk : SecretKey} {txns : List Transaction}
      (hkeys : KeyPair pk sk) (hcall : blockCreate S now pk sk prev txns = .ok (block :: prev))
  | accept {tuple : Tuple} {find : Hash → BlockPtr}
      (hcall : blockCreateFromTuple S tuple find = .ok (block :: prev))

/-- The seed that the creators of a chain fix, latest first. -/
def seedOf (S : Sodium) : List PublicKey → Hash
  | [] => S.generichash (List.replicate (generichashBytes + publicKeyBytes) 0)
  | pk :: pks => S.generichash ((seedOf S pks).toList ++ pk.toList)

theorem sortitionSeed_eq {block : Block} {prev : BlockPtr} (built : Built S (block :: prev)) :
    block.sortitionSeed = blockComputeSeed S prev := by
  cases built with
  | create hprev hcall =>
      obtain ⟨rfl, -, -, accounts, -, rfl⟩ := blockCreate_spec hcall
      rfl
  | accept hfind hcall => exact (accepted_of_blockCreateFromTuple hcall).2.seed_eq

/-- Nothing but the creators of a chain goes into the seed of its next block. -/
theorem blockComputeSeed_eq (chain : BlockPtr) (built : Built S chain) :
    blockComputeSeed S chain = seedOf S (chain.map Block.publicKey) := by
  induction chain with
  | nil => rfl
  | cons block prev ih =>
      rw [blockComputeSeed, List.map_cons, seedOf, sortitionSeed_eq built, ih built.cons.2]

theorem PutOn.sortition {KeyPair : PublicKey → SecretKey → Prop}
    {output : PublicKey → List UInt8 → VrfOutput} (hvrf : VrfFunction S KeyPair output)
    {block : Block} {prev : BlockPtr} (h : PutOn S KeyPair block prev) :
    block.sortitionHash = output block.publicKey (blockComputeSeed S prev).toList ∧
      block.sortitionPriority = delegateHash S block.sortitionHash block.delegate := by
  cases h with
  | create hkeys hcall =>
      obtain ⟨-, -, -, accounts, -, rfl⟩ := blockCreate_spec hcall
      exact ⟨hvrf.prove _ _ _ hkeys, minDelegate_snd S _ _⟩
  | accept hcall =>
      have haccepted := (accepted_of_blockCreateFromTuple hcall).2
      rw [← haccepted.seed_eq]
      exact ⟨hvrf.verify _ _ _ _ haccepted.verified, haccepted.priority_eq⟩

/-- Chains with the same creators leave their next blocks the same seed, and with it
the same sortition for each key and delegate. -/
theorem sortition_same {KeyPair : PublicKey → SecretKey → Prop}
    {output : PublicKey → List UInt8 → VrfOutput} (hvrf : VrfFunction S KeyPair output)
    {p q : BlockPtr} (hp : Built S p) (hq : Built S q)
    (hcreators : List.Forall₂ (fun b c => b.publicKey = c.publicKey) p q) :
    (∀ b c, Built S (b :: p) → Built S (c :: q) → b.sortitionSeed = c.sortitionSeed) ∧
      ∀ b c, PutOn S KeyPair b p → PutOn S KeyPair c q → b.publicKey = c.publicKey →
        b.delegate = c.delegate →
        b.sortitionHash = c.sortitionHash ∧ b.sortitionPriority = c.sortitionPriority := by
  have hkeys : p.map Block.publicKey = q.map Block.publicKey := by
    rw [← List.forall₂_eq_eq_eq, List.forall₂_map_left_iff, List.forall₂_map_right_iff]
    exact hcreators
  have hseed : blockComputeSeed S p = blockComputeSeed S q := by
    rw [blockComputeSeed_eq p hp, blockComputeSeed_eq q hq, hkeys]
  constructor
  · intro b c hb hc
    rw [sortitionSeed_eq hb, sortitionSeed_eq hc, hseed]
  · intro b c hb hc hpk hdelegate
    obtain ⟨hhash, hpriority⟩ := hb.sortition hvrf
    obtain ⟨hhash', hpriority'⟩ := hc.sortition hvrf
    have hsame : b.sortitionHash = c.sortitionHash := by
      rw [hhash, hhash', hpk, hseed]
    exact ⟨hsame, by rw [hpriority, hpriority', hsame, hdelegate]⟩

section Samples

theorem vrfFunction_transparent : VrfFunction transparent TransparentKeyPair fun pk m =>
    Bytes.ofList vrfOutputBytes (Bytes.ofList vrfProofBytes (m.take 32 ++ pk.toList)).toList where
  prove := by
    intro pk sk m hkeys
    have hkeys' : sk.toList.take publicKeyBytes = pk.toList := hkeys
    simp only [transparent, hkeys']
  verify := by
    intro pk proof m hash h
    simp only [transparent] at h
    split_ifs at h with hproof
    rw [← Option.some.inj h, hproof]

theorem exists_mined (now later : UInt64) (txns : List Transaction)
    (hne : minedBlock now [] [] ≠ [])
    (hne' : minedBlock later (minedBlock now [] []) txns ≠ []) :
    ∃ first second, minedBlock later (minedBlock now [] []) txns = [second, first] ∧
      Built transparent [first] ∧ Built transparent [second, first] ∧
      PutOn transparent TransparentKeyPair second [first] := by
  have hfirst := blockCreate_eq_minedBlock hne
  have hbuilt := built_minedBlock .null now []
  have hsecond := blockCreate_eq_minedBlock hne'
  have hbuilt' := built_minedBlock hbuilt later txns
  generalize minedBlock now [] [] = p at *
  generalize minedBlock later p txns = q at *
  obtain ⟨first, rfl⟩ := eq_cons_of_blockCreate hfirst hne
  obtain ⟨second, rfl⟩ := eq_cons_of_blockCreate hsecond hne'
  exact ⟨first, second, rfl, hbuilt, hbuilt', .create BlockRelay.minerKeys hsecond⟩

/-- Two chains with other timestamps, and a payment in one of them only. -/
theorem sortition_same_timestamps : ∃ first second first' second',
    Built transparent [second, first] ∧ Built transparent [second', first'] ∧
    first.timestamp ≠ first'.timestamp ∧ second.timestamp ≠ second'.timestamp ∧
    second.transactions = [] ∧ second'.transactions = [payment 1 100 0] ∧
    second.sortitionSeed = second'.sortitionSeed ∧
    second.sortitionHash = second'.sortitionHash ∧
    second.sortitionPriority = second'.sortitionPriority := by
  have hfields : (minedBlock 2 (minedBlock 1 [] []) []).map
        (fun b => (b.timestamp, b.publicKey, b.transactions)) =
          [(2, minerKey, []), (1, minerKey, [])] ∧
      (minedBlock 9 (minedBlock 5 [] []) [payment 1 100 0]).map
        (fun b => (b.timestamp, b.publicKey, b.transactions)) =
          [(9, minerKey, [payment 1 100 0]), (5, minerKey, [])] := by
    decide +kernel
  have hdelegates : (minedBlock 2 (minedBlock 1 [] []) []).map Block.delegate =
      (minedBlock 9 (minedBlock 5 [] []) [payment 1 100 0]).map Block.delegate := by
    decide +kernel
  obtain ⟨first, second, hchain, hp, hb, hput⟩ := exists_mined 1 2 []
    (by decide +kernel) (by decide +kernel)
  obtain ⟨first', second', hchain', hq, hc, hput'⟩ := exists_mined 5 9 [payment 1 100 0]
    (by decide +kernel) (by decide +kernel)
  rw [hchain, hchain'] at hfields hdelegates
  simp only [List.map_cons, List.map_nil, List.cons.injEq, Prod.mk.injEq, and_true]
    at hfields hdelegates
  obtain ⟨⟨⟨htime, hkey, htxns⟩, htime₁, hkey₁, -⟩, ⟨htime', hkey', htxns'⟩,
    htime₁', hkey₁', -⟩ :=
    hfields
  obtain ⟨hseeds, hsame⟩ := sortition_same vrfFunction_transparent hp hq
    (.cons (hkey₁.trans hkey₁'.symm) .nil)
  refine ⟨first, second, first', second', hb, hc, ?_, ?_, htxns, htxns',
    hseeds second second' hb hc,
    hsame second second' hput hput' (hkey.trans hkey'.symm) hdelegates.1⟩
  · rw [htime₁, htime₁']
    decide
  · rw [htime, htime']
    decide

end Samples

end Whosecoin.Sortition

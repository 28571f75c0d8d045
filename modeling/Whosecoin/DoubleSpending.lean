import Whosecoin.Chains

namespace Whosecoin.DoubleSpending

open Library.Outcomes
open Library.ByteStrings
open Cryptography
open Transactions
open Accounts
open Blocks
open Blockchains
open BlockTree
open Chains

/-- The hashes of all transactions that a chain confirms. -/
def confirmed (chain : BlockPtr) : List Hash :=
  chain.flatMap fun block => block.transactions.map Transaction.hash

/-- No transaction is confirmed twice on the chain. -/
def NoDoubleSpend (chain : BlockPtr) : Prop :=
  (confirmed chain).Nodup

/-- The transactions are pairwise different and the chain has none of them yet. -/
def Unconfirmed (chain : BlockPtr) (txns : List Transaction) : Prop :=
  (txns.map Transaction.hash).Nodup ∧ ∀ txn ∈ txns, txn.hash ∉ confirmed chain

theorem noDoubleSpend_cons (block : Block) (prev : BlockPtr) :
    NoDoubleSpend (block :: prev) ↔ Unconfirmed prev block.transactions ∧
      NoDoubleSpend prev := by
  rw [NoDoubleSpend, confirmed, List.flatMap_cons, List.nodup_append]
  constructor
  · rintro ⟨hnodup, hprev, hdisjoint⟩
    refine ⟨⟨hnodup, fun txn htxn hmem => ?_⟩, hprev⟩
    exact hdisjoint _ (List.mem_map_of_mem htxn) _ hmem rfl
  · rintro ⟨⟨hnodup, hfresh⟩, hprev⟩
    refine ⟨hnodup, hprev, ?_⟩
    rintro _ hmem _ hmem' rfl
    obtain ⟨txn, htxn, rfl⟩ := List.mem_map.mp hmem
    exact hfresh txn htxn hmem'

theorem noDoubleSpend_of_suffixes {chain : BlockPtr}
    (h : ∀ block prev, block :: prev <:+ chain → Unconfirmed prev block.transactions) :
    NoDoubleSpend chain := by
  induction chain with
  | nil => exact List.nodup_nil
  | cons block prev ih =>
      rw [noDoubleSpend_cons]
      refine ⟨h block prev List.suffix_rfl, ih fun b p hsuffix => ?_⟩
      exact h b p (hsuffix.trans (List.suffix_cons block prev))

/-- A run confirms no transaction twice on one chain exactly when every block it
stores carries unconfirmed transactions only. -/
theorem noDoubleSpend_iff_unconfirmed {S : Sodium} {stored : List BlockPtr} {bc : Blockchain}
    (run : BuiltRun S stored bc) :
    (∀ chain ∈ stored, NoDoubleSpend chain) ↔
      ∀ block prev, block :: prev ∈ stored → Unconfirmed prev block.transactions := by
  constructor
  · intro h block prev hstored
    exact ((noDoubleSpend_cons block prev).mp (h _ hstored)).1
  · intro h chain hstored
    refine noDoubleSpend_of_suffixes fun block prev hsuffix => ?_
    exact h block prev (run.tree.suffix_mem hstored hsuffix (by simp))

section Payments

def firstBlock : BlockPtr := minedBlock 1 [] []

def secondBlock : BlockPtr := minedBlock 2 firstBlock [payment 1 100 0]

def thirdBlock (txn : Transaction) : BlockPtr := minedBlock 3 secondBlock [txn]

theorem builtRun_thirdBlock (txn : Transaction) (hne : thirdBlock txn ≠ [])
    (hnew : blockGetHash (thirdBlock txn) ∉ [firstBlock, secondBlock].map blockGetHash) :
    ∃ bc, BuiltRun transparent [firstBlock, secondBlock, thirdBlock txn] bc := by
  obtain ⟨bc₁, run₁⟩ := BuiltRun.create.mine (.inl rfl) 1 [] (by decide +kernel)
    (by decide +kernel)
  obtain ⟨bc₂, run₂⟩ := run₁.mine (.inr (List.mem_singleton_self firstBlock)) 2
    [payment 1 100 0] (by decide +kernel) (by decide +kernel)
  have hmem : secondBlock ∈ [firstBlock, secondBlock] := by simp
  exact run₂.mine (.inr hmem) 3 [txn] hne hnew

theorem noDoubleSpend_iff_unconfirmed_payments :
    (∀ chain ∈ [firstBlock, secondBlock, thirdBlock (payment 1 100 1)], NoDoubleSpend chain) ↔
      ∀ block prev, block :: prev ∈ [firstBlock, secondBlock, thirdBlock (payment 1 100 1)] →
        Unconfirmed prev block.transactions := by
  obtain ⟨bc, run⟩ := builtRun_thirdBlock (payment 1 100 1) (by decide +kernel)
    (by decide +kernel)
  exact noDoubleSpend_iff_unconfirmed run

/-- A payment that the parent already confirms is confirmed again. -/
theorem payment_confirmed_twice :
    (∃ bc, BuiltRun transparent [firstBlock, secondBlock, thirdBlock (payment 1 100 0)] bc) ∧
      ¬ NoDoubleSpend (thirdBlock (payment 1 100 0)) := by
  refine ⟨builtRun_thirdBlock (payment 1 100 0) (by decide +kernel) (by decide +kernel), ?_⟩
  rw [NoDoubleSpend]
  decide +kernel

end Payments

end Whosecoin.DoubleSpending

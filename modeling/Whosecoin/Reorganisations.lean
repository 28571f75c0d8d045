import Whosecoin.Pools
import Whosecoin.Representation
import Whosecoin.BlockDelivery

namespace Whosecoin.Reorganisations

open Library.Outcomes
open Library.ByteStrings
open Cryptography
open Transactions
open Accounts
open Blocks
open Blockchains
open PrincipalChain
open Chains
open BlockTree
open Pools

/-- A transaction of a block that is `P` or an ancestor of `P` but neither `Q` nor
an ancestor of `Q`. -/
def Abandoned (P Q : BlockPtr) (hash : Hash) : Prop :=
  ∃ data prev, data :: prev <:+ P ∧ ¬ data :: prev <:+ Q ∧
    ∃ txn ∈ data.transactions, txn.hash = hash

/-- A transaction of `Q` or of an ancestor of `Q`. -/
def Confirmed (Q : BlockPtr) (hash : Hash) : Prop :=
  ∃ data ∈ Q, ∃ txn ∈ data.transactions, txn.hash = hash

theorem not_abandoned_of_suffix {P Q : BlockPtr} (h : P <:+ Q) (hash : Hash) :
    ¬ Abandoned P Q hash := by
  rintro ⟨data, prev, hP, hQ, -⟩
  exact hQ (hP.trans h)

theorem abandoned_cons_iff {data : Block} {prev Q : BlockPtr} (h : ¬ data :: prev <:+ Q)
    (hash : Hash) :
    Abandoned (data :: prev) Q hash ↔
      (∃ txn ∈ data.transactions, txn.hash = hash) ∨ Abandoned prev Q hash := by
  constructor
  · rintro ⟨d, p, hP, hQ, htxn⟩
    rcases List.suffix_cons_iff.mp hP with heq | hsuffix
    · obtain ⟨rfl, rfl⟩ := List.cons.inj heq
      exact Or.inl htxn
    · exact Or.inr ⟨d, p, hsuffix, hQ, htxn⟩
  · rintro (htxn | ⟨d, p, hP, hQ, htxn⟩)
    · exact ⟨data, prev, List.suffix_refl _, h, htxn⟩
    · exact ⟨d, p, hP.trans (List.suffix_cons _ _), hQ, htxn⟩

theorem onExtended_spec (block prev : BlockPtr) (pool : Pool) :
    ∃ pool', onExtended block prev pool = .ok pool' ∧
      ∀ hash, hash ∈ pool'.hashes ↔ hash ∈ pool.hashes ∨ Abandoned prev block hash := by
  induction prev generalizing pool with
  | nil =>
      have hnull : blockHasAncestor block [] = true :=
        (blockHasAncestor_iff block []).mpr List.nil_suffix
      refine ⟨pool, by rw [onExtended, if_pos hnull], ?_⟩
      intro hash
      simp only [not_abandoned_of_suffix List.nil_suffix hash, or_false]
  | cons data earlier ih =>
      rw [onExtended]
      split_ifs with hancestor
      · rw [blockHasAncestor_iff] at hancestor
        refine ⟨pool, rfl, ?_⟩
        intro hash
        simp only [not_abandoned_of_suffix hancestor hash, or_false]
      · rw [blockHasAncestor_iff] at hancestor
        obtain ⟨pool', hrun, hmem⟩ := ih (data.transactions.foldl poolAdd pool)
        refine ⟨pool', hrun, ?_⟩
        intro hash
        rw [hmem, mem_hashes_foldl, abandoned_cons_iff hancestor, or_assoc]

theorem addBlock_spec {bc : Blockchain} {block : BlockPtr} {r : AddResult}
    (hcall : blockchainAddBlock bc block = .ok r) (pool : Pool) :
    ∃ pool', addBlock bc pool block = .ok (r.added, r.blockchain, pool') ∧
      ∀ hash, hash ∈ pool'.hashes ↔
        hash ∈ pool.hashes ∨ Abandoned bc.principal r.blockchain.principal hash := by
  rw [addBlock, hcall, ok_bind]
  rcases extended_cases hcall with ⟨hnone, hsame⟩ | ⟨hone, -⟩
  · refine ⟨pool, by rw [hnone]; rfl, ?_⟩
    intro hash
    rw [hsame]
    simp only [not_abandoned_of_suffix (List.suffix_refl _) hash, or_false]
  · obtain ⟨pool', hrun, hmem⟩ := onExtended_spec r.blockchain.principal bc.principal pool
    refine ⟨pool', ?_, hmem⟩
    rw [hone, List.foldlM_cons, hrun]
    rfl

/-- The block is new and wins the fork. -/
def Overtakes (bc : Blockchain) (block : BlockPtr) : Prop :=
  bc.blocks.get (blockGetHash block) = none ∧ Leads bc block.tail (blockGetPriority block)

/-- The principal changes, with a call of `on_extended`, when a block overtakes it. -/
theorem overtakes_cases {stored : List BlockPtr} {bc : Blockchain} {block : BlockPtr}
    {r : AddResult} (tree : Tree stored bc) (hadd : Addable stored block)
    (hcall : blockchainAddBlock bc block = .ok r) :
    (¬ Overtakes bc block ∧ r.extended = [] ∧ r.blockchain.principal = bc.principal) ∨
      (Overtakes bc block ∧ r.extended = [(bc.principal, block)] ∧
        r.blockchain.principal = block) := by
  rcases block with _ | ⟨data, prev⟩
  · exact absurd rfl hadd.1
  rcases extended_cases hcall with ⟨hnone, hsame⟩ | ⟨hone, hnew⟩
  · refine Or.inl ⟨?_, hnone, hsame⟩
    rintro ⟨hfresh, hleads⟩
    have hnot := (tree.get_eq_none_iff _).mp hfresh
    have hnew := (principal_eq_iff tree hadd hnot hcall).mpr hleads
    rw [hsame] at hnew
    exact ne_principal tree hnot hnew.symm
  · have hfresh : bc.blocks.get data.hash = none := by
      rcases blockchainAddBlock_cases hcall with ⟨-, hrefused⟩ |
        ⟨data', before, heq, hget, -⟩
      · rw [hrefused] at hone
        cases hone
      · cases heq
        exact hget
    have hnot := (tree.get_eq_none_iff _).mp hfresh
    refine Or.inr ⟨⟨hfresh, (principal_eq_iff tree hadd hnot hcall).mp hnew⟩, ?_, hnew⟩
    rw [hone, hnew]

/-- After a block has been added the pool is the one that a reorganisation asks
for exactly when nothing in it or in the abandoned branch is confirmed. -/
theorem pool_after_change_iff {bc : Blockchain} {block : BlockPtr} {r : AddResult}
    (hcall : blockchainAddBlock bc block = .ok r) (pool : Pool) :
    ∃ pool', addBlock bc pool block = .ok (r.added, r.blockchain, pool') ∧
      pool'.hashes.Nodup ∧
      ((∀ hash, hash ∈ pool'.hashes ↔
          (hash ∈ pool.hashes ∨ Abandoned bc.principal r.blockchain.principal hash) ∧
            ¬ Confirmed r.blockchain.principal hash) ↔
        ∀ hash, Confirmed r.blockchain.principal hash →
          hash ∉ pool.hashes ∧ ¬ Abandoned bc.principal r.blockchain.principal hash) := by
  obtain ⟨pool', hrun, hmem⟩ := addBlock_spec hcall pool
  refine ⟨pool', hrun, pool'.nodup, ?_⟩
  constructor
  · intro hpool hash hconfirmed
    rw [← not_or, ← hmem, hpool]
    exact fun h => h.2 hconfirmed
  · intro hdisjoint hash
    rw [hmem, iff_self_and]
    intro hold hconfirmed
    exact (not_or.mpr (hdisjoint hash hconfirmed)) hold

section Rollback

/-- A child of `afterGenesis` with a payment. -/
def paymentChild : Block :=
  { bareBlock 2 9 with transactions := [payment 1 100 0] }

def afterPayment : AddResult :=
  extendPrincipal (storeBlock afterGenesis.blockchain paymentChild [bareBlock 1 7])
    [paymentChild, bareBlock 1 7]

/-- Another first block has taken over. -/
def afterRollback : AddResult :=
  extendPrincipal (storeBlock afterPayment.blockchain (bareBlock 3 5) []) [bareBlock 3 5]

/-- A second genesis block takes over and the payment becomes pending again. -/
theorem pool_after_change_iff_rollback :
    ∃ pool', addBlock afterPayment.blockchain poolCreate [bareBlock 3 5] =
        .ok (true, afterRollback.blockchain, pool') ∧ pool'.hashes.Nodup ∧
      ((∀ hash, hash ∈ pool'.hashes ↔
          (hash ∈ poolCreate.hashes ∨
            Abandoned [paymentChild, bareBlock 1 7] [bareBlock 3 5] hash) ∧
            ¬ Confirmed [bareBlock 3 5] hash) ↔
        ∀ hash, Confirmed [bareBlock 3 5] hash →
          hash ∉ poolCreate.hashes ∧
            ¬ Abandoned [paymentChild, bareBlock 1 7] [bareBlock 3 5] hash) :=
  pool_after_change_iff
    (show blockchainAddBlock afterPayment.blockchain [bareBlock 3 5] = .ok afterRollback from rfl)
    poolCreate

end Rollback

section Extension

theorem blockchainAddBlock_extend {bc : Blockchain} {data : Block}
    (hnew : bc.blocks.get data.hash = none) :
    blockchainAddBlock bc (data :: bc.principal) =
      .ok (extendPrincipal (storeBlock bc data bc.principal) (data :: bc.principal)) := by
  simp only [blockchainAddBlock, blockGetHash, hnew, if_true]

theorem addBlock_extend {bc : Blockchain} {data : Block}
    (hnew : bc.blocks.get data.hash = none) (pool : Pool) :
    addBlock bc pool (data :: bc.principal) =
      .ok (true, { storeBlock bc data bc.principal with principal := data :: bc.principal },
        pool) := by
  have hpool : onExtended (data :: bc.principal) bc.principal pool = .ok pool := by
    have hancestor := (blockHasAncestor_iff _ _).mpr (List.suffix_cons data bc.principal)
    cases hprincipal : bc.principal with
    | nil => rw [onExtended, if_pos (hprincipal ▸ hancestor)]
    | cons head earlier => rw [onExtended, if_pos (hprincipal ▸ hancestor)]
  rw [addBlock, blockchainAddBlock_extend hnew, ok_bind]
  simp only [extendPrincipal, List.foldlM_cons, List.foldlM_nil]
  show (onExtended (data :: bc.principal) bc.principal pool >>= _) >>= _ = _
  rw [hpool]
  rfl

theorem principal_of_singleton {block : BlockPtr} {bc : Blockchain} (tree : Tree [block] bc) :
    bc.principal = block := by
  rcases tree.principal_mem with hnull | hmem
  · exact absurd (tree.stored_eq_nil_of_principal hnull) (List.cons_ne_nil _ _)
  · exact List.mem_singleton.mp hmem

/-- A block confirms a pending transaction, which stays in the pool. -/
theorem confirmed_stays_pending :
    ∃ (bc : Blockchain) (pool pool' : Pool) (r : AddResult) (hash : Hash),
      Representation.NodeRun transparent bc ∧ pool.list = [payment 1 100 0] ∧
      blockchainAddBlock bc (minedBlock 2 (minedBlock 1 [] []) [payment 1 100 0]) = .ok r ∧
      r.blockchain.principal ≠ bc.principal ∧
      addBlock bc pool (minedBlock 2 (minedBlock 1 [] []) [payment 1 100 0]) =
        .ok (r.added, r.blockchain, pool') ∧
      Confirmed r.blockchain.principal hash ∧ hash ∈ pool'.hashes := by
  obtain ⟨bc, run, built⟩ := Representation.NodeRun.start.mine .create (.inl rfl) 1 []
    (by decide +kernel) (by decide +kernel)
  have hprincipal := principal_of_singleton built.tree
  have hne : minedBlock 2 (minedBlock 1 [] []) [payment 1 100 0] ≠ [] := by decide +kernel
  have hfresh : blockGetHash (minedBlock 2 (minedBlock 1 [] []) [payment 1 100 0]) ∉
      [minedBlock 1 [] []].map blockGetHash := by
    decide +kernel
  have hcreate := blockCreate_eq_minedBlock hne
  generalize minedBlock 2 (minedBlock 1 [] []) [payment 1 100 0] = block at *
  rcases block with _ | ⟨data, prev⟩
  · exact absurd rfl hne
  have hget : bc.blocks.get data.hash = none := (built.tree.get_eq_none_iff _).mpr hfresh
  obtain ⟨rfl, -, -, accounts, -, hdata⟩ := BlockDelivery.blockCreate_spec hcreate
  have hcall := blockchainAddBlock_extend hget
  rw [← hprincipal]
  obtain ⟨pool', hrun, hmem⟩ := addBlock_spec hcall (poolAdd poolCreate (payment 1 100 0))
  refine ⟨bc, poolAdd poolCreate (payment 1 100 0), pool', _, (payment 1 100 0).hash, run, rfl,
    hcall, ?_, hrun, ?_, ?_⟩
  · exact List.cons_ne_self _ _
  · refine ⟨data, List.mem_cons_self, payment 1 100 0, ?_, rfl⟩
    rw [hdata]
    exact List.mem_singleton_self _
  · rw [hmem, mem_hashes_poolAdd]
    exact Or.inl (Or.inr rfl)

end Extension

end Whosecoin.Reorganisations

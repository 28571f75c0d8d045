import Whosecoin.Chains

namespace Whosecoin.Representation

open Library.Outcomes
open Library.ByteStrings
open Library.Maps
open Cryptography
open TupleParser
open Transactions
open Accounts
open Blocks
open Blockchains
open BlockTree
open PrincipalChain
open Chains

/-- The block is in the table of blocks. -/
def Stored (bc : Blockchain) (block : BlockPtr) : Prop :=
  block ∈ bc.blocks.map Prod.snd

/-- A run of `blockchain_add_block` on blocks that are built over stored parents or
accepted with the blockchain's own lookup. -/
inductive NodeRun (S : Sodium) : Blockchain → Prop where
  | start : NodeRun S blockchainCreate
  | create {bc : Blockchain} {now : UInt64} {pk : PublicKey} {sk : SecretKey}
      {prev block : BlockPtr} {txns : List Transaction} {r : AddResult} (run : NodeRun S bc)
      (hprev : prev = [] ∨ Stored bc prev)
      (hblock : blockCreate S now pk sk prev txns = .ok block) (hne : block ≠ [])
      (hadd : blockchainAddBlock bc block = .ok r) : NodeRun S r.blockchain
  | accept {bc : Blockchain} {tuple : Tuple} {block : BlockPtr} {r : AddResult}
      (run : NodeRun S bc)
      (hblock : blockCreateFromTuple S tuple (blockchainGetBlock bc) = .ok block)
      (hne : block ≠ []) (hadd : blockchainAddBlock bc block = .ok r) : NodeRun S r.blockchain

/-- Such a run, with the blocks for which a call has returned true. -/
inductive StoredRun (S : Sodium) : List BlockPtr → Blockchain → Prop where
  | start : StoredRun S [] blockchainCreate
  | create {stored : List BlockPtr} {bc : Blockchain} {now : UInt64} {pk : PublicKey}
      {sk : SecretKey} {prev block : BlockPtr} {txns : List Transaction} {r : AddResult}
      (run : StoredRun S stored bc) (hprev : prev = [] ∨ prev ∈ stored)
      (hblock : blockCreate S now pk sk prev txns = .ok block) (hne : block ≠ [])
      (hadd : blockchainAddBlock bc block = .ok r) :
      StoredRun S (if r.added then stored ++ [block] else stored) r.blockchain
  | accept {stored : List BlockPtr} {bc : Blockchain} {tuple : Tuple} {block : BlockPtr}
      {r : AddResult} (run : StoredRun S stored bc)
      (hblock : blockCreateFromTuple S tuple (blockchainGetBlock bc) = .ok block)
      (hne : block ≠ []) (hadd : blockchainAddBlock bc block = .ok r) :
      StoredRun S (if r.added then stored ++ [block] else stored) r.blockchain

/-- The five structures agree with the blocks that have been added. -/
structure Represents (stored : List BlockPtr) (bc : Blockchain) : Prop where
  lookup_iff : ∀ hash, blockchainGetBlock bc hash ≠ [] ↔
    ∃ block ∈ stored, blockGetHash block = hash
  lookup_eq : ∀ block ∈ stored, blockchainGetBlock bc (blockGetHash block) = block
  parent : ∀ block ∈ stored, block ≠ [] ∧ (block.tail = [] ∨ block.tail ∈ stored)
  children_iff : ∀ block ∈ stored, ∀ child,
    child ∈ bc.children block ↔ child ∈ stored ∧ child.tail = block
  children_nodup : ∀ block ∈ stored, (bc.children block).Nodup
  height : ∀ data prev, data :: prev ∈ stored → data.height = 1 + blockGetHeight prev
  transaction_iff : ∀ hash, (blockchainGetTransaction bc hash).isSome ↔
    ∃ data prev, data :: prev ∈ stored ∧ ∃ txn ∈ data.transactions, txn.hash = hash
  transaction_hash : ∀ hash txn, blockchainGetTransaction bc hash = some txn → txn.hash = hash
  principal : stored ≠ [] → bc.principal ∈ stored

theorem stored_storedAs_iff {bc : Blockchain} {data : Block} {prev : BlockPtr} {r : AddResult}
    (hnew : bc.blocks.get data.hash = none) (h : StoredAs bc data prev r) (b : BlockPtr) :
    Stored r.blockchain b ↔ Stored bc b ∨ b = data :: prev := by
  rw [Stored, h.blocks_eq, Map.set_of_get_eq_none _ hnew, List.map_append,
    List.mem_append, List.map_singleton, List.mem_singleton]
  rfl

theorem stored_blockchainGetBlock {bc : Blockchain} {hash : Hash}
    (h : blockchainGetBlock bc hash ≠ []) :
    Stored bc (blockchainGetBlock bc hash) := by
  rw [blockchainGetBlock] at h ⊢
  cases hget : bc.blocks.get hash with
  | none => simp [hget] at h
  | some block => exact List.mem_map_of_mem (Map.mem_of_get_eq_some hget)

theorem parent_of_accept {S : Sodium} {bc : Blockchain} {tuple : Tuple} {block : BlockPtr}
    (hblock : blockCreateFromTuple S tuple (blockchainGetBlock bc) = .ok block)
    (hne : block ≠ []) : block.tail = [] ∨ Stored bc block.tail := by
  obtain ⟨hash, htail⟩ := tail_of_blockCreateFromTuple hblock hne
  rcases eq_or_ne block.tail [] with hnull | hfound
  · exact Or.inl hnull
  · rw [htail] at hfound ⊢
    exact Or.inr (stored_blockchainGetBlock hfound)

section Indexes

variable {stored : List BlockPtr} {bc : Blockchain}

theorem stored_iff (tree : Tree stored bc) (block : BlockPtr) :
    Stored bc block ↔ block ∈ stored := by
  rw [Stored, tree.blocks_eq, List.map_map]
  simp

theorem blockchainGetBlock_eq (tree : Tree stored bc) {block : BlockPtr} (h : block ∈ stored) :
    blockchainGetBlock bc (blockGetHash block) = block := by
  rw [blockchainGetBlock, tree.get_hash h]
  rfl

theorem blockchainGetBlock_mem (tree : Tree stored bc) {hash : Hash}
    (h : blockchainGetBlock bc hash ≠ []) :
    blockchainGetBlock bc hash ∈ stored ∧ blockGetHash (blockchainGetBlock bc hash) = hash := by
  rw [blockchainGetBlock] at h ⊢
  cases hget : bc.blocks.get hash with
  | none => simp [hget] at h
  | some block =>
      have hmem := Map.mem_of_get_eq_some hget
      rw [tree.blocks_eq, List.mem_map] at hmem
      obtain ⟨b, hb, heq⟩ := hmem
      obtain ⟨rfl, rfl⟩ := Prod.mk.inj heq
      exact ⟨hb, rfl⟩

theorem stored_nodup (tree : Tree stored bc) : stored.Nodup :=
  tree.hashes_nodup.of_map _

/-- The table of transactions holds those of the stored blocks. -/
structure IndexesTransactions (stored : List BlockPtr) (bc : Blockchain) : Prop where
  isSome_iff : ∀ hash, (bc.txns.get hash).isSome ↔
    ∃ data prev, data :: prev ∈ stored ∧ ∃ txn ∈ data.transactions, txn.hash = hash
  hash_eq : ∀ hash txn, bc.txns.get hash = some txn → txn.hash = hash

theorem indexesTransactions_of_storeBlock (h : IndexesTransactions stored bc) (data : Block)
    (prev : BlockPtr) :
    IndexesTransactions (stored ++ [data :: prev]) (storeBlock bc data prev) := by
  have htxns : (storeBlock bc data prev).txns =
      Map.setAll Transaction.hash id bc.txns data.transactions := rfl
  constructor
  · intro hash
    rw [htxns, Map.get_setAll_isSome, h.isSome_iff]
    constructor
    · rintro (⟨d, p, hmem, htxn⟩ | htxn)
      · exact ⟨d, p, List.mem_append_left _ hmem, htxn⟩
      · exact ⟨data, prev, List.mem_append_right _ (List.mem_singleton_self _), htxn⟩
    · rintro ⟨d, p, hmem, htxn⟩
      rcases List.mem_append.mp hmem with hold | hnew
      · exact Or.inl ⟨d, p, hold, htxn⟩
      · obtain ⟨rfl, rfl⟩ := List.cons.inj (List.mem_singleton.mp hnew)
        exact Or.inr htxn
  · intro hash txn hget
    rw [htxns] at hget
    rcases Map.get_setAll_eq_some hget with hold | ⟨txn', -, hhash, rfl⟩
    · exact h.hash_eq hash txn hold
    · exact hhash

/-- A call returns false and changes nothing, or it stores the block; the fork
choice does not touch the tables. -/
theorem refused_or_stored {data : Block} {prev : BlockPtr} {r : AddResult}
    (h : blockchainAddBlock bc (data :: prev) = .ok r) :
    r.added = false ∧ r.blockchain = bc ∨
      r.added = true ∧ r.blockchain.txns = (storeBlock bc data prev).txns := by
  rcases blockchainAddBlock_cases h with ⟨-, rfl⟩ | ⟨data', prev', heq, -, hstored⟩
  · exact Or.inl ⟨rfl, rfl⟩
  · obtain ⟨rfl, rfl⟩ := List.cons.inj heq
    exact Or.inr ⟨hstored.added, hstored.txns_eq⟩

theorem indexesTransactions_of_run {S : Sodium} (run : BuiltRun S stored bc) :
    IndexesTransactions stored bc := by
  induction run with
  | create => exact ⟨by simp [blockchainCreate], by simp [blockchainCreate]⟩
  | @add stored bc block r run hbuilt hadd hcall ih =>
      rcases block with _ | ⟨data, prev⟩
      · exact absurd rfl hadd.1
      · rcases refused_or_stored hcall with ⟨hadded, hsame⟩ | ⟨hadded, htxns⟩
        · rw [hadded, hsame]
          exact ih
        · have hnext := indexesTransactions_of_storeBlock ih data prev
          rw [if_pos hadded]
          exact ⟨by rw [htxns]; exact hnext.isSome_iff, by rw [htxns]; exact hnext.hash_eq⟩

end Indexes

theorem addable_of_blockCreate {S : Sodium} {stored : List BlockPtr} {now : UInt64}
    {pk : PublicKey} {sk : SecretKey} {prev block : BlockPtr} {txns : List Transaction}
    (hprev : prev = [] ∨ prev ∈ stored) (hblock : blockCreate S now pk sk prev txns = .ok block)
    (hne : block ≠ []) : Addable stored block := by
  obtain ⟨data, rfl⟩ := eq_cons_of_blockCreate hblock hne
  exact ⟨hne, hprev⟩

theorem addable_of_blockCreateFromTuple {S : Sodium} {stored : List BlockPtr} {bc : Blockchain}
    (tree : Tree stored bc) {tuple : Tuple} {block : BlockPtr}
    (hblock : blockCreateFromTuple S tuple (blockchainGetBlock bc) = .ok block)
    (hne : block ≠ []) : Addable stored block :=
  ⟨hne, (parent_of_accept hblock hne).imp_right (stored_iff tree _).mp⟩

theorem built_blockchainGetBlock {S : Sodium} {stored : List BlockPtr} {bc : Blockchain}
    (run : BuiltRun S stored bc) (hash : Hash) : Built S (blockchainGetBlock bc hash) := by
  rcases eq_or_ne (blockchainGetBlock bc hash) [] with hnull | hfound
  · rw [hnull]
    exact .null
  · exact run.built _ (blockchainGetBlock_mem run.tree hfound).1

theorem StoredRun.builtRun {S : Sodium} {stored : List BlockPtr} {bc : Blockchain}
    (run : StoredRun S stored bc) : BuiltRun S stored bc := by
  induction run with
  | start => exact .create
  | @create stored bc now pk sk prev block txns r run hprev hblock hne hadd ih =>
      have hparent : Built S prev := by
        rcases hprev with rfl | hmem
        · exact .null
        · exact ih.built _ hmem
      exact ih.add (.create hparent hblock) (addable_of_blockCreate hprev hblock hne) hadd
  | accept run hblock hne hadd ih =>
      exact ih.add (.accept (built_blockchainGetBlock ih) hblock)
        (addable_of_blockCreateFromTuple ih.tree hblock hne) hadd

theorem NodeRun.storedRun {S : Sodium} {bc : Blockchain} (run : NodeRun S bc) :
    ∃ stored, StoredRun S stored bc := by
  induction run with
  | start => exact ⟨[], .start⟩
  | create run hprev hblock hne hadd ih =>
      obtain ⟨stored, ih⟩ := ih
      rw [stored_iff ih.builtRun.tree] at hprev
      exact ⟨_, ih.create hprev hblock hne hadd⟩
  | accept run hblock hne hadd ih =>
      obtain ⟨stored, ih⟩ := ih
      exact ⟨_, ih.accept hblock hne hadd⟩

theorem NodeRun.builtRun {S : Sodium} {bc : Blockchain} (run : NodeRun S bc) :
    ∃ stored, BuiltRun S stored bc := by
  obtain ⟨stored, run⟩ := run.storedRun
  exact ⟨stored, run.builtRun⟩

theorem represents_of_builtRun {S : Sodium} {stored : List BlockPtr} {bc : Blockchain}
    (run : BuiltRun S stored bc) : Represents stored bc where
  lookup_iff := by
    intro hash
    constructor
    · intro hfound
      obtain ⟨hmem, hhash⟩ := blockchainGetBlock_mem run.tree hfound
      exact ⟨_, hmem, hhash⟩
    · rintro ⟨block, hblock, rfl⟩
      rw [blockchainGetBlock_eq run.tree hblock]
      exact run.tree.ne_nil hblock
  lookup_eq := fun block hblock => blockchainGetBlock_eq run.tree hblock
  parent := run.tree.addable
  children_iff := by
    intro block hblock child
    rw [run.tree.children_eq block (run.tree.ne_nil hblock), mem_childrenIn]
  children_nodup := by
    intro block hblock
    rw [run.tree.children_eq block (run.tree.ne_nil hblock)]
    exact (stored_nodup run.tree).filter _
  height := by
    intro data prev hblock
    exact (run.built _ hblock).cons.1.height_eq
  transaction_iff := (indexesTransactions_of_run run).isSome_iff
  transaction_hash := (indexesTransactions_of_run run).hash_eq
  principal := by
    intro hne
    rcases run.tree.principal_mem with hnull | hmem
    · exact absurd (run.tree.stored_eq_nil_of_principal hnull) hne
    · exact hmem

theorem added_iff {stored : List BlockPtr} {bc : Blockchain} (tree : Tree stored bc)
    {block : BlockPtr} {r : AddResult} (hadd : blockchainAddBlock bc block = .ok r) :
    r.added = true ↔ ∀ other ∈ stored, blockGetHash other ≠ blockGetHash block := by
  have hget := tree.get_eq_none_iff (blockGetHash block)
  rw [List.mem_map, not_exists] at hget
  simp only [not_and] at hget
  rw [← hget]
  rcases blockchainAddBlock_cases hadd with ⟨⟨old, hold⟩, rfl⟩ |
    ⟨data, prev, rfl, hnew, hstored⟩
  · simp [hold]
  · simp [hstored.added, blockGetHash, hnew]

theorem eq_of_refused {bc : Blockchain} {block : BlockPtr} {r : AddResult}
    (hadd : blockchainAddBlock bc block = .ok r) (hrefused : r.added = false) :
    r.blockchain = bc := by
  rcases blockchainAddBlock_cases hadd with ⟨-, rfl⟩ | ⟨data, prev, rfl, hnew, hstored⟩
  · rfl
  · rw [hstored.added] at hrefused
    cases hrefused

/-- In every run the five structures agree with the blocks that have been added; a
further call adds its block if no added one has its hash, and else changes nothing. -/
theorem storedRun_represents {S : Sodium} {stored : List BlockPtr} {bc : Blockchain}
    (run : StoredRun S stored bc) :
    Represents stored bc ∧ ∀ block r, blockchainAddBlock bc block = .ok r →
      (r.added = true ↔ ∀ other ∈ stored, blockGetHash other ≠ blockGetHash block) ∧
        (r.added = false → r.blockchain = bc) := by
  refine ⟨represents_of_builtRun run.builtRun, ?_⟩
  intro block r hadd
  exact ⟨added_iff run.builtRun.tree hadd, eq_of_refused hadd⟩

theorem StoredRun.mine {stored : List BlockPtr} {bc : Blockchain} {prev : BlockPtr}
    (run : StoredRun transparent stored bc) (hprev : prev = [] ∨ prev ∈ stored) (now : UInt64)
    (txns : List Transaction) (hne : minedBlock now prev txns ≠ [])
    (hnew : blockGetHash (minedBlock now prev txns) ∉ stored.map blockGetHash) :
    ∃ bc', StoredRun transparent (stored ++ [minedBlock now prev txns]) bc' := by
  obtain ⟨r, hr, hspec⟩ := blockchainAddBlock_spec run.builtRun.tree
    (addable_minedBlock hprev hne)
  have hrun := run.create hprev (blockCreate_eq_minedBlock hne) hne hr
  rw [if_pos (hspec.added_iff.mpr hnew)] at hrun
  exact ⟨_, hrun⟩

/-- Two blocks on a genesis block, one of them with a payment, after which the genesis
block is refused. -/
theorem storedRun_represents_fork :
    ∃ stored bc, stored = [minedBlock 1 [] [], minedBlock 2 (minedBlock 1 [] []) [],
        minedBlock 3 (minedBlock 1 [] []) [payment 1 100 0]] ∧
      StoredRun transparent stored bc ∧ Represents stored bc ∧
        ∃ r, blockchainAddBlock bc (minedBlock 1 [] []) = .ok r ∧ r.added = false ∧
          r.blockchain = bc := by
  have hne : minedBlock 1 [] [] ≠ [] := by decide +kernel
  obtain ⟨bc₁, run₁⟩ := StoredRun.start.mine (.inl rfl) 1 [] hne (by decide +kernel)
  obtain ⟨bc₂, run₂⟩ := run₁.mine (.inr (List.mem_singleton_self _)) 2 []
    (by decide +kernel) (by decide +kernel)
  obtain ⟨bc₃, run₃⟩ := run₂.mine (.inr List.mem_cons_self) 3
    [payment 1 100 0] (by decide +kernel) (by decide +kernel)
  obtain ⟨hrep, hcalls⟩ := storedRun_represents run₃
  obtain ⟨r, hr, -⟩ := blockchainAddBlock_spec run₃.builtRun.tree
    (addable_minedBlock (.inl rfl) hne)
  obtain ⟨hadded, hsame⟩ := hcalls _ r hr
  have hrefused : r.added = false := by
    rw [← Bool.not_eq_true, hadded]
    intro hfresh
    exact hfresh _ List.mem_cons_self rfl
  exact ⟨_, bc₃, rfl, run₃, hrep, r, hr, hrefused, hsame hrefused⟩

theorem NodeRun.mine {stored : List BlockPtr} {bc : Blockchain} {prev : BlockPtr}
    (run : NodeRun transparent bc) (built : BuiltRun transparent stored bc)
    (hprev : prev = [] ∨ prev ∈ stored) (now : UInt64) (txns : List Transaction)
    (hne : minedBlock now prev txns ≠ [])
    (hnew : blockGetHash (minedBlock now prev txns) ∉ stored.map blockGetHash) :
    ∃ bc', NodeRun transparent bc' ∧
      BuiltRun transparent (stored ++ [minedBlock now prev txns]) bc' := by
  have hadd := addable_minedBlock hprev hne
  have hparent : Built transparent prev := by
    rcases hprev with rfl | hmem
    · exact .null
    · exact built.built prev hmem
  obtain ⟨r, hr, hspec⟩ := blockchainAddBlock_spec built.tree hadd
  have hbuilt := built.add (built_minedBlock hparent now txns) hadd hr
  rw [if_pos (hspec.added_iff.mpr hnew)] at hbuilt
  rw [← stored_iff built.tree] at hprev
  exact ⟨_, run.create hprev (blockCreate_eq_minedBlock hne) hne hr, hbuilt⟩

end Whosecoin.Representation

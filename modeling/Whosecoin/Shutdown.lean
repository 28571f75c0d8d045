import Whosecoin.HashTables
import Whosecoin.Ownership

/-!
What `main` frees behind the event loop, and which runs of a node leave every object to
be freed once.
-/

namespace Whosecoin.Shutdown

open Library.Outcomes
open Library.Maps
open Library.Dictionaries (Entry)
open Library.Traces
open Cryptography
open Accounts
open Blockchains
open BlockTree
open HashMaps
open HashTables hiding Agrees
open NodeRuns
open Ownership

section Destructors

def transactionDestroy (o : Objects) (obj : Object) : Objects :=
  { o with destroyed := o.destroyed ++ [obj] }

/-- `list_destroy` on a list of transactions. -/
def listDestroy (o : Objects) (list : List Object) : Objects :=
  list.foldl transactionDestroy o

/-- `block_destroy` on the transactions of a stored block. -/
def blockDestroy (o : Objects) (block : BlockPtr) : Objects :=
  listDestroy o (o.transactions block)

/-- `blockchain_destroy`. The map of the transactions has no destructors. -/
def blockchainDestroy (tables : Tables) (o : Objects) : Objects :=
  mapDestroy tables.blocks blockDestroy o

def poolDestroy (o : Objects) : Objects :=
  listDestroy o o.pool

/-- What `main` destroys behind the event loop. -/
def shutdown (tables : Tables) (o : Objects) : Objects :=
  poolDestroy (blockchainDestroy tables o)

end Destructors

section Freeing

/-- The hash tables of a blockchain. -/
structure Tabled (tables : Tables) (bc : Blockchain) : Prop where
  holds : Holds tables bc
  wellFormed : WellFormed hash compare tables.blocks

/-- Every transaction that has been allocated is freed once when the node is shut down,
however its tables are arranged. -/
def FreedOnce (w : World) : Prop :=
  ∀ tables, Tabled tables w.store.blockchain →
    ((shutdown tables w.objects).destroyed.map Object.id).Perm (List.range w.objects.fresh)

/-- The step does not drop pending transactions because the creation of a block fails. -/
def Keeps (w : World) : ObjectEvent → Prop
  | .node (.failed _ _) => w.store.pool.list = []
  | _ => True

/-- The step neither abandons a block with transactions nor drops pending ones. -/
def Gentle (S : Sodium) (pk : PublicKey) (sk : SecretKey) (w : World) (event : ObjectEvent) :
    Prop :=
  Safe S pk sk w event ∧ Keeps w event

end Freeing

section Order

variable {tables : Tables} {bc : Blockchain} {stored : List BlockPtr} {o : Objects}

theorem listDestroy_eq (o : Objects) (list : List Object) :
    listDestroy o list = { o with destroyed := o.destroyed ++ list } := by
  induction list generalizing o with
  | nil => simp [listDestroy]
  | cons obj list ih =>
      rw [listDestroy, List.foldl_cons]
      refine (ih (transactionDestroy o obj)).trans ?_
      simp [transactionDestroy]

theorem foldl_blockDestroy (o : Objects) (blocks : List BlockPtr) :
    blocks.foldl blockDestroy o =
      { o with destroyed := o.destroyed ++ blocks.flatMap o.transactions } := by
  induction blocks generalizing o with
  | nil => simp
  | cons block blocks ih =>
      have htransactions : (blockDestroy o block).transactions = o.transactions := by
        funext other
        rw [blockDestroy, listDestroy_eq]
        rfl
      rw [List.foldl_cons, ih, htransactions, blockDestroy, listDestroy_eq]
      simp

theorem destroyed_shutdown (tables : Tables) (o : Objects) :
    (shutdown tables o).destroyed = o.destroyed ++
      ((entriesOf tables.blocks).map Entry.val).flatMap o.transactions ++ o.pool := by
  rw [shutdown, poolDestroy, listDestroy_eq, blockchainDestroy, mapDestroy_eq, foldl_blockDestroy]

theorem Tabled.perm_stored (h : Tabled tables bc) (tree : Tree stored bc) :
    ((entriesOf tables.blocks).map Entry.val).Perm stored := by
  have hkey : ∀ e ∈ entriesOf tables.blocks, e.val ∈ stored ∧
    blockGetHash e.val = e.key := by
    intro e he
    have hget := h.wellFormed.mapGet_of_mem equivalence_compare he
    rw [h.holds.blocks] at hget
    have hmem := Map.mem_of_get_eq_some hget
    rw [tree.blocks_eq] at hmem
    obtain ⟨block, hblock, heq⟩ := List.mem_map.mp hmem
    rw [Prod.mk.injEq] at heq
    rw [← heq.1, ← heq.2]
    exact ⟨hblock, rfl⟩
  have hnodup : ((entriesOf tables.blocks).map Entry.val).Nodup := by
    rw [List.Nodup, List.pairwise_map]
    apply (h.wellFormed.distinct_entriesOf respects_hash).imp_of_mem
    intro e e' he he' hdistinct hval
    apply hdistinct
    rw [same_iff, ← (hkey e he).2, ← (hkey e' he').2, hval]
  rw [List.perm_ext_iff_of_nodup hnodup tree.hashes_nodup.of_map]
  intro block
  constructor
  · intro hblock
    obtain ⟨e, he, rfl⟩ := List.mem_map.mp hblock
    exact (hkey e he).1
  · intro hblock
    have hget := tree.get_hash hblock
    rw [← h.holds.blocks] at hget
    have hsome : mapGet hash compare tables.blocks (blockGetHash block) ≠ none := by
      rw [hget]
      exact Option.some_ne_none _
    obtain ⟨e, he, hsame⟩ := (h.wellFormed.mapGet_ne_none respects_hash _).mp hsome
    rw [same_iff] at hsame
    have hval := h.wellFormed.mapGet_of_mem equivalence_compare he
    rw [hsame, hget, Option.some.injEq] at hval
    exact List.mem_map.mpr ⟨e, he, hval.symm⟩

theorem keys_of_agrees {store : Store} (hagrees : Agrees o store)
    (tree : Tree stored store.blockchain) : o.blocks.map Prod.fst = stored := by
  have hblocks := congrArg (List.map Prod.fst) hagrees.blocks_eq
  rw [tree.blocks_eq] at hblocks
  simpa [Function.comp_def, contents] using hblocks

theorem flatMap_transactions (hnodup : (o.blocks.map Prod.fst).Nodup) :
    (o.blocks.map Prod.fst).flatMap o.transactions = o.blocks.flatMap Prod.snd := by
  rw [List.flatMap_map]
  apply List.flatMap_congr
  intro e he
  rw [Objects.transactions, Map.get_of_mem hnodup he]
  rfl

theorem shutdown_perm {store : Store} (htabled : Tabled tables store.blockchain)
    (hagrees : Agrees o store) (tree : Tree stored store.blockchain) :
    (shutdown tables o).destroyed.Perm (o.all []) := by
  have hkeys := keys_of_agrees hagrees tree
  have hnodup : (o.blocks.map Prod.fst).Nodup := by
    rw [hkeys]
    exact tree.hashes_nodup.of_map
  have hblocks : (((entriesOf tables.blocks).map Entry.val).flatMap o.transactions).Perm
      (o.blocks.flatMap Prod.snd) := by
    rw [← flatMap_transactions hnodup, hkeys]
    exact (htabled.perm_stored tree).flatMap_right _
  rw [destroyed_shutdown, Objects.all, List.append_nil]
  calc
    _ = o.destroyed ++ (((entriesOf tables.blocks).map Entry.val).flatMap o.transactions ++
        o.pool) := List.append_assoc _ _ _
    List.Perm _ (o.destroyed ++ (o.blocks.flatMap Prod.snd ++ o.pool)) :=
      (hblocks.append_right _).append_left _
    List.Perm _ (o.destroyed ++ (o.pool ++ o.blocks.flatMap Prod.snd)) :=
      List.perm_append_comm.append_left _
    List.Perm _ _ := List.perm_append_comm

end Order

section Existence

variable {S : Sodium} {pk : PublicKey} {sk : SecretKey} {tables : Tables} {bc : Blockchain}
  {block : BlockPtr}

theorem blocks_extendIfLess (tables : Tables) (block rival : BlockPtr) :
    (tablesExtendIfLess tables block rival).tables.blocks = tables.blocks := by
  rw [tablesExtendIfLess]
  split_ifs
  · rfl
  · rfl

theorem wellFormed_addBlock {r : TablesResult} (h : WellFormed hash compare tables.blocks)
    (hadd : tablesAddBlock tables block = .ok r) : WellFormed hash compare r.tables.blocks := by
  rw [tablesAddBlock.eq_def] at hadd
  cases hget : mapGet hash compare tables.blocks (blockGetHash block) with
  | some old =>
      simp only [hget, Except.ok.injEq] at hadd
      rw [← hadd]
      exact h
  | none =>
      rcases block with _ | ⟨data, prev⟩
      · simp only [hget, reduceCtorEq] at hadd
      have hstore : WellFormed hash compare (tablesStore tables data prev).blocks :=
        h.mapSet equivalence_compare data.hash (data :: prev)
      have hless : ∀ rival, Except.ok (tablesExtendIfLess (tablesStore tables data prev)
          (data :: prev) rival) = (.ok r : Outcome TablesResult) →
          WellFormed hash compare r.tables.blocks := by
        intro rival hresult
        cases hresult
        rw [blocks_extendIfLess]
        exact hstore
      simp only [hget] at hadd
      by_cases hextends : prev = tables.principal
      · rw [if_pos hextends] at hadd
        cases hadd
        exact hstore
      rw [if_neg hextends] at hadd
      rcases hprincipal : tables.principal with _ | ⟨first, rest⟩
      · simp only [hprincipal, reduceCtorEq] at hadd
      simp only [hprincipal] at hadd
      by_cases hsibling : prev = rest
      · rw [if_pos hsibling] at hadd
        exact hless _ hadd
      rw [if_neg hsibling] at hadd
      by_cases hfork : prev = (walkToPrev prev (first :: rest) []).1
      · rw [if_pos hfork] at hadd
        cases hrival : (walkToPrev prev (first :: rest) []).2 with
        | nil => simp only [hrival, reduceCtorEq] at hadd
        | cons rival later =>
            simp only [hrival] at hadd
            exact hless _ hadd
      · rw [if_neg hfork] at hadd
        cases hadd
        exact hstore

theorem Tabled.addBlock {r : AddResult} (h : Tabled tables bc)
    (hadd : blockchainAddBlock bc block = .ok r) : ∃ tables', Tabled tables' r.blockchain := by
  have hmatches := h.holds.addBlock block
  rw [hadd] at hmatches
  generalize hresult : tablesAddBlock tables block = result at hmatches
  cases hmatches with
  | @returns tables' _ added extended holds =>
      exact ⟨tables', holds, wellFormed_addBlock h.wellFormed hresult⟩

theorem tabled_create : Tabled tablesCreate blockchainCreate :=
  ⟨holds_tablesCreate, wellFormed_mapCreate⟩

theorem exists_tabled_step {store store' : Store} {event : Event}
    (hstep : Step S pk sk store event store') (h : ∃ tables, Tabled tables store.blockchain) :
    ∃ tables, Tabled tables store'.blockchain := by
  obtain ⟨tables, h⟩ := h
  cases hstep with
  | pending hgenuine => exact ⟨tables, h⟩
  | accept hblock hne hadd =>
      obtain ⟨r, hr, -, rfl⟩ := addBlock_ok hadd
      exact h.addBlock hr
  | create hmay hblock hne hadd =>
      obtain ⟨r, hr, -, rfl⟩ := addBlock_ok hadd
      exact h.addBlock hr
  | fail hmay hblock => exact ⟨tables, h⟩

theorem exists_tabled_run {events : List Event} {store : Store} (run : Run S pk sk events store) :
    ∃ tables, Tabled tables store.blockchain := by
  induction run with
  | start hblock hne hadd =>
      obtain ⟨r, hr, -, rfl⟩ := addBlock_ok hadd
      exact tabled_create.addBlock hr
  | step run hstep ih => exact exists_tabled_step hstep ih

theorem exists_tabled {trace : List (ObjectEvent × World)} (h : WorldTrace S pk sk trace) :
    ∀ x ∈ trace, ∃ tables, Tabled tables x.2.store.blockchain := by
  induction h with
  | single hstart =>
      obtain ⟨genesis, -, run, -⟩ := hstart
      rw [List.forall_mem_singleton]
      exact exists_tabled_run run
  | cons trace hstep ih =>
      rw [List.forall_mem_cons]
      refine ⟨?_, ih⟩
      have hbefore := ih _ List.mem_cons_self
      cases hstep with
      | node hstep hafter => exact exists_tabled_step hstep hbefore
      | rejected hafter => exact hbefore

end Existence

section Counting

variable {o o' : Objects} {bc : Blockchain} {stored : List BlockPtr}

/-- The index has only transactions of stored blocks. -/
def Indexed (o : Objects) : Prop :=
  ∀ e ∈ o.index, ∃ block ∈ o.blocks, e.2 ∈ block.2

/-- How many objects are held or freed. -/
def count (o : Objects) : Nat :=
  (o.all []).length

theorem count_eq (o : Objects) :
    count o = o.pool.length + (o.blocks.flatMap Prod.snd).length + o.destroyed.length := by
  simp only [count, Objects.all, List.append_nil, List.length_append]

/-- A function has put `n` objects somewhere, and has lost none. -/
structure Grows (o : Objects) (n : Nat) (o' : Objects) : Prop where
  fresh : o'.fresh = o.fresh
  count_le : count o + n ≤ count o'
  indexed : Indexed o → Indexed o'

theorem Grows.refl (o : Objects) : Grows o 0 o :=
  ⟨rfl, le_refl _, id⟩

theorem Grows.trans {o₁ o₂ o₃ : Objects} {m n : Nat} (h : Grows o₁ m o₂)
    (h' : Grows o₂ n o₃) :
    Grows o₁ (m + n) o₃ where
  fresh := h'.fresh.trans h.fresh
  count_le := by
    have hfirst := h.count_le
    have hsecond := h'.count_le
    omega
  indexed := fun hindexed => h'.indexed (h.indexed hindexed)

theorem Grows.weaken {m n : Nat} (h : Grows o n o') (hle : m ≤ n) : Grows o m o' where
  fresh := h.fresh
  count_le := (Nat.add_le_add_left hle _).trans h.count_le
  indexed := h.indexed

theorem grows_poolAdd (o : Objects) (obj : Object) : Grows o 1 (o.poolAdd obj) := by
  obtain ⟨hblocks, hindex⟩ := poolAdd_frame o obj
  have hindexed : Indexed o → Indexed (o.poolAdd obj) := by
    rw [Indexed, Indexed, hblocks, hindex]
    exact id
  refine ⟨?_, ?_, hindexed⟩
  · rw [Objects.poolAdd]
    split_ifs
    · rfl
    · rfl
  · rw [Objects.poolAdd]
    split_ifs
    · simp only [count_eq, List.length_append, List.length_singleton]
      omega
    · simp only [count_eq, List.length_append, List.length_singleton]
      omega

theorem grows_foldl (o : Objects) (objects : List Object) :
    Grows o objects.length (objects.foldl Objects.poolAdd o) := by
  induction objects generalizing o with
  | nil => exact Grows.refl o
  | cons obj objects ih =>
      rw [List.length_cons, Nat.add_comm]
      exact (grows_poolAdd o obj).trans (ih (o.poolAdd obj))

theorem grows_onExtended (block prev : BlockPtr) (o : Objects) :
    Grows o 0 (o.onExtended block prev) := by
  induction prev generalizing o with
  | nil => exact Grows.refl o
  | cons data earlier ih =>
      rw [Objects.onExtended]
      split_ifs
      · exact Grows.refl o
      · exact ((grows_foldl o _).trans (ih _)).weaken (Nat.zero_le _)

theorem grows_calls (calls : List (BlockPtr × BlockPtr)) (o : Objects) :
    Grows o 0 (calls.foldl (fun o call => o.onExtended call.2 call.1) o) := by
  induction calls generalizing o with
  | nil => exact Grows.refl o
  | cons call calls ih => exact (grows_onExtended call.2 call.1 o).trans (ih _)

theorem grows_blockDestroy (o : Objects) (objects : List Object) :
    Grows o objects.length (o.blockDestroy objects) where
  fresh := rfl
  count_le := by
    simp only [count_eq, Objects.blockDestroy, List.length_append]
    omega
  indexed := id

theorem grows_storeBlock {block : BlockPtr} (hnew : o.blocks.get block = none)
    (objects : List Object) : Grows o objects.length (o.storeBlock block objects) := by
  have hblocks : (o.storeBlock block objects).blocks = o.blocks ++ [(block, objects)] :=
    Map.set_of_get_eq_none objects hnew
  refine ⟨rfl, ?_, ?_⟩
  · rw [count_eq, count_eq, hblocks, List.flatMap_append, List.length_append,
      List.flatMap_singleton]
    change _ ≤ o.pool.length + (_ + objects.length) + o.destroyed.length
    omega
  · intro hindexed
    rw [Indexed, hblocks]
    apply indexed_foldl
    · intro e he
      obtain ⟨held, hheld, hmem⟩ := hindexed e he
      exact ⟨held, List.mem_append_left _ hheld, hmem⟩
    · intro obj hobj
      exact ⟨(block, objects), List.mem_append_right _ (List.mem_singleton_self _), hobj⟩

theorem grows_addBlock (tree : Tree stored bc) {block : BlockPtr} {objects : List Object}
    (hnone : ∀ block, ¬ Representation.Stored bc block → o.blocks.get block = none)
    (hcall : o.addBlock bc block objects = .ok o') : Grows o objects.length o' := by
  rw [Objects.addBlock, bind_eq_ok] at hcall
  obtain ⟨r, hr, hcall⟩ := hcall
  rcases blockchainAddBlock_cases hr with ⟨-, rfl⟩ | ⟨data, prev, rfl, hnew, hstored⟩
  · cases hcall
    exact grows_blockDestroy o objects
  · rw [if_pos hstored.added] at hcall
    cases hcall
    have hfresh : ¬ Representation.Stored bc (data :: prev) := by
      rw [Representation.stored_iff tree]
      intro hmem
      exact (tree.get_eq_none_iff _).mp hnew (List.mem_map_of_mem hmem)
    exact (grows_storeBlock (hnone _ hfresh) objects).trans (grows_calls r.extended _)

variable {w : World} {event : ObjectEvent} {objects : Objects}

theorem length_allocate (o : Objects) (txns : List Transactions.Transaction) :
    (o.allocate txns).1.length = txns.length := by
  rw [← List.length_map (f := Object.txn), txns_allocate]

/-- Unless pending transactions are dropped, as many objects stay as there have been. -/
theorem grows_after (tree : Tree stored w.store.blockchain) (hagrees : Agrees w.objects w.store)
    (hafter : w.objects.after w.store.blockchain event = .ok objects) :
    (Indexed w.objects → Indexed objects) ∧
      (Keeps w event → w.objects.fresh ≤ count w.objects →
        objects.fresh ≤ count objects) := by
  have hnone : ∀ block, ¬ Representation.Stored w.store.blockchain block →
      w.objects.blocks.get block = none := fun block => hagrees.get_eq_none
  -- a function that places all that has been allocated for it
  have hplace : ∀ txns, Grows (w.objects.allocate txns).2 (w.objects.allocate txns).1.length
      objects → (Indexed w.objects → Indexed objects) ∧
        (Keeps w event → w.objects.fresh ≤ count w.objects →
          objects.fresh ≤ count objects) := by
    intro txns hgrows
    refine ⟨hgrows.indexed, ?_⟩
    intro _ hle
    have hcount := hgrows.count_le
    rw [length_allocate] at hcount
    rw [hgrows.fresh]
    change w.objects.fresh + txns.length ≤ _
    change count w.objects + txns.length ≤ _ at hcount
    omega
  cases event with
  | rejected txns =>
      cases hafter
      exact hplace txns (grows_blockDestroy _ _)
  | node event =>
      cases event with
      | pending txn =>
          cases hafter
          exact hplace [txn] (grows_foldl _ _)
      | accepted block added =>
          exact hplace (transactionsOf block) (grows_addBlock tree hnone hafter)
      | created prev now block added =>
          have hgrows := @grows_addBlock { w.objects with pool := [] } _ _ _ tree _ _ hnone hafter
          refine ⟨hgrows.indexed, ?_⟩
          intro _ hle
          have hcount := hgrows.count_le
          rw [hgrows.fresh]
          rw [count_eq] at hle hcount
          change 0 + (w.objects.blocks.flatMap Prod.snd).length + w.objects.destroyed.length +
            w.objects.pool.length ≤ _ at hcount
          change w.objects.fresh ≤ _
          omega
      | failed prev now =>
          cases hafter
          refine ⟨id, ?_⟩
          intro hkeeps hle
          have hempty : w.objects.pool = [] := by
            rw [← List.map_eq_nil_iff, hagrees.pool_eq]
            exact hkeeps
          rw [count_eq, hempty] at hle
          rw [count_eq]
          exact hle

end Counting

section Runs

variable {S : Sodium} {pk : PublicKey} {sk : SecretKey} {w w' : World} {event : ObjectEvent}

theorem perm_range_iff {l : List Nat} {n : Nat} :
    l.Perm (List.range n) ↔ l.Nodup ∧ (∀ i ∈ l, i < n) ∧ n ≤ l.length := by
  constructor
  · intro hperm
    refine ⟨hperm.nodup_iff.mpr List.nodup_range, ?_, ?_⟩
    · intro i hi
      exact List.mem_range.mp (hperm.mem_iff.mp hi)
    · rw [hperm.length_eq, List.length_range]
  · rintro ⟨hnodup, hlt, hle⟩
    have hsub : l.Subperm (List.range n) := by
      apply hnodup.subperm
      intro i hi
      exact List.mem_range.mpr (hlt i hi)
    apply hsub.perm_of_length_le
    rwa [List.length_range]

/-- What there is when the node is shut down is everything that has been allocated, once. -/
theorem freedOnce_iff (h : Consistent S w) (htables : ∃ tables, Tabled tables w.store.blockchain)
    (hindexed : Indexed w.objects) : FreedOnce w ↔
      Linear w.objects [] ∧ w.objects.fresh ≤ count w.objects := by
  obtain ⟨stored, built⟩ := h.run.builtRun
  have hperm : FreedOnce w ↔
      ((w.objects.all []).map Object.id).Perm (List.range w.objects.fresh) := by
    constructor
    · intro hfreed
      obtain ⟨tables, htabled⟩ := htables
      have hshutdown := shutdown_perm htabled h.agrees built.tree
      exact (hshutdown.map Object.id).symm.trans (hfreed tables htabled)
    · intro hall tables htabled
      exact ((shutdown_perm htabled h.agrees built.tree).map Object.id).trans hall
  rw [hperm, perm_range_iff, List.length_map]
  constructor
  · rintro ⟨hnodup, hlt, hle⟩
    exact ⟨⟨hnodup, fun obj hobj => hlt _ (List.mem_map_of_mem hobj), hindexed⟩, hle⟩
  · rintro ⟨hlinear, hle⟩
    refine ⟨hlinear.nodup, ?_, hle⟩
    intro id hid
    obtain ⟨obj, hobj, rfl⟩ := List.mem_map.mp hid
    exact hlinear.lt obj hobj

theorem count_le_of_linear {o : Objects} (h : Linear o []) : count o ≤ o.fresh := by
  have hsub : ((o.all []).map Object.id).Subperm (List.range o.fresh) := by
    apply h.nodup.subperm
    intro id hid
    obtain ⟨obj, hobj, rfl⟩ := List.mem_map.mp hid
    exact List.mem_range.mpr (h.lt obj hobj)
  have hlength := hsub.length_le
  rw [List.length_map, List.length_range] at hlength
  exact hlength

theorem keeps_of_count (h : Consistent S w) (hlinear : Linear w.objects [])
    (hstep : WorldStep S pk sk w event w') (hle : w'.objects.fresh ≤ count w'.objects) :
    Keeps w event := by
  have hcount := count_le_of_linear hlinear
  cases hstep with
  | rejected hafter => trivial
  | @node event store objects hstep hafter =>
      cases event with
      | pending txn => trivial
      | accepted block added => trivial
      | created prev now block added => trivial
      | failed prev now =>
          cases hafter
          change w.objects.fresh ≤ count _ at hle
          rw [count_eq] at hcount hle
          change _ ≤ 0 + (w.objects.blocks.flatMap Prod.snd).length + w.objects.destroyed.length
            at hle
          have hempty : w.objects.pool.length = 0 := by omega
          rw [Keeps, ← h.agrees.pool_eq, List.map_eq_nil_iff]
          exact List.eq_nil_of_length_eq_zero hempty

theorem WorldStep.grows (h : Consistent S w) (hstep : WorldStep S pk sk w event w') :
    (Indexed w.objects → Indexed w'.objects) ∧
      (Keeps w event → w.objects.fresh ≤ count w.objects →
        w'.objects.fresh ≤ count w'.objects) := by
  obtain ⟨stored, built⟩ := h.run.builtRun
  cases hstep with
  | node hstep hafter => exact grows_after built.tree h.agrees hafter
  | rejected hafter => exact grows_after built.tree h.agrees hafter

theorem start_grows {genesis : Event} {o : Objects}
    (hafter : Objects.empty.after blockchainCreate (.node genesis) = .ok o) :
    Indexed o ∧ o.fresh ≤ count o := by
  have hagrees : Agrees Objects.empty ⟨blockchainCreate, Pools.poolCreate⟩ := ⟨rfl, rfl⟩
  obtain ⟨hindexed, hcount⟩ :=
    @grows_after [] ⟨⟨blockchainCreate, Pools.poolCreate⟩, .empty⟩ _ _
    tree_blockchainCreate hagrees hafter
  refine ⟨hindexed fun e he => absurd he List.not_mem_nil, hcount ?_ (Nat.le_refl 0)⟩
  cases genesis <;> trivial

theorem indexed_of_trace {earlier : List (ObjectEvent × World)}
    (trace : WorldTrace S pk sk ((event, w) :: earlier)) : Indexed w.objects := by
  have hinvariant : Consistent S w ∧ Indexed w.objects := by
    refine @Trace.invariant _ _ _ _ (fun w => Consistent S w ∧
      Indexed w.objects) _ _ _ trace ?_ ?_
    · rintro event w ⟨genesis, rfl, run, hafter⟩
      exact ⟨(start_spec run hafter).1, (start_grows hafter).1⟩
    · rintro w event w' ⟨hconsistent, hindexed⟩ hstep
      exact ⟨(hstep.spec hconsistent).1, (WorldStep.grows hconsistent hstep).1 hindexed⟩
  exact hinvariant.2

/-- Whenever a node is shut down, every transaction that it has allocated is freed exactly
once, as long as no reorganisation abandons a block with transactions and no pending ones are
dropped when the creation of a block fails. -/
theorem freed_once_iff_gentle {trace : List (ObjectEvent × World)}
    (h : WorldTrace S pk sk trace) :
    (∀ x ∈ trace, ∃ tables, Tabled tables x.2.store.blockchain) ∧
      (Throughout (fun t => ∀ x ∈ t.head?, FreedOnce x.2) trace ↔
        Guarded (Gentle S pk sk) trace) := by
  refine ⟨exists_tabled h, throughout_iff_guarded ?_ ?_ h⟩
  · rintro event w ⟨genesis, rfl, run, hafter⟩ x hx
    cases hx
    obtain ⟨hconsistent, hlinear⟩ := start_spec run hafter
    obtain ⟨hindexed, hcount⟩ := start_grows hafter
    exact (freedOnce_iff hconsistent (exists_tabled_run run) hindexed).mpr ⟨hlinear, hcount⟩
  · intro event w earlier event' w' trace hstep _ hfreed
    have hconsistent := consistent_of_trace trace
    have hindexed := indexed_of_trace trace
    have htrace' := trace.cons hstep
    obtain ⟨hconsistent', hkeep, hbreak⟩ := hstep.spec hconsistent
    obtain ⟨hindexed', hgrows⟩ := WorldStep.grows hconsistent hstep
    have hbefore := (freedOnce_iff hconsistent (exists_tabled trace _ List.mem_cons_self)
      hindexed).mp (hfreed _ rfl)
    have hafter := freedOnce_iff hconsistent' (exists_tabled htrace' _ List.mem_cons_self)
      (hindexed' hindexed)
    constructor
    · intro hfreed'
      obtain ⟨hlinear', hle⟩ := hafter.mp (hfreed' _ rfl)
      exact ⟨hbreak hlinear'.owned, keeps_of_count hconsistent hbefore.1 hstep hle⟩
    · rintro ⟨hsafe, hkeeps⟩ x hx
      cases hx
      exact hafter.mpr ⟨hkeep hbefore.1 hsafe, hgrows hkeeps hbefore.2⟩

/-- A node that mines a payment on its own genesis block. -/
theorem freed_once_iff_gentle_payment : ∃ first second trace,
    trace.map Prod.fst = [ObjectEvent.node (.created [first] 2 [second, first] true),
      .node (.pending PendingTransactions.allMoney), .node (.created [] 1 [first] true)] ∧
    (Throughout (fun t => ∀ x ∈ t.head?, FreedOnce x.2) trace ↔
      Guarded (Gentle transparent Chains.minerKey Chains.minerSecret) trace) := by
  obtain ⟨first, second, h⟩ := PendingTransactions.exists_spent
  obtain ⟨event, w, earlier, trace, -, hevents⟩ := exists_worldTrace h.run
  exact ⟨first, second, _, hevents, (freed_once_iff_gentle trace).2⟩

end Runs

end Whosecoin.Shutdown

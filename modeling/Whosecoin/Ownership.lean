import Whosecoin.PendingTransactions

/-!
The transactions as objects with an address each. The object level follows the pool and
the blocks by value, and says which list owns which object.
-/

namespace Whosecoin.Ownership

open Library.Outcomes
open Library.Maps
open Library.Traces
open Cryptography
open Transactions
open Accounts
open Blocks
open Blockchains
open BlockTree
open PrincipalChain
open Pools
open Reorganisations
open NodeRuns
open PendingTransactions

/-- An allocated `transaction_t` with its number. -/
structure Object where
  id : Nat
  txn : Transaction

/-- The transaction objects that the pool, the stored blocks and the index refer to,
and those that have been destroyed. `fresh` is the number of the next object. -/
structure Objects where
  pool : List Object
  blocks : Map BlockPtr (List Object)
  index : Map Hash Object
  destroyed : List Object
  fresh : Nat

def transactionsOf : BlockPtr → List Transaction
  | [] => []
  | data :: _ => data.transactions

namespace Objects

def empty : Objects where
  pool := []
  blocks := []
  index := []
  destroyed := []
  fresh := 0

/-- One new object for each transaction, with the next free addresses. -/
def allocate (o : Objects) (txns : List Transaction) : List Object × Objects :=
  ((txns.zipIdx o.fresh).map fun item => ⟨item.2, item.1⟩,
    { o with fresh := o.fresh + txns.length })

/-- `pool_add`. -/
def poolAdd (o : Objects) (obj : Object) : Objects :=
  let i := o.pool.findIdx fun other => transactionCompare other.txn obj.txn = 0
  if i ≠ o.pool.length then { o with destroyed := o.destroyed ++ [obj] }
  else { o with pool := o.pool ++ [obj] }

/-- A block destroys its transactions. -/
def blockDestroy (o : Objects) (transactions : List Object) : Objects :=
  { o with destroyed := o.destroyed ++ transactions }

/-- The block keeps its transactions, and the index points to them. -/
def storeBlock (o : Objects) (block : BlockPtr) (transactions : List Object) : Objects :=
  { o with
    blocks := o.blocks.set block transactions
    index := transactions.foldl (fun index obj => index.set obj.txn.hash obj) o.index }

/-- The list `transactions` of a stored block. -/
def transactions (o : Objects) (block : BlockPtr) : List Object :=
  (o.blocks.get block).getD []

/-- The loop of `on_extended`. -/
def onExtended (block : BlockPtr) : (prev : BlockPtr) → Objects → Objects
  | [], o => o
  | data :: earlier, o =>
      if blockHasAncestor block (data :: earlier) then o
      else onExtended block earlier ((o.transactions (data :: earlier)).foldl poolAdd o)

/-- `blockchain_add_block`. -/
def addBlock (o : Objects) (bc : Blockchain) (block : BlockPtr) (transactions : List Object) :
    Outcome Objects := do
  let r ← blockchainAddBlock bc block
  if r.added then
    return r.extended.foldl (fun o call => onExtended call.2 call.1 o)
      (o.storeBlock block transactions)
  else return o.blockDestroy transactions

end Objects

/-- A step of the node, or a message whose transactions are created and destroyed
again because `block_create_from_tuple` rejects the block. -/
inductive ObjectEvent where
  | node (event : Event)
  | rejected (txns : List Transaction)

/-- What happens to the objects. A failed `block_create` drops its list. -/
def Objects.after (o : Objects) (bc : Blockchain) : ObjectEvent → Outcome Objects
  | .node (.pending txn) =>
      let (objects, o) := o.allocate [txn]
      .ok (objects.foldl poolAdd o)
  | .node (.accepted block _) =>
      let (objects, o) := o.allocate (transactionsOf block)
      o.addBlock bc block objects
  | .node (.created _ _ block _) => addBlock { o with pool := [] } bc block o.pool
  | .node (.failed _ _) => .ok { o with pool := [] }
  | .rejected txns =>
      let (objects, o) := o.allocate txns
      .ok (o.blockDestroy objects)

/-- Every object is held by at most one of the pool and the stored blocks, none has
been destroyed twice, and no destroyed one is referenced. -/
structure Owned (o : Objects) : Prop where
  held_once :
    (o.pool.map Object.id :: o.blocks.map fun e => e.2.map Object.id).Pairwise List.Disjoint
  destroyed_once : (o.destroyed.map Object.id).Nodup
  pool_alive : ∀ obj ∈ o.destroyed, obj.id ∉ o.pool.map Object.id
  blocks_alive : ∀ obj ∈ o.destroyed, ∀ e ∈ o.blocks, obj.id ∉ e.2.map Object.id
  index_alive : ∀ obj ∈ o.destroyed, ∀ e ∈ o.index, e.2.id ≠ obj.id

section Linear

/-- All objects, with those that a function has in its hands. -/
def Objects.all (o : Objects) (loose : List Object) : List Object :=
  o.pool ++ o.blocks.flatMap Prod.snd ++ o.destroyed ++ loose

/-- No object is in two places. -/
structure Linear (o : Objects) (loose : List Object) : Prop where
  nodup : ((o.all loose).map Object.id).Nodup
  lt : ∀ obj ∈ o.all loose, obj.id < o.fresh
  indexed : ∀ e ∈ o.index, ∃ block ∈ o.blocks, e.2 ∈ block.2

variable {o o' : Objects} {loose loose' : List Object}

theorem Linear.of_perm (h : Linear o loose) (hperm : (o'.all loose').Perm (o.all loose))
    (hfresh : o'.fresh = o.fresh)
    (hindexed : ∀ e ∈ o'.index, ∃ block ∈ o'.blocks, e.2 ∈ block.2) :
    Linear o' loose' where
  nodup := (hperm.map Object.id).nodup_iff.mpr h.nodup
  lt := by
    intro obj hobj
    rw [hfresh]
    exact h.lt obj (hperm.mem_iff.mp hobj)
  indexed := hindexed

theorem linear_empty : Linear Objects.empty [] where
  nodup := List.nodup_nil
  lt := by
    intro obj hobj
    cases hobj
  indexed := by
    intro e he
    cases he

theorem ids_allocate (o : Objects) (txns : List Transaction) :
    (o.allocate txns).1.map Object.id = List.range' o.fresh txns.length := by
  rw [Objects.allocate, List.map_map]
  exact List.zipIdx_map_snd _ _

theorem txns_allocate (o : Objects) (txns : List Transaction) :
    (o.allocate txns).1.map Object.txn = txns := by
  rw [Objects.allocate, List.map_map]
  exact List.zipIdx_map_fst _ _

theorem Linear.allocate (h : Linear o []) (txns : List Transaction) :
    Linear (o.allocate txns).2 (o.allocate txns).1 where
  nodup := by
    have hids := ids_allocate o txns
    have hall : ((o.allocate txns).2.all (o.allocate txns).1).map Object.id =
        (o.all []).map Object.id ++ List.range' o.fresh txns.length := by
      rw [← hids, ← List.map_append, Objects.all, Objects.all, List.append_nil]
      rfl
    rw [hall, List.nodup_append]
    refine ⟨h.nodup, List.nodup_range', ?_⟩
    intro id hid id' hid' heq
    obtain ⟨obj, hobj, rfl⟩ := List.mem_map.mp hid
    have hlt := h.lt obj hobj
    rw [List.mem_range'_1] at hid'
    omega
  lt := by
    intro obj hobj
    rw [Objects.all, List.mem_append] at hobj
    show obj.id < o.fresh + txns.length
    rcases hobj with hold | hnew
    · have hlt := h.lt obj (by rw [Objects.all, List.append_nil]; exact hold)
      omega
    · have hid : obj.id ∈ (o.allocate txns).1.map Object.id := List.mem_map_of_mem hnew
      rw [ids_allocate, List.mem_range'_1] at hid
      exact hid.2
  indexed := h.indexed

theorem Linear.poolAdd {obj : Object} (h : Linear o (obj :: loose)) :
    Linear (o.poolAdd obj) loose := by
  rw [Objects.poolAdd]
  split_ifs with hfind
  · refine h.of_perm ?_ rfl h.indexed
    simp only [Objects.all, List.append_assoc, List.singleton_append]
    exact List.Perm.refl _
  · refine h.of_perm ?_ rfl h.indexed
    simp only [Objects.all, List.append_assoc, List.singleton_append]
    apply List.Perm.append_left
    rw [← List.append_assoc, ← List.append_assoc]
    exact List.perm_middle.symm

theorem Linear.blockDestroy (h : Linear o loose) : Linear (o.blockDestroy loose) [] := by
  refine h.of_perm ?_ rfl h.indexed
  simp only [Objects.all, Objects.blockDestroy, List.append_assoc, List.append_nil]
  exact List.Perm.refl _

theorem Linear.drop (h : Linear o loose) : Linear o [] where
  nodup := by
    have hnodup := h.nodup
    rw [Objects.all, List.map_append] at hnodup
    rw [Objects.all, List.append_nil]
    exact hnodup.of_append_left
  lt := by
    intro obj hobj
    refine h.lt obj ?_
    rw [Objects.all, List.append_nil] at hobj
    exact List.mem_append_left _ hobj
  indexed := h.indexed

theorem Linear.takePool (h : Linear o []) : Linear { o with pool := [] } o.pool := by
  refine h.of_perm ?_ rfl h.indexed
  simp only [Objects.all, List.append_assoc, List.append_nil, List.nil_append]
  rw [← List.append_assoc]
  exact List.perm_append_comm

theorem indexed_foldl {blocks : Map BlockPtr (List Object)} {index : Map Hash Object}
    {objects : List Object} (hold : ∀ e ∈ index, ∃ block ∈ blocks, e.2 ∈ block.2)
    (hnew : ∀ obj ∈ objects, ∃ block ∈ blocks, obj ∈ block.2) :
    ∀ e ∈ objects.foldl (fun index obj => index.set obj.txn.hash obj) index,
      ∃ block ∈ blocks, e.2 ∈ block.2 := by
  induction objects generalizing index with
  | nil => exact hold
  | cons obj objects ih =>
      refine ih ?_ fun obj' hobj' => hnew obj' (List.mem_cons_of_mem _ hobj')
      intro e he
      rcases Map.mem_set he with rfl | he
      · exact hnew obj List.mem_cons_self
      · exact hold e he

theorem Linear.storeBlock {block : BlockPtr} (h : Linear o loose)
    (hnew : o.blocks.get block = none) : Linear (o.storeBlock block loose) [] := by
  have hblocks : (o.storeBlock block loose).blocks = o.blocks ++ [(block, loose)] :=
    Map.set_of_get_eq_none loose hnew
  refine h.of_perm ?_ rfl ?_
  · rw [Objects.all, Objects.all, hblocks, List.append_nil, List.flatMap_append]
    simp only [Objects.storeBlock, List.flatMap_singleton, List.append_assoc]
    apply List.Perm.append_left
    apply List.Perm.append_left
    exact List.perm_append_comm
  · rw [hblocks]
    apply indexed_foldl
    · intro e he
      obtain ⟨held, hheld, hmem⟩ := h.indexed e he
      exact ⟨held, List.mem_append_left _ hheld, hmem⟩
    · intro obj hobj
      exact ⟨(block, loose), List.mem_append_right _ (List.mem_singleton_self _), hobj⟩

theorem Linear.owned (h : Linear o loose) : Owned o := by
  have hall : (o.all loose).map Object.id =
      (o.pool.map Object.id :: o.blocks.map fun e => e.2.map Object.id).flatten ++
        (o.destroyed.map Object.id ++ loose.map Object.id) := by
    simp only [Objects.all, List.map_append, List.flatten_cons, List.append_assoc,
      List.flatMap_def, List.map_flatten, List.map_map, Function.comp_def]
  have hnodup := h.nodup
  rw [hall, List.nodup_append'] at hnodup
  obtain ⟨hheld, hrest, hdisjoint⟩ := hnodup
  have halive : ∀ obj ∈ o.destroyed,
      obj.id ∉ (o.pool.map Object.id :: o.blocks.map fun e => e.2.map Object.id).flatten := by
    intro obj hobj hmem
    exact hdisjoint hmem (List.mem_append_left _ (List.mem_map_of_mem hobj))
  have hblocks : ∀ obj ∈ o.destroyed, ∀ e ∈ o.blocks, obj.id ∉ e.2.map Object.id := by
    intro obj hobj e he hmem
    refine halive obj hobj ?_
    rw [List.flatten_cons]
    exact List.mem_append_right _ (List.mem_flatten.mpr ⟨_, List.mem_map_of_mem he, hmem⟩)
  constructor
  · exact (List.nodup_flatten.mp hheld).2
  · exact hrest.of_append_left
  · intro obj hobj hmem
    refine halive obj hobj ?_
    rw [List.flatten_cons]
    exact List.mem_append_left _ hmem
  · exact hblocks
  · intro obj hobj e he heq
    obtain ⟨held, hheld, hmem⟩ := h.indexed e he
    refine hblocks obj hobj held hheld ?_
    rw [← heq]
    exact List.mem_map_of_mem hmem

end Linear

section Agreement

def contents (e : BlockPtr × List Object) : BlockPtr × List Transaction :=
  (e.1, e.2.map Object.txn)

/-- The pool and the stored blocks hold one object for each of their transactions. -/
structure Agrees (o : Objects) (store : Store) : Prop where
  pool_eq : o.pool.map Object.txn = store.pool.list
  blocks_eq : o.blocks.map contents =
    store.blockchain.blocks.map fun e => (e.2, transactionsOf e.2)

variable {o : Objects}

theorem pool_poolAdd {pool : Pool} (h : o.pool.map Object.txn = pool.list) (obj : Object) :
    (o.poolAdd obj).pool.map Object.txn = (Pools.poolAdd pool obj.txn).list := by
  have hfind : (o.pool.findIdx fun other => transactionCompare other.txn obj.txn = 0) =
      poolFind pool obj.txn := by
    rw [poolFind, ← h, List.findIdx_map]
    rfl
  have hsize : o.pool.length = poolSize pool := by
    rw [poolSize, ← h, List.length_map]
  rw [Objects.poolAdd, Pools.poolAdd, hfind, hsize]
  split_ifs with hfound
  · exact h
  · rw [List.map_append, h]
    rfl

theorem pool_foldl {pool : Pool} (h : o.pool.map Object.txn = pool.list)
    (objects : List Object) :
    (objects.foldl Objects.poolAdd o).pool.map Object.txn =
      ((objects.map Object.txn).foldl Pools.poolAdd pool).list := by
  induction objects generalizing o pool with
  | nil => exact h
  | cons obj objects ih => exact ih (pool_poolAdd h obj)

theorem poolAdd_frame (o : Objects) (obj : Object) :
    (o.poolAdd obj).blocks = o.blocks ∧ (o.poolAdd obj).index = o.index := by
  rw [Objects.poolAdd]
  split_ifs <;> exact ⟨rfl, rfl⟩

theorem foldl_frame (o : Objects) (objects : List Object) :
    (objects.foldl Objects.poolAdd o).blocks = o.blocks ∧
      (objects.foldl Objects.poolAdd o).index = o.index := by
  induction objects generalizing o with
  | nil => exact ⟨rfl, rfl⟩
  | cons obj objects ih =>
      obtain ⟨hblocks, hindex⟩ := ih (o.poolAdd obj)
      exact ⟨hblocks.trans (poolAdd_frame o obj).1, hindex.trans (poolAdd_frame o obj).2⟩

theorem onExtended_frame (block prev : BlockPtr) (o : Objects) :
    (o.onExtended block prev).blocks = o.blocks := by
  induction prev generalizing o with
  | nil => rfl
  | cons data earlier ih =>
      rw [Objects.onExtended]
      split_ifs
      · rfl
      · exact (ih _).trans (foldl_frame o _).1

theorem transactions_foldl (o : Objects) (objects : List Object) (block : BlockPtr) :
    (objects.foldl Objects.poolAdd o).transactions block = o.transactions block := by
  rw [Objects.transactions, (foldl_frame o objects).1]
  rfl

theorem onExtended_agrees (block prev : BlockPtr) {pool : Pool}
    (hpool : o.pool.map Object.txn = pool.list)
    (htxns : ∀ data earlier, data :: earlier <:+ prev →
      (o.transactions (data :: earlier)).map Object.txn = data.transactions) :
    ∃ pool', Pools.onExtended block prev pool = .ok pool' ∧
      (o.onExtended block prev).pool.map Object.txn = pool'.list := by
  induction prev generalizing o pool with
  | nil =>
      have hnull := (blockHasAncestor_iff block []).mpr List.nil_suffix
      exact ⟨pool, by rw [Pools.onExtended, if_pos hnull], hpool⟩
  | cons data earlier ih =>
      rw [Pools.onExtended, Objects.onExtended]
      split_ifs with hancestor
      · exact ⟨pool, rfl, hpool⟩
      · have hadded := pool_foldl hpool (o.transactions (data :: earlier))
        rw [htxns data earlier (List.suffix_refl _)] at hadded
        apply ih hadded
        intro data' earlier' hsuffix
        rw [transactions_foldl]
        exact htxns data' earlier' (hsuffix.trans (List.suffix_cons data earlier))

/-- The object has been given to the pool, which keeps it or destroys it. -/
def Given (o : Objects) (obj : Object) : Prop :=
  obj ∈ o.pool ∨ obj ∈ o.destroyed

theorem given_poolAdd {obj added : Object} (h : Given o obj ∨ obj = added) :
    Given (o.poolAdd added) obj := by
  rw [Objects.poolAdd, Given]
  split_ifs
  · rw [List.mem_append, List.mem_singleton, ← or_assoc]
    exact h
  · rw [List.mem_append, List.mem_singleton, or_right_comm]
    exact h

theorem given_foldl {obj : Object} {objects : List Object} (h : Given o obj ∨ obj ∈ objects) :
    Given (objects.foldl Objects.poolAdd o) obj := by
  induction objects generalizing o with
  | nil => exact h.resolve_right List.not_mem_nil
  | cons added objects ih =>
      apply ih
      rw [List.mem_cons, ← or_assoc] at h
      exact h.imp_left given_poolAdd

theorem given_onExtended (block prev : BlockPtr) {obj : Object}
    (h : Given o obj ∨ ∃ data earlier, data :: earlier <:+ prev ∧
      ¬ data :: earlier <:+ block ∧ obj ∈ o.transactions (data :: earlier)) :
    Given (o.onExtended block prev) obj := by
  induction prev generalizing o with
  | nil =>
      rcases h with h | ⟨data, earlier, hsuffix, -⟩
      · exact h
      · exact absurd (List.suffix_nil.mp hsuffix) (List.cons_ne_nil _ _)
  | cons data earlier ih =>
      rw [Objects.onExtended]
      split_ifs with hancestor
      · rw [blockHasAncestor_iff] at hancestor
        rcases h with h | ⟨data', earlier', hsuffix, hnot, -⟩
        · exact h
        · exact absurd (hsuffix.trans hancestor) hnot
      · apply ih
        rcases h with h | ⟨data', earlier', hsuffix, hnot, hobj⟩
        · exact Or.inl (given_foldl (Or.inl h))
        · rcases List.suffix_cons_iff.mp hsuffix with heq | hsuffix
          · rw [heq] at hobj
            exact Or.inl (given_foldl (Or.inr hobj))
          · refine Or.inr ⟨data', earlier', hsuffix, hnot, ?_⟩
            rw [transactions_foldl]
            exact hobj

theorem onExtended_quiet (block prev : BlockPtr)
    (h : ∀ data earlier, data :: earlier <:+ prev → ¬ data :: earlier <:+ block →
      o.transactions (data :: earlier) = []) : o.onExtended block prev = o := by
  induction prev with
  | nil => rfl
  | cons data earlier ih =>
      rw [Objects.onExtended]
      split_ifs with hancestor
      · rfl
      · rw [blockHasAncestor_iff] at hancestor
        rw [h data earlier (List.suffix_refl _) hancestor]
        apply ih
        intro data' earlier' hsuffix hnot
        exact h data' earlier' (hsuffix.trans (List.suffix_cons data earlier)) hnot

end Agreement

section Steps

variable {S : Sodium} {pk : PublicKey} {sk : SecretKey}

/-- The principal chain has no transactions outside the branch of `prev`. -/
def Quiet (bc : Blockchain) (prev : BlockPtr) : Prop :=
  ∀ data before, data :: before <:+ bc.principal → ¬ data :: before <:+ prev →
    data.transactions = []

variable {o : Objects} {store : Store}

theorem Agrees.get_eq_some (h : Agrees o store) {block : BlockPtr}
    (hblock : Representation.Stored store.blockchain block) :
    ∃ objects, o.blocks.get block = some objects ∧
      objects.map Object.txn = transactionsOf block := by
  obtain ⟨entry, hentry, hsnd⟩ := List.mem_map.mp hblock
  have hmem : (block, transactionsOf block) ∈ o.blocks.map contents := by
    rw [h.blocks_eq]
    exact List.mem_map.mpr ⟨entry, hentry, by rw [hsnd]⟩
  obtain ⟨held, hheld, heq⟩ := List.mem_map.mp hmem
  rw [contents, Prod.mk.injEq] at heq
  cases hget : o.blocks.get block with
  | none =>
      refine absurd ?_ ((Map.get_eq_none_iff _ _).mp hget held.2)
      rw [← heq.1]
      exact hheld
  | some objects =>
      have hfound : contents (block, objects) ∈ o.blocks.map contents :=
        List.mem_map_of_mem (Map.mem_of_get_eq_some hget)
      rw [h.blocks_eq] at hfound
      obtain ⟨entry', -, heq'⟩ := List.mem_map.mp hfound
      rw [contents, Prod.mk.injEq] at heq'
      exact ⟨objects, rfl, by rw [← heq'.2, heq'.1]⟩

theorem Agrees.transactions_eq (h : Agrees o store) {block : BlockPtr}
    (hblock : Representation.Stored store.blockchain block) :
    (o.transactions block).map Object.txn = transactionsOf block ∧
      (block, o.transactions block) ∈ o.blocks := by
  obtain ⟨objects, hget, htxns⟩ := h.get_eq_some hblock
  rw [Objects.transactions, hget]
  exact ⟨htxns, Map.mem_of_get_eq_some hget⟩

theorem Agrees.get_eq_none (h : Agrees o store) {block : BlockPtr}
    (hblock : ¬ Representation.Stored store.blockchain block) : o.blocks.get block = none := by
  rw [Map.get_eq_none_iff]
  intro objects hmem
  have hfound : contents (block, objects) ∈ o.blocks.map contents := List.mem_map_of_mem hmem
  rw [h.blocks_eq] at hfound
  obtain ⟨entry, hentry, heq⟩ := List.mem_map.mp hfound
  rw [contents, Prod.mk.injEq] at heq
  exact hblock (List.mem_map.mpr ⟨entry, hentry, heq.1⟩)

theorem Owned.not_given (h : Owned o) {e : BlockPtr × List Object} {obj : Object}
    (he : e ∈ o.blocks) (hobj : obj ∈ e.2) : ¬ Given o obj := by
  have hid : obj.id ∈ e.2.map Object.id := List.mem_map_of_mem hobj
  rintro (hpool | hdestroyed)
  · have hdisjoint := (List.pairwise_cons.mp h.held_once).1 _ (List.mem_map_of_mem he)
    exact hdisjoint (List.mem_map_of_mem hpool) hid
  · exact h.blocks_alive obj hdestroyed e he hid

section AddBlock

variable {stored : List BlockPtr} {bc : Blockchain} {data : Block} {prev : BlockPtr}
  {r : AddResult} {objects : List Object}

theorem stored_of_suffix (tree : Tree stored bc) {data : Block} {prev : BlockPtr}
    (h : data :: prev <:+ bc.principal) : Representation.Stored bc (data :: prev) := by
  rw [Representation.stored_iff tree]
  exact tree.mem_of_suffix h

theorem agrees_storeBlock {pool : Pool} (h : Agrees o ⟨bc, pool⟩)
    (htxns : objects.map Object.txn = data.transactions)
    (hnew : bc.blocks.get data.hash = none) (hstored : StoredAs bc data prev r)
    (hnot : o.blocks.get (data :: prev) = none) :
    Agrees (o.storeBlock (data :: prev) objects) ⟨r.blockchain, pool⟩ where
  pool_eq := h.pool_eq
  blocks_eq := by
    show (o.blocks.set (data :: prev) objects).map contents = r.blockchain.blocks.map _
    rw [hstored.blocks_eq, Map.set_of_get_eq_none _ hnot, Map.set_of_get_eq_none _ hnew,
      List.map_append, List.map_append, h.blocks_eq, List.map_singleton, List.map_singleton,
      contents, htxns]
    rfl

/-- A reorganisation keeps the ownership exactly when the blocks that it abandons
have no transactions. -/
theorem onExtended_owned_iff {principal : BlockPtr}
    (hagrees : ∀ data' before, data' :: before <:+ principal →
      (o.transactions (data' :: before)).map Object.txn = data'.transactions ∧
        (data' :: before, o.transactions (data' :: before)) ∈ o.blocks ∧
        data' :: before ≠ data :: prev) :
    (Linear o [] →
      (∀ data' before, data' :: before <:+ principal → ¬ data' :: before <:+ prev →
        data'.transactions = []) → Linear (o.onExtended (data :: prev) principal) []) ∧
      (Owned (o.onExtended (data :: prev) principal) →
        ∀ data' before, data' :: before <:+ principal → ¬ data' :: before <:+ prev →
          data'.transactions = []) := by
  have hsuffix_iff : ∀ data' before, data' :: before <:+ principal →
      (data' :: before <:+ data :: prev ↔ data' :: before <:+ prev) := by
    intro data' before hsuffix
    rw [List.suffix_cons_iff]
    exact or_iff_right (hagrees data' before hsuffix).2.2
  constructor
  · intro hlinear hquiet
    rw [onExtended_quiet]
    · exact hlinear
    · intro data' before hsuffix hnot
      rw [hsuffix_iff data' before hsuffix] at hnot
      have htxns := (hagrees data' before hsuffix).1
      rw [hquiet data' before hsuffix hnot] at htxns
      exact List.map_eq_nil_iff.mp htxns
  · intro howned data' before hsuffix hnot
    by_contra hsome
    obtain ⟨htxns, hmem, -⟩ := hagrees data' before hsuffix
    rw [← htxns] at hsome
    obtain ⟨obj, hobj⟩ := List.exists_mem_of_ne_nil _ fun h => hsome (List.map_eq_nil_iff.mpr h)
    have hblocks : (data' :: before, o.transactions (data' :: before)) ∈
        (o.onExtended (data :: prev) principal).blocks := by
      rw [onExtended_frame]
      exact hmem
    refine howned.not_given hblocks hobj ?_
    apply given_onExtended
    rw [← hsuffix_iff data' before hsuffix] at hnot
    exact Or.inr ⟨data', before, hsuffix, hnot, hobj⟩

/-- The object lists follow `blockchain_add_block`, and keep their owners exactly when
no block with transactions is abandoned. -/
theorem addBlock_objects {pool pool' : Pool} {bc' : Blockchain} {block : BlockPtr} {added : Bool}
    (tree : Tree stored bc) (hadd : Addable stored block) (hagrees : Agrees o ⟨bc, pool⟩)
    (htxns : objects.map Object.txn = transactionsOf block)
    (hcall : Pools.addBlock bc pool block = .ok (added, bc', pool')) :
    ∃ o', o.addBlock bc block objects = .ok o' ∧ Agrees o' ⟨bc', pool'⟩ ∧
      (Linear o objects → (Overtakes bc block → Quiet bc block.tail) → Linear o' []) ∧
      (Owned o' → Overtakes bc block → Quiet bc block.tail) := by
  rw [Pools.addBlock, bind_eq_ok] at hcall
  obtain ⟨r, hr, hcall⟩ := hcall
  rw [bind_eq_ok] at hcall
  obtain ⟨pool'', hpool, hcall⟩ := hcall
  simp only [pure_eq_ok, Except.ok.injEq, Prod.mk.injEq] at hcall
  obtain ⟨-, rfl, rfl⟩ := hcall
  rw [Objects.addBlock, hr, ok_bind]
  rcases blockchainAddBlock_cases hr with ⟨⟨old, hold⟩, rfl⟩ |
    ⟨data, prev, rfl, hnew, hstored⟩
  · cases hpool
    refine ⟨o.blockDestroy objects, rfl, ⟨hagrees.pool_eq, hagrees.blocks_eq⟩, ?_, ?_⟩
    · intro hlinear _
      exact hlinear.blockDestroy
    · rintro - ⟨hfresh, -⟩
      rw [hold] at hfresh
      cases hfresh
  have hfresh : ¬ Representation.Stored bc (data :: prev) := by
    rw [Representation.stored_iff tree]
    intro hmem
    exact (tree.get_eq_none_iff _).mp hnew (List.mem_map_of_mem hmem)
  have hnone := hagrees.get_eq_none hfresh
  have hagrees' := agrees_storeBlock hagrees htxns hnew hstored hnone
  rw [if_pos hstored.added]
  rcases overtakes_cases tree hadd hr with ⟨hnot, hextended, -⟩ | ⟨hovertakes, hextended, -⟩
  · rw [hextended] at hpool ⊢
    cases hpool
    refine ⟨o.storeBlock (data :: prev) objects, rfl, hagrees', ?_, ?_⟩
    · intro hlinear _
      exact hlinear.storeBlock hnone
    · intro _ hovertakes
      exact absurd hovertakes hnot
  · rw [hextended, List.foldlM_cons, bind_eq_ok] at hpool
    obtain ⟨pool₁, hrun, hpool⟩ := hpool
    cases hpool
    rw [hextended]
    have hmember : ∀ data' before, data' :: before <:+ bc.principal →
        ((o.storeBlock (data :: prev) objects).transactions (data' :: before)).map Object.txn =
            data'.transactions ∧
          (data' :: before,
            (o.storeBlock (data :: prev) objects).transactions (data' :: before)) ∈
            (o.storeBlock (data :: prev) objects).blocks ∧
          data' :: before ≠ data :: prev := by
      intro data' before hsuffix
      have hold := stored_of_suffix tree hsuffix
      obtain ⟨htxns', hmem⟩ := hagrees'.transactions_eq (stored_mono hr hold)
      refine ⟨htxns', hmem, ?_⟩
      rintro heq
      rw [heq] at hold
      exact hfresh hold
    obtain ⟨hkeep, hbreak⟩ := onExtended_owned_iff hmember
    obtain ⟨pool₂, hrun', hpool⟩ :=
      onExtended_agrees (data :: prev) bc.principal hagrees'.pool_eq
      fun data' before hsuffix => (hmember data' before hsuffix).1
    rw [hrun, Except.ok.injEq] at hrun'
    subst hrun'
    refine ⟨_, rfl, ⟨hpool, ?_⟩, ?_, ?_⟩
    · have hblocks := onExtended_frame (data :: prev) bc.principal
        (o.storeBlock (data :: prev) objects)
      exact (congrArg (List.map contents) hblocks).trans hagrees'.blocks_eq
    · intro hlinear hquiet
      exact hkeep (hlinear.storeBlock hnone) (hquiet hovertakes)
    · intro howned _
      exact hbreak howned

end AddBlock

/-- The store of a node with the objects behind its pointers. -/
structure World where
  store : Store
  objects : Objects

/-- A step of the node with what it does to the objects. -/
inductive WorldStep (S : Sodium) (pk : PublicKey) (sk : SecretKey) :
    World → ObjectEvent → World → Prop where
  | node {w : World} {event : Event} {store : Store} {objects : Objects}
      (hstep : Step S pk sk w.store event store)
      (hafter : w.objects.after w.store.blockchain (.node event) = .ok objects) :
      WorldStep S pk sk w (.node event) ⟨store, objects⟩
  | rejected {w : World} {txns : List Transaction} {objects : Objects}
      (hafter : w.objects.after w.store.blockchain (.rejected txns) = .ok objects) :
      WorldStep S pk sk w (.rejected txns) ⟨w.store, objects⟩

/-- The step abandons no block with transactions. -/
def Safe (S : Sodium) (pk : PublicKey) (sk : SecretKey) (w : World) : ObjectEvent → Prop
  | .node (.accepted block _) =>
      Overtakes w.store.blockchain block → Quiet w.store.blockchain block.tail
  | .node (.created prev now _ _) =>
      Wins S pk sk w.store prev now → Quiet w.store.blockchain prev
  | _ => True

theorem tail_and_transactions {now : UInt64} {prev next : BlockPtr} {txns : List Transaction}
    (h : blockCreate S now pk sk prev txns = .ok next) (hne : next ≠ []) :
    next.tail = prev ∧ transactionsOf next = txns := by
  obtain ⟨data, rfl⟩ := Chains.eq_cons_of_blockCreate h hne
  obtain ⟨-, -, -, accounts, -, rfl⟩ := BlockDelivery.blockCreate_spec h
  exact ⟨rfl, rfl⟩

theorem exists_after {event : Event} {store' : Store}
    (run : Representation.NodeRun S store.blockchain) (hagrees : Agrees o store)
    (hstep : Step S pk sk store event store') :
    ∃ o', o.after store.blockchain (.node event) = .ok o' ∧ Agrees o' store' ∧
      (Linear o [] → Safe S pk sk ⟨store, o⟩ (.node event) → Linear o' []) ∧
      (Owned o' → Safe S pk sk ⟨store, o⟩ (.node event)) := by
  obtain ⟨stored, built⟩ := run.builtRun
  cases hstep with
  | @pending txn hgenuine =>
      have hpool := @pool_foldl (o.allocate [txn]).2 _ hagrees.pool_eq (o.allocate [txn]).1
      rw [txns_allocate] at hpool
      refine ⟨_, rfl, ⟨hpool, ?_⟩, ?_, ?_⟩
      · rw [(foldl_frame _ _).1]
        exact hagrees.blocks_eq
      · intro hlinear _
        exact (hlinear.allocate [txn]).poolAdd
      · intro _
        trivial
  | @accept tuple block added bc pool hblock hne hadd =>
      have haddable := Representation.addable_of_blockCreateFromTuple built.tree hblock hne
      have hagrees' : Agrees (o.allocate (transactionsOf block)).2 store :=
        ⟨hagrees.pool_eq, hagrees.blocks_eq⟩
      obtain ⟨o', hrun, hnext, hkeep, hbreak⟩ := addBlock_objects built.tree haddable hagrees'
        (txns_allocate o (transactionsOf block)) hadd
      refine ⟨o', hrun, hnext, ?_, hbreak⟩
      intro hlinear hsafe
      exact hkeep (hlinear.allocate _) hsafe
  | @create prev next now added bc pool hmay hblock hne hadd =>
      have hprev := hmay.stored run
      rw [Representation.stored_iff built.tree] at hprev
      have haddable := Representation.addable_of_blockCreate (.inr hprev) hblock hne
      have hwins := wins_iff_overtakes hblock hne
      obtain ⟨htail, htaken⟩ := tail_and_transactions hblock hne
      have htxns : o.pool.map Object.txn = transactionsOf next :=
        hagrees.pool_eq.trans htaken.symm
      have hagrees' : Agrees { o with pool := [] } ⟨store.blockchain, poolCreate⟩ :=
        ⟨rfl, hagrees.blocks_eq⟩
      obtain ⟨o', hrun, hnext, hkeep, hbreak⟩ := addBlock_objects built.tree haddable hagrees'
        htxns hadd
      rw [htail, ← hwins] at hkeep hbreak
      refine ⟨o', hrun, hnext, ?_, hbreak⟩
      intro hlinear hsafe
      exact hkeep hlinear.takePool hsafe
  | fail hmay hblock =>
      refine ⟨_, rfl, ⟨rfl, hagrees.blocks_eq⟩, ?_, ?_⟩
      · intro hlinear _
        exact hlinear.takePool.drop
      · intro _
        trivial

/-- A run of a node with the objects that it goes through. -/
abbrev WorldTrace (S : Sodium) (pk : PublicKey) (sk : SecretKey) :
    List (ObjectEvent × World) → Prop :=
  Trace (fun event w => ∃ genesis, event = .node genesis ∧ Run S pk sk [genesis] w.store ∧
    Objects.empty.after blockchainCreate event = .ok w.objects) (WorldStep S pk sk)

/-- What holds in every world of a run. -/
structure Consistent (S : Sodium) (w : World) : Prop where
  run : Representation.NodeRun S w.store.blockchain
  agrees : Agrees w.objects w.store

theorem WorldStep.spec {w w' : World} {event : ObjectEvent} (hstep : WorldStep S pk sk w event w')
    (h : Consistent S w) :
    Consistent S w' ∧ (Linear w.objects [] → Safe S pk sk w event → Linear w'.objects []) ∧
      (Owned w'.objects → Safe S pk sk w event) := by
  cases hstep with
  | node hstep hafter =>
      obtain ⟨o', hrun, hagrees, hkeep, hbreak⟩ := exists_after h.run h.agrees hstep
      rw [hafter, Except.ok.injEq] at hrun
      subst hrun
      exact ⟨⟨hstep.nodeRun h.run, hagrees⟩, hkeep, hbreak⟩
  | @rejected txns objects hafter =>
      cases hafter
      refine ⟨⟨h.run, h.agrees.pool_eq, h.agrees.blocks_eq⟩, ?_, ?_⟩
      · intro hlinear _
        exact (hlinear.allocate txns).blockDestroy
      · intro _
        trivial

theorem exists_start {event : Event} {store : Store} (run : Run S pk sk [event] store) :
    ∃ o, Objects.empty.after blockchainCreate (.node event) = .ok o ∧
      Consistent S ⟨store, o⟩ ∧
      Linear o [] := by
  have hnode := run.nodeRun
  generalize hevents : [event] = events at run
  cases run with
  | @start now block added bc pool hblock hne hadd =>
      cases hevents
      have hadd' : Addable [] block := Representation.addable_of_blockCreate (.inl rfl) hblock hne
      obtain ⟨-, htaken⟩ := tail_and_transactions hblock hne
      obtain ⟨o, hrun, hagrees, hkeep, -⟩ := @addBlock_objects Objects.empty _ _ [] _ _ _ _ _
        tree_blockchainCreate hadd' ⟨rfl, rfl⟩ htaken.symm hadd
      refine ⟨o, hrun, ⟨hnode, hagrees⟩, hkeep linear_empty ?_⟩
      intro _ data before hsuffix
      exact absurd (List.suffix_nil.mp hsuffix) (List.cons_ne_nil _ _)
  | step run hstep =>
      have hlength := congrArg List.length hevents
      cases run <;> simp at hlength

theorem start_spec {event : Event} {w : World} (run : Run S pk sk [event] w.store)
    (hafter : Objects.empty.after blockchainCreate (.node event) = .ok w.objects) :
    Consistent S w ∧ Linear w.objects [] := by
  obtain ⟨o, hrun, hconsistent, hlinear⟩ := exists_start run
  rw [hafter, Except.ok.injEq] at hrun
  subst hrun
  exact ⟨hconsistent, hlinear⟩

theorem consistent_of_trace {event : ObjectEvent} {w : World}
    {earlier : List (ObjectEvent × World)} (trace : WorldTrace S pk sk ((event, w) :: earlier)) :
    Consistent S w := by
  refine trace.invariant ?_ ?_
  · rintro event w ⟨genesis, rfl, run, hafter⟩
    exact (start_spec run hafter).1
  · intro w event w' hw hstep
    exact (hstep.spec hw).1

theorem exists_worldTrace {events : List Event} {store : Store} (run : Run S pk sk events store) :
    ∃ event w earlier, WorldTrace S pk sk ((event, w) :: earlier) ∧ w.store = store ∧
      ((event, w) :: earlier).map Prod.fst = (events.map ObjectEvent.node).reverse := by
  induction run with
  | start hblock hne hadd =>
      obtain ⟨o, hafter, -⟩ := exists_start (.start hblock hne hadd)
      exact ⟨_, ⟨_, o⟩, [], .single ⟨_, rfl, .start hblock hne hadd, hafter⟩, rfl, rfl⟩
  | step run hstep ih =>
      obtain ⟨event, w, earlier, trace, rfl, hevents⟩ := ih
      have hconsistent := consistent_of_trace trace
      obtain ⟨o, hafter, -⟩ := exists_after hconsistent.run hconsistent.agrees hstep
      refine ⟨_, ⟨_, o⟩, _, trace.cons (.node hstep hafter), rfl, ?_⟩
      rw [List.map_cons, hevents, List.map_append, List.reverse_append]
      rfl

end Steps

/-- The ownership of the transaction objects survives a run exactly when no
reorganisation of it abandons a block with transactions. -/
theorem owned_iff {S : Sodium} {pk : PublicKey} {sk : SecretKey}
    {trace : List (ObjectEvent × World)} (h : WorldTrace S pk sk trace) :
    Throughout (fun t => ∀ x ∈ t.head?, Owned x.2.objects) trace ↔
      Guarded (Safe S pk sk) trace := by
  refine throughout_iff_guarded ?_ ?_ h
  · rintro event w ⟨genesis, rfl, run, hafter⟩ x hx
    cases hx
    exact (start_spec run hafter).2.owned
  · intro event w earlier event' w' trace hstep hguarded _
    have hinvariant : Consistent S w ∧ Linear w.objects [] := by
      refine trace.guarded_invariant (motive := fun w => Consistent S w ∧ Linear w.objects [])
        hguarded ?_ ?_
      · rintro event w ⟨genesis, rfl, run, hafter⟩
        exact start_spec run hafter
      · intro w event w' hw hsafe hstep
        obtain ⟨hnext, hkeep, -⟩ := hstep.spec hw.1
        exact ⟨hnext, hkeep hw.2 hsafe⟩
    obtain ⟨-, hkeep, hbreak⟩ := hstep.spec hinvariant.1
    constructor
    · intro howned
      exact hbreak (howned _ rfl)
    · intro hsafe x hx
      cases hx
      exact (hkeep hinvariant.2 hsafe).owned

section Rival

open Library.ByteStrings
open Chains
open BlockDelivery

/-- A node that mines a payment on its own genesis block. -/
theorem owned_iff_payment : ∃ first second trace,
    trace.map Prod.fst = [ObjectEvent.node (.created [first] 2 [second, first] true),
      .node (.pending allMoney), .node (.created [] 1 [first] true)] ∧
    (Throughout (fun t => ∀ x ∈ t.head?, Owned x.2.objects) trace ↔
      Guarded (Safe transparent minerKey minerSecret) trace) := by
  obtain ⟨first, second, h⟩ := exists_spent
  obtain ⟨event, w, earlier, trace, -, hevents⟩ := exists_worldTrace h.run
  exact ⟨first, second, _, hevents, owned_iff trace⟩

/-- The genesis block of another miner, with a smaller priority. -/
def rivalGenesis : BlockPtr :=
  (blockCreate transparent 1 (Bytes.ofList _ [6]) (Bytes.ofList _ [6]) [] []).toOption.getD []

theorem get_secondChain {first second : Block} {hash : Hash} (hfirst : hash ≠ first.hash)
    (hsecond : hash ≠ second.hash) : (secondChain first second).blocks.get hash = none := by
  show ((blockchainCreate.blocks.set first.hash [first]).set second.hash
    [second, first]).get hash = none
  rw [Map.get_set, if_neg hsecond, Map.get_set, if_neg hfirst]
  rfl

theorem rivalGenesis_overtakes {first second : Block} (h : Spent first second) :
    Overtakes (secondChain first second) rivalGenesis ∧
      blockchainGetBlock (secondChain first second) (blockGetHash []) = [] := by
  have hfresh : blockGetHash rivalGenesis ≠ blockGetHash (minedBlock 1 [] []) ∧
      blockGetHash rivalGenesis ≠
        blockGetHash (minedBlock 2 (minedBlock 1 [] []) [allMoney]) := by
    decide +kernel
  have hzero : blockGetHash [] ≠ blockGetHash (minedBlock 1 [] []) ∧
      blockGetHash [] ≠ blockGetHash (minedBlock 2 (minedBlock 1 [] []) [allMoney]) := by
    decide +kernel
  have hpriority : memcmp (blockGetPriority rivalGenesis).toList
      (blockGetPriority (minedBlock 1 [] [])).toList < 0 := by
    decide +kernel
  have htail : rivalGenesis.tail = [] := by decide +kernel
  obtain ⟨hfirst, hsecond⟩ := h.minedBlock_eq
  rw [hsecond, hfirst] at hfresh hzero
  rw [hfirst] at hpriority
  refine ⟨⟨get_secondChain hfresh.1 hfresh.2, ?_⟩, ?_⟩
  · rw [htail]
    exact Or.inr ⟨first, List.suffix_append [second] [first], hpriority⟩
  · rw [blockchainGetBlock, get_secondChain hzero.1 hzero.2]
    rfl

theorem exists_accept {first second : Block} (h : Spent first second)
    (run : Representation.NodeRun transparent (secondChain first second)) :
    ∃ store, Step transparent minerKey minerSecret ⟨secondChain first second, poolCreate⟩
      (.accepted rivalGenesis true) store := by
  obtain ⟨hovertakes, hfind⟩ := rivalGenesis_overtakes h
  have hne : rivalGenesis ≠ [] := by decide +kernel
  have hkeys : TransparentKeyPair (Bytes.ofList _ [6]) (Bytes.ofList _ [6]) := by
    rw [TransparentKeyPair]
    decide
  have hcreate := eq_ok_of_toOption hne
  obtain ⟨data, hdata⟩ := eq_cons_of_blockCreate hcreate hne
  have hrival : rivalGenesis = [data] := hdata
  obtain ⟨bytes, hwrite, hsize⟩ := @exists_size rivalGenesis (by decide +kernel)
  rw [hdata] at hcreate
  rw [hrival, BlockSchema.blockWrite_eq, List.nil_append, Except.ok.injEq] at hwrite
  subst hwrite
  obtain ⟨tuple, -, hblock⟩ := exists_tuple_of_blockCreate transparent_complete hkeys (by simp)
    hcreate (by omega) hfind []
  rw [← hrival] at hblock
  obtain ⟨stored, built⟩ := run.builtRun
  have haddable := Representation.addable_of_blockCreateFromTuple built.tree hblock hne
  obtain ⟨r, hr, hspec⟩ := blockchainAddBlock_spec built.tree haddable
  obtain ⟨pool, hadd, -⟩ := addBlock_spec hr poolCreate
  have hadded := hspec.added_iff.mpr ((built.tree.get_eq_none_iff _).mp hovertakes.1)
  rw [hadded] at hadd
  exact ⟨_, .accept hblock hne hadd⟩

/-- The rival block makes the payment of the abandoned block pending again, while the
block still has it. -/
theorem rival_shares_payment : ∃ (w : World) (earlier : List (ObjectEvent × World)),
    WorldTrace transparent minerKey minerSecret
      ((.node (.accepted rivalGenesis true), w) :: earlier) ∧
    ¬ Owned w.objects := by
  obtain ⟨first, second, h⟩ := exists_spent
  obtain ⟨event, ⟨store, objects⟩, earlier, trace, rfl, -⟩ := exists_worldTrace h.run
  have hconsistent := consistent_of_trace trace
  obtain ⟨store, hstep⟩ := exists_accept h hconsistent.run
  obtain ⟨o, hafter, -, -, hbreak⟩ := exists_after hconsistent.run hconsistent.agrees hstep
  refine ⟨⟨store, o⟩, _, trace.cons (.node hstep hafter), ?_⟩
  intro howned
  have hquiet := hbreak howned (rivalGenesis_overtakes h).1 second [first] (List.suffix_refl _)
  have htail : rivalGenesis.tail = [] := by decide +kernel
  rw [htail, h.transactions.2] at hquiet
  exact absurd (hquiet fun hsuffix => List.cons_ne_nil _ _ (List.suffix_nil.mp hsuffix))
    (List.cons_ne_nil _ _)

end Rival

end Whosecoin.Ownership

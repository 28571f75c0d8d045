import Whosecoin.Blockchains

namespace Whosecoin.Pools

open Library.Outcomes
open Library.ByteStrings
open Cryptography
open Transactions
open Accounts
open Blocks
open Blockchains

/-- `transaction_compare`. -/
def transactionCompare (txn₁ txn₂ : Transaction) : Int :=
  memcmp txn₁.hash.toList txn₂.hash.toList

/-- A `pool_t`. Its list is only ever changed by the functions below, which keep
the hashes distinct. -/
structure Pool where
  list : List Transaction
  nodup : (list.map Transaction.hash).Nodup

/-- The hashes of the pending transactions. -/
def Pool.hashes (pool : Pool) : List Hash :=
  pool.list.map Transaction.hash

def poolCreate : Pool :=
  ⟨[], List.nodup_nil⟩

def poolSize (pool : Pool) : Nat :=
  pool.list.length

/-- `list_find` with `transaction_compare`. -/
def poolFind (pool : Pool) (txn : Transaction) : Nat :=
  pool.list.findIdx fun other => transactionCompare other txn = 0

theorem transactionCompare_eq_zero_iff (txn₁ txn₂ : Transaction) :
    transactionCompare txn₁ txn₂ = 0 ↔ txn₁.hash = txn₂.hash := by
  rw [transactionCompare,
    memcmp_eq_zero_iff ((Bytes.length_eq _).trans (Bytes.length_eq _).symm)]
  exact ⟨Bytes.ext, congrArg Bytes.toList⟩

theorem findIdx_eq_length_iff {α : Type} (txnOf : α → Transaction) (list : List α)
    (txn : Transaction) :
    (list.findIdx fun other => transactionCompare (txnOf other) txn = 0) = list.length ↔
      txn.hash ∉ list.map fun other => (txnOf other).hash := by
  rw [List.findIdx_eq_length, List.mem_map]
  constructor
  · rintro hall ⟨other, hmem, hhash⟩
    have hne := hall other hmem
    rw [decide_eq_false_iff_not, transactionCompare_eq_zero_iff] at hne
    exact hne hhash
  · intro hnot other hmem
    rw [decide_eq_false_iff_not, transactionCompare_eq_zero_iff]
    intro hhash
    exact hnot ⟨other, hmem, hhash⟩

theorem poolFind_eq_size_iff (pool : Pool) (txn : Transaction) :
    poolFind pool txn = poolSize pool ↔ txn.hash ∉ pool.hashes :=
  findIdx_eq_length_iff id pool.list txn

/-- A transaction whose hash is in the pool already is destroyed. -/
def poolAdd (pool : Pool) (txn : Transaction) : Pool :=
  if h : poolFind pool txn ≠ poolSize pool then pool
  else
    { list := pool.list ++ [txn]
      nodup := by
        rw [not_not, poolFind_eq_size_iff] at h
        rw [List.map_append, List.map_singleton]
        refine List.nodup_append'.mpr ⟨pool.nodup, List.nodup_singleton _, ?_⟩
        rw [List.disjoint_singleton]
        exact h }

/-- The index is asserted to be that of a transaction. -/
def poolGet (pool : Pool) (index : Nat) : Outcome Transaction :=
  match pool.list[index]? with
  | some txn => .ok txn
  | none => .error .assertion

def poolRemove (pool : Pool) (index : Nat) : Outcome (Transaction × Pool) := do
  let txn ← poolGet pool index
  return (txn,
    { list := pool.list.eraseIdx index
      nodup := pool.nodup.sublist ((List.eraseIdx_sublist pool.list index).map _) })

/-- The loop that moves all pending transactions to a list. Every round removes
one, so that one round more than their number is enough. -/
def drainPool : (fuel : Nat) → (txns : List Transaction) → Pool →
    Outcome (List Transaction × Pool)
  | 0, _, _ => .error .diverges
  | fuel + 1, txns, pool =>
      if poolSize pool ≠ 0 then do
        let (txn, pool) ← poolRemove pool 0
        drainPool fuel (txns ++ [txn]) pool
      else .ok (txns, pool)

/-- Whether the second block lies on the branch of the first one. `NULL` lies on every
branch. -/
def blockHasAncestor : (block ancestor : BlockPtr) → Bool
  | [], ancestor => ancestor = []
  | data :: prev, ancestor =>
      if data :: prev = ancestor then true
      else if ancestor = [] then true
      else blockHasAncestor prev ancestor

/-- The loop of `on_extended`. -/
def onExtended (block : BlockPtr) : (prev : BlockPtr) → Pool → Outcome Pool
  | [], pool => if blockHasAncestor block [] then .ok pool else .error .nullPointer
  | data :: earlier, pool =>
      if blockHasAncestor block (data :: earlier) then .ok pool
      else onExtended block earlier (data.transactions.foldl poolAdd pool)

/-- `blockchain_add_block`, with what its calls of `on_extended` do to the pool. -/
def addBlock (bc : Blockchain) (pool : Pool) (block : BlockPtr) :
    Outcome (Bool × Blockchain × Pool) := do
  let r ← blockchainAddBlock bc block
  let pool ← r.extended.foldlM (fun pool call => onExtended call.2 call.1 pool) pool
  return (r.added, r.blockchain, pool)

theorem mem_hashes_poolAdd (pool : Pool) (txn : Transaction) (hash : Hash) :
    hash ∈ (poolAdd pool txn).hashes ↔ hash ∈ pool.hashes ∨ hash = txn.hash := by
  rw [poolAdd]
  split_ifs with h
  · rw [Ne, poolFind_eq_size_iff, not_not] at h
    constructor
    · exact Or.inl
    · rintro (hmem | rfl)
      · exact hmem
      · exact h
  · simp [Pool.hashes]

theorem mem_hashes_foldl (pool : Pool) (txns : List Transaction) (hash : Hash) :
    hash ∈ (txns.foldl poolAdd pool).hashes ↔
      hash ∈ pool.hashes ∨ ∃ txn ∈ txns, txn.hash = hash := by
  induction txns generalizing pool with
  | nil => simp
  | cons txn txns ih =>
      rw [List.foldl_cons, ih, mem_hashes_poolAdd, List.exists_mem_cons_iff, or_assoc, eq_comm]

theorem poolCreate_of_list {pool : Pool} (h : pool.list = []) : pool = poolCreate := by
  obtain ⟨list, nodup⟩ := pool
  subst h
  rfl

theorem poolRemove_zero {pool : Pool} {txn : Transaction} {rest : List Transaction}
    (hlist : pool.list = txn :: rest) :
    ∃ pool', poolRemove pool 0 = .ok (txn, pool') ∧ pool'.list = rest := by
  obtain ⟨list, nodup⟩ := pool
  subst hlist
  exact ⟨_, rfl, rfl⟩

theorem drainPool_eq (txns : List Transaction) (pool : Pool) (fuel : Nat)
    (hfuel : poolSize pool < fuel) :
    drainPool fuel txns pool = .ok (txns ++ pool.list, poolCreate) := by
  induction fuel generalizing txns pool with
  | zero => omega
  | succ fuel ih =>
      rw [drainPool]
      cases hlist : pool.list with
      | nil => rw [poolSize, hlist, if_neg (by simp), List.append_nil, poolCreate_of_list hlist]
      | cons txn rest =>
          rw [poolSize, hlist, List.length_cons] at hfuel
          obtain ⟨pool', hremove, hrest⟩ := poolRemove_zero hlist
          have hsize : poolSize pool' < fuel := by
            rw [poolSize, hrest]
            omega
          rw [poolSize, hlist, if_pos (by simp), hremove, ok_bind]
          simp only [ih _ _ hsize, hrest, List.append_assoc, List.singleton_append]

theorem blockHasAncestor_iff (block ancestor : BlockPtr) :
    blockHasAncestor block ancestor = true ↔ ancestor <:+ block := by
  induction block with
  | nil => rw [blockHasAncestor, decide_eq_true_eq, List.suffix_nil]
  | cons data prev ih =>
      rw [blockHasAncestor, List.suffix_cons_iff]
      split_ifs with hself hnull
      · simp [hself]
      · simp [hnull]
      · rw [ih]
        constructor
        · exact Or.inr
        · rintro (heq | hsuffix)
          · exact absurd heq.symm hself
          · exact hsuffix

theorem extended_cases {bc : Blockchain} {block : BlockPtr} {r : AddResult}
    (h : blockchainAddBlock bc block = .ok r) :
    r.extended = [] ∧ r.blockchain.principal = bc.principal ∨
      r.extended = [(bc.principal, r.blockchain.principal)] ∧
        r.blockchain.principal = block := by
  rcases blockchainAddBlock_cases h with ⟨-, rfl⟩ | ⟨data, prev, rfl, -, hstored⟩
  · exact Or.inl ⟨rfl, rfl⟩
  · cases hstored with
    | principal => exact Or.inr ⟨rfl, rfl⟩
    | side => exact Or.inl ⟨rfl, rfl⟩

end Whosecoin.Pools

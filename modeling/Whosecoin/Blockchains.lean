import Whosecoin.Blocks

/-!
The tables of `blockchain.c` and the fork choice of `blockchain_add_block`.
-/

namespace Whosecoin.Blockchains

open Library.Outcomes
open Library.ByteStrings
open Library.Maps
open Cryptography
open Transactions
open Accounts
open Blocks

/-- A `blockchain_t`. The `children` lists, the only fields of a block that
change after its construction, are kept here by block. -/
structure Blockchain where
  blocks : Map Hash BlockPtr
  txns : Map Hash Transaction
  principal : BlockPtr
  children : BlockPtr → List BlockPtr

/-- No block is stored, and the principal is `NULL`. -/
def blockchainCreate : Blockchain where
  blocks := []
  txns := []
  principal := []
  children := fun _ => []

/-- The priority by which forks are compared, the least one first. -/
def blockGetPriority : BlockPtr → Hash
  | [] => Bytes.zero generichashBytes
  | block :: _ => block.sortitionPriority

def blockAddChild (children : BlockPtr → List BlockPtr) (block child : BlockPtr) :
    BlockPtr → List BlockPtr :=
  Function.update children block (children block ++ [child])

/-- The loop of `blockchain_add_block` that walks up the principal chain to
`target`; it yields the final `iter` and `prev`. -/
def walkToPrev (target : BlockPtr) : (iter prev : BlockPtr) → BlockPtr × BlockPtr
  | [], prev => ([], prev)
  | block :: earlier, prev =>
      if target = block :: earlier then (block :: earlier, prev)
      else walkToPrev target earlier (block :: earlier)

/-- What a call of `blockchain_add_block` returns and leaves behind, with the
arguments of its calls of `on_extended`. -/
structure AddResult where
  added : Bool
  blockchain : Blockchain
  extended : List (BlockPtr × BlockPtr)

/-- The block in the three indexes, before the fork choice. -/
def storeBlock (bc : Blockchain) (block : Block) (prev : BlockPtr) : Blockchain :=
  { bc with
    blocks := bc.blocks.set block.hash (block :: prev)
    children :=
      if prev = [] then bc.children else blockAddChild bc.children prev (block :: prev)
    txns := block.transactions.foldl (fun txns txn => txns.set txn.hash txn) bc.txns }

/-- The block becomes the principal and `on_extended` is called. -/
def extendPrincipal (bc : Blockchain) (block : BlockPtr) : AddResult :=
  ⟨true, { bc with principal := block }, [(bc.principal, block)]⟩

/-- `block` becomes the principal if its priority is less than that of `rival`. -/
def extendIfLess (bc : Blockchain) (block rival : BlockPtr) : AddResult :=
  if memcmp (blockGetPriority block).toList (blockGetPriority rival).toList < 0 then
    extendPrincipal bc block
  else ⟨true, bc, []⟩

/-- A block whose hash is stored already is refused. Any other one is stored, and becomes the
principal where it extends it or wins against its sibling on the principal chain. -/
def blockchainAddBlock (bc : Blockchain) (block : BlockPtr) : Outcome AddResult :=
  match bc.blocks.get (blockGetHash block) with
  | some _ => .ok ⟨false, bc, []⟩
  | none =>
      match block with
      | [] => .error .nullPointer
      | data :: prev =>
          let stored := storeBlock bc data prev
          if prev = bc.principal then .ok (extendPrincipal stored block)
          else
            match bc.principal with
            | [] => .error .nullPointer
            | _ :: principalPrev =>
                if prev = principalPrev then .ok (extendIfLess stored block bc.principal)
                else
                  match walkToPrev prev bc.principal [] with
                  | (iter, rival) =>
                      if prev = iter then
                        match rival with
                        | [] => .error .nullPointer
                        | _ :: _ => .ok (extendIfLess stored block rival)
                      else .ok ⟨true, stored, []⟩

def blockchainGetBlock (bc : Blockchain) (hash : Hash) : BlockPtr :=
  (bc.blocks.get hash).getD []

/-- The transaction with this hash of the blocks that have been added. -/
def blockchainGetTransaction (bc : Blockchain) (hash : Hash) : Option Transaction :=
  bc.txns.get hash

/-- Add blocks one after the other, as a node that receives them does. -/
def addBlocks (bc : Blockchain) (order : List BlockPtr) : Outcome Blockchain :=
  order.foldlM (fun bc block => (blockchainAddBlock bc block).map AddResult.blockchain) bc

section Cases

variable {bc : Blockchain} {block : BlockPtr} {data : Block} {prev : BlockPtr} {r : AddResult}

/-- The block has been stored, as the new principal or without a change of it. -/
inductive StoredAs (bc : Blockchain) (data : Block) (prev : BlockPtr) : AddResult → Prop where
  | principal : StoredAs bc data prev
      ⟨true, { storeBlock bc data prev with principal := data :: prev },
        [(bc.principal, data :: prev)]⟩
  | side : StoredAs bc data prev ⟨true, storeBlock bc data prev, []⟩

theorem storedAs_extendIfLess (rival : BlockPtr) :
    StoredAs bc data prev (extendIfLess (storeBlock bc data prev) (data :: prev) rival) := by
  rw [extendIfLess]
  split_ifs with hless
  · exact .principal
  · exact .side

/-- A call refuses a block whose hash is known, or it stores the block. -/
theorem blockchainAddBlock_cases (h : blockchainAddBlock bc block = .ok r) :
    (∃ old, bc.blocks.get (blockGetHash block) = some old) ∧ r = ⟨false, bc, []⟩ ∨
      ∃ data prev, block = data :: prev ∧ bc.blocks.get data.hash = none ∧
        StoredAs bc data prev r := by
  rw [blockchainAddBlock.eq_def] at h
  cases hget : bc.blocks.get (blockGetHash block) with
  | some old =>
      simp only [hget, Except.ok.injEq] at h
      exact Or.inl ⟨⟨old, rfl⟩, h.symm⟩
  | none =>
      rcases block with _ | ⟨data, prev⟩
      · simp [hget] at h
      simp only [hget] at h
      refine Or.inr ⟨data, prev, rfl, hget, ?_⟩
      split at h
      · cases h
        exact .principal
      split at h
      · cases h
      split at h
      · cases h
        exact storedAs_extendIfLess _
      split at h
      · split at h
        · cases h
        · cases h
          exact storedAs_extendIfLess _
      · cases h
        exact .side

theorem StoredAs.blocks_eq (h : StoredAs bc data prev r) :
    r.blockchain.blocks = bc.blocks.set data.hash (data :: prev) := by
  cases h <;> rfl

theorem StoredAs.txns_eq (h : StoredAs bc data prev r) :
    r.blockchain.txns = (storeBlock bc data prev).txns := by
  cases h <;> rfl

theorem StoredAs.added (h : StoredAs bc data prev r) : r.added = true := by
  cases h <;> rfl

end Cases

end Whosecoin.Blockchains

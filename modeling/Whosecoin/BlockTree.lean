import Whosecoin.Blockchains
import Whosecoin.Library.ForkChoice

/-!
The abstract block tree: a list of stored blocks that a blockchain indexes, with the
principal at the end of the walk by priority.
-/

namespace Whosecoin.BlockTree

open Library.Outcomes
open Library.ByteStrings
open Library.Maps
open Library.ForkChoice
open Accounts
open Blockchains

/-- The blocks whose parent is `p`, in order of addition. -/
def childrenIn (stored : List BlockPtr) (p : BlockPtr) : List BlockPtr :=
  stored.filter fun block => block.tail = p

/-- The block may be added: its parent is `NULL` or stored. -/
def Addable (stored : List BlockPtr) (block : BlockPtr) : Prop :=
  block ≠ [] ∧ (block.tail = [] ∨ block.tail ∈ stored)

/-- The blockchain indexes exactly the stored blocks, listed in order of
addition, and its principal is the leaf of the fork choice among them. -/
structure Tree (stored : List BlockPtr) (bc : Blockchain) : Prop where
  blocks_eq : bc.blocks = stored.map fun block => (blockGetHash block, block)
  hashes_nodup : (stored.map blockGetHash).Nodup
  addable : ∀ block ∈ stored, Addable stored block
  children_eq : ∀ p, p ≠ [] → bc.children p = childrenIn stored p
  leaf : IsLeaf blockGetPriority (childrenIn stored) [] bc.principal.length bc.principal

theorem mem_childrenIn {stored : List BlockPtr} {p c : BlockPtr} :
    c ∈ childrenIn stored p ↔ c ∈ stored ∧ c.tail = p := by
  simp [childrenIn]

theorem childrenIn_append (stored : List BlockPtr) (block p : BlockPtr) :
    childrenIn (stored ++ [block]) p =
      childrenIn stored p ++ if block.tail = p then [block] else [] := by
  by_cases h : block.tail = p <;> simp [childrenIn, h]

theorem inserts_childrenIn (stored : List BlockPtr) (block : BlockPtr) :
    Inserts (childrenIn stored) (childrenIn (stored ++ [block])) block.tail block where
  at_parent := by simp [childrenIn_append]
  elsewhere := by
    intro q hq
    simp [childrenIn_append, Ne.symm hq]

theorem tree_blockchainCreate : Tree [] blockchainCreate where
  blocks_eq := rfl
  hashes_nodup := List.nodup_nil
  addable := by simp
  children_eq := by simp [blockchainCreate, childrenIn]
  leaf := ⟨.refl, rfl⟩

namespace Tree

variable {stored : List BlockPtr} {bc : Blockchain} (tree : Tree stored bc)

include tree

theorem ne_nil {block : BlockPtr} (h : block ∈ stored) : block ≠ [] :=
  (tree.addable block h).1

theorem ranked : Ranked List.length (childrenIn stored) := by
  intro p c hc
  obtain ⟨hstored, rfl⟩ := mem_childrenIn.mp hc
  have hpos := List.length_pos_iff.mpr (tree.ne_nil hstored)
  rw [List.length_tail]
  omega

theorem suffix_mem {x y : BlockPtr} (hx : x ∈ stored) (hy : y <:+ x) (hne : y ≠ []) :
    y ∈ stored := by
  induction x with
  | nil => exact absurd (List.suffix_nil.mp hy) hne
  | cons data prev ih =>
      rcases List.suffix_cons_iff.mp hy with rfl | hprev
      · exact hx
      · rcases (tree.addable _ hx).2 with hnil | hmem
        · rw [List.tail_cons] at hnil
          subst hnil
          exact absurd (List.suffix_nil.mp hprev) hne
        · exact ih hmem hprev

theorem length_le {x : BlockPtr} (hx : x ∈ stored) : x.length ≤ stored.length := by
  have hsub : List.range x.length ⊆ stored.map fun block => block.length - 1 := by
    intro k hk
    have hk' : k < x.length := List.mem_range.mp hk
    have hsuffix : x.drop (x.length - (k + 1)) <:+ x := List.drop_suffix _ _
    have hlength : (x.drop (x.length - (k + 1))).length = k + 1 := by
      rw [List.length_drop]
      omega
    have hne : x.drop (x.length - (k + 1)) ≠ [] := by
      rw [← List.length_pos_iff, hlength]
      omega
    refine List.mem_map.mpr ⟨_, tree.suffix_mem hx hsuffix hne, ?_⟩
    rw [hlength]
    omega
  have := (List.subperm_of_subset List.nodup_range hsub).length_le
  simpa using this

theorem get_eq_none_iff (hash : Cryptography.Hash) :
    bc.blocks.get hash = none ↔ hash ∉ stored.map blockGetHash := by
  rw [Map.get_eq_none_iff, tree.blocks_eq]
  constructor
  · intro h hmem
    obtain ⟨block, hblock, rfl⟩ := List.mem_map.mp hmem
    exact h block (List.mem_map.mpr ⟨block, hblock, rfl⟩)
  · intro h block hmem
    obtain ⟨block', hblock', heq⟩ := List.mem_map.mp hmem
    rw [Prod.mk.injEq] at heq
    exact h (List.mem_map.mpr ⟨block', hblock', heq.1⟩)

theorem get_hash {block : BlockPtr} (h : block ∈ stored) :
    bc.blocks.get (blockGetHash block) = some block := by
  apply Map.get_of_mem
  · rw [tree.blocks_eq, List.map_map]
    exact tree.hashes_nodup
  · rw [tree.blocks_eq]
    exact List.mem_map.mpr ⟨block, h, rfl⟩

/-- The blocks on the principal chain are the ones that the walk passes. -/
theorem bestPath_of_suffix {x y : BlockPtr} {n : Nat}
    (h : BestPath blockGetPriority (childrenIn stored) [] n x) (hy : y <:+ x) :
    BestPath blockGetPriority (childrenIn stored) [] y.length y := by
  induction h with
  | refl =>
      rw [List.suffix_nil.mp hy]
      exact .refl
  | @step n p c path best ih =>
      have hc := mem_childrenIn.mp (List.argmin_mem best)
      have hp : p.length = n := by simpa using path.rank_eq tree.ranked
      rcases c with _ | ⟨data, prev⟩
      · exact absurd rfl (tree.ne_nil hc.1)
      · have hprev : prev = p := hc.2
        subst hprev
        rcases List.suffix_cons_iff.mp hy with rfl | hy
        · rw [List.length_cons, hp]
          exact .step path best
        · exact ih hy

theorem suffix_of_bestPath {m : Nat} {y : BlockPtr}
    (h : BestPath blockGetPriority (childrenIn stored) [] m y) : y <:+ bc.principal := by
  have hle := tree.leaf.le_of_bestPath h
  have hsuffix : bc.principal.drop (bc.principal.length - m) <:+ bc.principal :=
    List.drop_suffix _ _
  have hpath := tree.bestPath_of_suffix tree.leaf.path hsuffix
  rw [List.length_drop, Nat.sub_sub_self hle] at hpath
  rw [h.unique hpath]
  exact hsuffix

theorem argmin_of_suffix {data : Block} {prev : BlockPtr}
    (h : data :: prev <:+ bc.principal) :
    (childrenIn stored prev).argmin blockGetPriority = some (data :: prev) := by
  have hpath := tree.bestPath_of_suffix tree.leaf.path h
  cases hpath with
  | @step n p c path best =>
      have hp : prev = p := (mem_childrenIn.mp (List.argmin_mem best)).2
      rw [hp]
      exact hp ▸ best

theorem mem_of_suffix {data : Block} {prev : BlockPtr} (h : data :: prev <:+ bc.principal) :
    data :: prev ∈ stored :=
  (mem_childrenIn.mp (List.argmin_mem (tree.argmin_of_suffix h))).1

theorem not_suffix_of_new {data : Block} {prev : BlockPtr}
    (hnew : data.hash ∉ stored.map blockGetHash) : ¬ data :: prev <:+ bc.principal :=
  fun h => hnew (List.mem_map.mpr ⟨_, tree.mem_of_suffix h, rfl⟩)

theorem principal_mem : bc.principal = [] ∨ bc.principal ∈ stored := by
  rcases hprincipal : bc.principal with _ | ⟨data, prev⟩
  · exact .inl rfl
  · have hsuffix : data :: prev <:+ bc.principal := by simp [hprincipal]
    exact .inr (tree.mem_of_suffix hsuffix)

theorem stored_eq_nil_of_principal (h : bc.principal = []) : stored = [] := by
  refine List.eq_nil_iff_forall_not_mem.mpr fun x hx => ?_
  have hroot : ∃ data : Block, [data] <:+ x := by
    refine ⟨x.getLast (tree.ne_nil hx), x.dropLast, List.dropLast_append_getLast _⟩
  obtain ⟨data, hsuffix⟩ := hroot
  have hmem : [data] ∈ childrenIn stored [] :=
    mem_childrenIn.mpr ⟨tree.suffix_mem hx hsuffix (by simp), rfl⟩
  have hstop := tree.leaf.stop
  rw [h] at hstop
  simp [hstop] at hmem

theorem principal_length_le : bc.principal.length ≤ stored.length := by
  rcases tree.principal_mem with hnil | hmem
  · simp [hnil]
  · exact tree.length_le hmem

end Tree

end Whosecoin.BlockTree

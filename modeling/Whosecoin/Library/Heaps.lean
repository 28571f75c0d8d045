import Mathlib

/-!
Binary heaps in a vector, for any relation. An insertion leaves the heap in order but for
one rising element, a removal but for one sinking element.
-/

namespace Whosecoin.Library.Heaps

/-- The parent of a position in the binary tree that an array holds row by row. -/
def parent (i : Nat) : Nat :=
  (i - 1) / 2

theorem parent_lt {i : Nat} (h : 0 < i) : parent i < i := by
  rw [parent]
  omega

theorem parent_lt_of_lt {i n : Nat} (h : i < n) : parent i < n := by
  rw [parent]
  omega

/-- The position `j` is a child of the position `i`. -/
def Child (i j : Nat) : Prop :=
  0 < j ∧ parent j = i

theorem child_parent {j : Nat} (h : 0 < j) : Child (parent j) j :=
  ⟨h, rfl⟩

theorem Child.lt {i j : Nat} (h : Child i j) : i < j := by
  rw [← h.2]
  exact parent_lt h.1

theorem Child.eq {i j : Nat} (h : Child i j) : j = 2 * i + 1 ∨ j = 2 * i + 2 := by
  obtain ⟨hpos, hparent⟩ := h
  rw [parent] at hparent
  omega

theorem Child.unique {i i' j : Nat} (h : Child i j) (h' : Child i' j) : i = i' :=
  h.2.symm.trans h'.2

section Definitions

variable {α : Type} {n : Nat} (r : α → α → Prop) (data : Vector α n)

/-- No element is before its parent. -/
def Ordered : Prop :=
  ∀ p j (hp : p < n) (hj : j < n), Child p j → r data[p] data[j]

/-- The element at `i` may belong further up. -/
structure Rising (i : Nat) : Prop where
  edges : ∀ p j (hp : p < n) (hj : j < n), Child p j → j ≠ i → r data[p] data[j]
  around : ∀ p j (hp : p < n) (hj : j < n), Child p i → Child i j → r data[p] data[j]

/-- The element at `i` may belong further down. -/
structure Sinking (i : Nat) : Prop where
  edges : ∀ p j (hp : p < n) (hj : j < n), Child p j → p ≠ i → r data[p] data[j]
  around : ∀ p j (hp : p < n) (hj : j < n), Child p i → Child i j → r data[p] data[j]

end Definitions

variable {α : Type} {n : Nat} {r : α → α → Prop} {data : Vector α n} {i : Nat}

section Order

theorem Ordered.root_le [IsPreorder α r] (h : Ordered r data) (hn : 0 < n) (j : Nat)
    (hj : j < n) : r data[0] data[j] := by
  induction j using Nat.strongRecOn with
  | ind j ih =>
      rcases Nat.eq_zero_or_pos j with rfl | hpos
      · exact refl_of r _
      · have hp := parent_lt_of_lt hj
        have hroot := ih (parent j) (parent_lt hpos) hp
        exact IsTrans.trans _ _ _ hroot (h _ j hp hj (child_parent hpos))

theorem Ordered.sinking [IsPreorder α r] (h : Ordered r data) (hi : i < n) :
    Sinking r data i where
  edges := fun p j hp hj hchild _ => h p j hp hj hchild
  around := fun p j hp hj hup hdown =>
    IsTrans.trans _ _ _ (h p i hp hi hup) (h i j hi hj hdown)

end Order

section Rising

theorem Ordered.rising_push (h : Ordered r data) (e : α) : Rising r (data.push e) n where
  edges := by
    intro p j hp hj hchild hne
    have hold : j < n := by omega
    have hparent := hchild.lt.trans hold
    rw [Vector.getElem_push_lt hold, Vector.getElem_push_lt hparent]
    exact h p j hparent hold hchild
  around := fun p j hp hj hup hdown => absurd hdown.lt (Nat.not_lt.mpr (Nat.le_of_lt_succ hj))

theorem Rising.stop (h : Rising r data i)
    (hstop : ∀ p (hp : p < n) (hi : i < n), Child p i → r data[p] data[i]) :
    Ordered r data := by
  intro p j hp hj hchild
  by_cases hj' : j = i
  · subst hj'
    exact hstop p hp hj hchild
  · exact h.edges p j hp hj hchild hj'

theorem Rising.step [IsPreorder α r] (h : Rising r data i) {q : Nat} (hq : q < n) (hi : i < n)
    (hup : Child q i) (hle : r data[i] data[q]) : Rising r (data.swap q i) q where
  edges := by
    intro p j hp hj hchild hne
    rw [Vector.getElem_swap, Vector.getElem_swap, if_neg hne]
    by_cases hj' : j = i
    · subst hj'
      rw [if_pos (hchild.unique hup), if_pos rfl]
      exact hle
    · have hedge := h.edges p j hp hj hchild hj'
      rw [if_neg hj']
      by_cases hsibling : p = q
      · subst hsibling
        rw [if_pos rfl]
        exact IsTrans.trans _ _ _ hle hedge
      · rw [if_neg hsibling]
        split_ifs with hbelow
        · subst hbelow
          exact h.around q j hq hj hup hchild
        · exact hedge
  around := by
    intro p j hp hj hup' hdown
    have hlt := hup.lt
    have hlt' := hup'.lt
    have hedge := h.edges p q hp hq hup' hlt.ne
    rw [Vector.getElem_swap, Vector.getElem_swap, if_neg hlt'.ne, if_neg (by omega),
      if_neg hdown.lt.ne']
    split_ifs with hj'
    · exact hedge
    · exact IsTrans.trans _ _ _ hedge (h.edges q j hq hj hdown hj')

end Rising

section Sinking

theorem Sinking.stop (h : Sinking r data i)
    (hstop : ∀ j (hi : i < n) (hj : j < n), Child i j → r data[i] data[j]) :
    Ordered r data := by
  intro p j hp hj hchild
  by_cases hp' : p = i
  · subst hp'
    exact hstop j hp hj hchild
  · exact h.edges p j hp hj hchild hp'

theorem Sinking.step (h : Sinking r data i) {c : Nat} (hi : i < n) (hc : c < n)
    (hdown : Child i c) (hle : r data[c] data[i])
    (hleast : ∀ j (hj : j < n), Child i j → r data[c] data[j]) :
    Sinking r (data.swap i c) c where
  edges := by
    intro p j hp hj hchild hne
    rw [Vector.getElem_swap, Vector.getElem_swap, if_neg hne]
    by_cases hj' : j = i
    · subst hj'
      rw [if_neg hchild.lt.ne, if_pos rfl]
      exact h.around p c hp hc hchild hdown
    · rw [if_neg hj']
      by_cases hsibling : p = i
      · subst hsibling
        rw [if_pos rfl]
        split_ifs
        · exact hle
        · exact hleast j hj hchild
      · have hother : j ≠ c := by
          rintro rfl
          exact hsibling (hchild.unique hdown)
        rw [if_neg hsibling, if_neg hother]
        exact h.edges p j hp hj hchild hsibling
  around := by
    intro p j hp hj hup hdown'
    have hlt := hdown.lt
    have hlt' := hdown'.lt
    rw [Vector.getElem_swap, Vector.getElem_swap, if_pos (hup.unique hdown), if_neg (by omega),
      if_neg hlt'.ne']
    exact h.edges c j hc hj hdown' hlt.ne'

theorem Sinking.lift [IsPreorder α r] (h : Sinking r data i) {q : Nat} (hq : q < n) (hi : i < n)
    (hup : Child q i) : Sinking r (data.swap q i) q where
  edges := by
    intro p j hp hj hchild hne
    have hlt := hup.lt
    rw [Vector.getElem_swap, Vector.getElem_swap, if_neg hne]
    by_cases hj' : j = q
    · subst hj'
      have hlt' := hchild.lt
      have hedge := h.edges p j hp hj hchild (by omega)
      have hedge' := h.edges j i hj hi hup hlt.ne
      rw [if_neg (by omega), if_pos rfl]
      exact IsTrans.trans _ _ _ hedge hedge'
    · have hother : j ≠ i := by
        rintro rfl
        exact hne (hchild.unique hup)
      rw [if_neg hj', if_neg hother]
      split_ifs with hbelow
      · subst hbelow
        exact h.around q j hq hj hup hchild
      · exact h.edges p j hp hj hchild hbelow
  around := by
    intro p j hp hj hup' hdown
    have hlt := hup.lt
    have hlt' := hup'.lt
    have hedge := h.edges p q hp hq hup' (by omega)
    rw [Vector.getElem_swap, Vector.getElem_swap, if_neg hlt'.ne, if_neg (by omega),
      if_neg hdown.lt.ne']
    split_ifs with hj'
    · exact hedge
    · exact IsTrans.trans _ _ _ hedge (h.edges q j hq hj hdown hlt.ne)

theorem Sinking.of_root {m : Nat} {data' : Vector α m} (h : Sinking r data 0)
    (hsame : ∀ j (hj : j < m), 0 < j → ∃ hj' : j < n, data'[j] = data[j]) :
    Sinking r data' 0 where
  edges := by
    intro p j hp hj hchild hne
    obtain ⟨hj', heq⟩ := hsame j hj hchild.1
    obtain ⟨hp', heq'⟩ := hsame p hp (Nat.pos_of_ne_zero hne)
    rw [heq, heq']
    exact h.edges p j hp' hj' hchild hne
  around := fun p j hp hj hup => absurd hup.lt (Nat.not_lt_zero p)

end Sinking

section Draining

/-- The element is one of the queue, and none is before it. -/
def Least (r : α → α → Prop) (queue : Multiset α) (e : α) : Prop :=
  e ∈ queue ∧ ∀ x ∈ queue, r e x

/-- The list `popped` has the elements of `queue`, each a least one of those that were left. -/
inductive Drained (r : α → α → Prop) : Multiset α → List α → Prop where
  | empty : Drained r 0 []
  | pop {e : α} {queue : Multiset α} {popped : List α} (hleast : Least r (e ::ₘ queue) e)
      (hrest : Drained r queue popped) : Drained r (e ::ₘ queue) (e :: popped)

variable {queue : Multiset α} {popped : List α}

theorem Drained.coe_eq (h : Drained r queue popped) : (popped : Multiset α) = queue := by
  induction h with
  | empty => rfl
  | pop hleast hrest ih => rw [← ih, Multiset.cons_coe]

theorem Drained.sorted (h : Drained r queue popped) : popped.Pairwise r := by
  induction h with
  | empty => exact List.Pairwise.nil
  | pop hleast hrest ih =>
      apply List.Pairwise.cons _ ih
      intro x hx
      apply hleast.2
      rw [← hrest.coe_eq]
      exact Multiset.mem_cons_of_mem hx

end Draining

end Whosecoin.Library.Heaps

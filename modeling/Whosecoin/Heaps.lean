import Whosecoin.Library.Heaps
import Whosecoin.Library.Outcomes

namespace Whosecoin.Heaps

open Library.Heaps
open Library.Outcomes

/-- A `heap_t` of pointers that are not `NULL`. Of the `capacity` slots, `data` holds the `size`
ones in use. -/
structure Heap (α : Type) where
  size : Nat
  capacity : Nat
  data : Vector α size
  size_le : size ≤ capacity
  capacity_pos : 0 < capacity

def leftChild (i : Nat) : Nat :=
  2 * i + 1

def rightChild (i : Nat) : Nat :=
  2 * i + 2

section Shifts

variable {α : Type} {n : Nat} (compare : α → α → Int)

/-- Exchange the element with its ancestors up to the root, whatever their order. -/
def moveToTop (data : Vector α n) (i : Nat) (hi : i < n) : Vector α n :=
  if _ : 0 < i then
    have hp := parent_lt_of_lt hi
    moveToTop (data.swap (parent i) i hp hi) (parent i) hp
  else data
termination_by i
decreasing_by exact parent_lt ‹0 < i›

/-- Exchange the element with its parent as long as it is less. -/
def shiftUp (data : Vector α n) (i : Nat) (hi : i < n) : Vector α n :=
  if h : 0 < i then
    have hp := parent_lt_of_lt hi
    if compare data[i] data[parent i] < 0 then
      shiftUp (data.swap (parent i) i hp hi) (parent i) hp
    else data
  else data
termination_by i
decreasing_by exact parent_lt h

/-- One of the two tests of `shift_down`, which gives the next `max_i`. -/
def lesser (data : Vector α n) (c maxI : Nat) (hmax : c < n → maxI < n) : Nat :=
  if h : c < n then
    have hm := hmax h
    if compare data[c] data[maxI] < 0 then c else maxI
  else maxI

theorem lesser_cases (data : Vector α n) (c maxI : Nat) (hmax : c < n → maxI < n) :
    (∃ (hc : c < n) (hm : maxI < n), lesser compare data c maxI hmax = c ∧
      compare data[c] data[maxI] < 0) ∨
    (lesser compare data c maxI hmax = maxI ∧
      ∀ (hc : c < n) (hm : maxI < n), ¬ compare data[c] data[maxI] < 0) := by
  rw [lesser]
  by_cases h : c < n
  · rw [dif_pos h]
    dsimp only
    split_ifs with hless
    · exact .inl ⟨h, hmax h, rfl, hless⟩
    · exact .inr ⟨rfl, fun _ _ => hless⟩
  · rw [dif_neg h]
    exact .inr ⟨rfl, fun h' => absurd h' h⟩

theorem left_lt {i : Nat} (h : leftChild i < n) : i < n := by
  rw [leftChild] at h
  omega

theorem lesser_left_lt (data : Vector α n) (i : Nat) (h : rightChild i < n) :
    lesser compare data (leftChild i) i left_lt < n := by
  rw [rightChild] at h
  rcases lesser_cases compare data (leftChild i) i left_lt
    with ⟨hleft, _, heq, -⟩ | ⟨heq, -⟩
  · rw [heq]
    exact hleft
  · rw [heq]
    omega

/-- The final `max_i` of `shift_down`. -/
def maxIndex (data : Vector α n) (i : Nat) : Nat :=
  lesser compare data (rightChild i) (lesser compare data (leftChild i) i left_lt)
    (lesser_left_lt compare data i)

theorem maxIndex_child (data : Vector α n) {i : Nat} (h : i ≠ maxIndex compare data i) :
    Child i (maxIndex compare data i) ∧ maxIndex compare data i < n := by
  rw [maxIndex] at h ⊢
  rcases lesser_cases compare data (rightChild i) _ (lesser_left_lt compare data i) with
    ⟨hright, _, heq, -⟩ | ⟨heq, -⟩
  · rw [heq]
    refine ⟨?_, hright⟩
    rw [Child, parent, rightChild]
    omega
  · rw [heq] at h ⊢
    rcases lesser_cases compare data (leftChild i) i left_lt
      with ⟨hleft, _, heq', -⟩ | ⟨heq', -⟩
    · rw [heq']
      refine ⟨?_, hleft⟩
      rw [Child, parent, leftChild]
      omega
    · exact absurd heq'.symm h

theorem maxIndex_lt (data : Vector α n) {i : Nat} (h : i ≠ maxIndex compare data i) :
    i < maxIndex compare data i ∧ maxIndex compare data i < n :=
  ⟨(maxIndex_child compare data h).1.lt, (maxIndex_child compare data h).2⟩

/-- Exchange the element with the lesser child as long as that is less. -/
def shiftDown (data : Vector α n) (i : Nat) : Vector α n :=
  if h : i ≠ maxIndex compare data i then
    have hm := maxIndex_lt compare data h
    shiftDown (data.swap i (maxIndex compare data i) (hm.1.trans hm.2) hm.2)
      (maxIndex compare data i)
  else data
termination_by n - i
decreasing_by omega

end Shifts

section Operations

variable {α : Type} (compare : α → α → Int) (self : Heap α)

/-- An empty heap has room for four elements. -/
def heapCreate : Heap α where
  size := 0
  capacity := 4
  data := #v[]
  size_le := Nat.zero_le 4
  capacity_pos := Nat.succ_pos 3

def heapGet (i : Nat) : Outcome α :=
  if h : i < self.size then .ok self.data[i] else .error .assertion

/-- The capacity that `heap_add` leaves. -/
def nextCapacity : Nat :=
  if self.size = self.capacity then self.capacity * 2 else self.capacity

theorem nextCapacity_pos : 0 < nextCapacity self := by
  have hpos := self.capacity_pos
  rw [nextCapacity]
  split_ifs <;> omega

theorem succ_le_nextCapacity : self.size + 1 ≤ nextCapacity self := by
  have hsize := self.size_le
  have hpos := self.capacity_pos
  rw [nextCapacity]
  split_ifs <;> omega

/-- The element is put last and moves up. -/
def heapAdd (e : α) : Heap α where
  size := self.size + 1
  capacity := nextCapacity self
  data := shiftUp compare (self.data.push e) self.size (Nat.lt_succ_self self.size)
  size_le := succ_le_nextCapacity self
  capacity_pos := nextCapacity_pos self

/-- `NULL` is `none`. -/
def heapTop : Outcome (Option α) :=
  if self.size = 0 then .ok none else some <$> heapGet self 0

theorem pred_le_capacity : self.size - 1 ≤ self.capacity :=
  (Nat.sub_le _ _).trans self.size_le

/-- The last element takes the place of the first one and moves down. -/
def heapPop : Option α × Heap α :=
  if h : 0 < self.size then
    (some self.data[0],
      { self with
        size := self.size - 1
        data := shiftDown compare ((self.data.set 0 self.data[self.size - 1]).pop) 0
        size_le := pred_le_capacity self })
  else (none, self)

/-- The element is moved to the top and popped. -/
def heapRemove (i : Nat) : Outcome (Option α × Heap α) :=
  if h : i < self.size then .ok (heapPop compare { self with data := moveToTop self.data i h })
  else .error .assertion

end Operations

section Shifting

variable {α : Type} {n : Nat} {compare : α → α → Int}

/-- A comparator that gives a total preorder. -/
structure TotalPreorder (compare : α → α → Int) : Prop where
  flip : ∀ a b, compare a b < 0 ↔ 0 < compare b a
  trans : ∀ a b c, compare a b ≤ 0 → compare b c ≤ 0 → compare a c ≤ 0

/-- The order of the comparator. -/
def NotGreater (compare : α → α → Int) (a b : α) : Prop :=
  compare a b ≤ 0

namespace TotalPreorder

theorem le_of_not_lt (h : TotalPreorder compare) {a b : α} (hab : ¬ compare a b < 0) :
    NotGreater compare b a := by
  rw [h.flip] at hab
  exact not_lt.mp hab

theorem isPreorder (h : TotalPreorder compare) : IsPreorder α (NotGreater compare) where
  refl := by
    intro a
    apply h.le_of_not_lt
    intro hlt
    have hgt := (h.flip a a).mp hlt
    omega
  trans := h.trans

end TotalPreorder

theorem moveToTop_perm (data : Vector α n) (i : Nat) (hi : i < n) :
    (moveToTop data i hi).Perm data := by
  fun_induction moveToTop with
  | case1 data i hi hpos hp ih => exact ih.trans (Vector.swap_perm hp hi)
  | case2 => exact Vector.Perm.rfl

theorem moveToTop_zero (data : Vector α n) (i : Nat) (hi : i < n) (hn : 0 < n) :
    (moveToTop data i hi)[0] = data[i] := by
  fun_induction moveToTop with
  | case1 data i hi hpos hp ih =>
      rw [ih, Vector.getElem_swap_left]
  | case2 data i hi hpos =>
      obtain rfl : i = 0 := by omega
      rfl

theorem moveToTop_sinking [IsPreorder α (NotGreater compare)] (data : Vector α n) (i : Nat)
    (hi : i < n) (h : Sinking (NotGreater compare) data i) :
    Sinking (NotGreater compare) (moveToTop data i hi) 0 := by
  fun_induction moveToTop with
  | case1 data i hi hpos hp ih => exact ih (h.lift hp hi (child_parent hpos))
  | case2 data i hi hpos =>
      obtain rfl : i = 0 := by omega
      exact h

variable (compare) in
theorem shiftUp_perm (data : Vector α n) (i : Nat) (hi : i < n) :
    (shiftUp compare data i hi).Perm data := by
  fun_induction shiftUp with
  | case1 data i hi hpos hp hless ih => exact ih.trans (Vector.swap_perm hp hi)
  | case2 => exact Vector.Perm.rfl
  | case3 => exact Vector.Perm.rfl

theorem shiftUp_ordered (hcmp : TotalPreorder compare) (data : Vector α n) (i : Nat)
    (hi : i < n) (h : Rising (NotGreater compare) data i) :
    Ordered (NotGreater compare) (shiftUp compare data i hi) := by
  have := hcmp.isPreorder
  fun_induction shiftUp with
  | case1 data i hi hpos hp hless ih =>
      exact ih (h.step hp hi (child_parent hpos) hless.le)
  | case2 data i hi hpos hp hless =>
      apply h.stop
      intro p hp' hi' hchild
      obtain rfl := hchild.unique (child_parent hpos)
      exact hcmp.le_of_not_lt hless
  | case3 data i hi hpos =>
      apply h.stop
      intro p hp' hi' hchild
      exact absurd hchild.1 hpos

theorem lesser_least (hcmp : TotalPreorder compare) (data : Vector α n) (c maxI : Nat)
    (hmax : c < n → maxI < n) (hl : lesser compare data c maxI hmax < n) :
    (∀ hm : maxI < n, NotGreater compare data[lesser compare data c maxI hmax] data[maxI]) ∧
      ∀ hc : c < n, NotGreater compare data[lesser compare data c maxI hmax] data[c] := by
  have hrefl := hcmp.isPreorder
  rcases lesser_cases compare data c maxI hmax with ⟨hc, hm, heq, hless⟩ | ⟨heq, hless⟩
  · simp only [heq]
    exact ⟨fun _ => hless.le, fun _ => refl_of (NotGreater compare) _⟩
  · simp only [heq] at hl ⊢
    exact ⟨fun _ => refl_of (NotGreater compare) _, fun hc => hcmp.le_of_not_lt (hless hc hl)⟩

/-- The `max_i` of `shift_down` is the least of the element and its children. -/
theorem maxIndex_least (hcmp : TotalPreorder compare) (data : Vector α n) (i : Nat)
    (hm : maxIndex compare data i < n) (hi : i < n) :
    NotGreater compare data[maxIndex compare data i] data[i] ∧
      ∀ j (hj : j < n), Child i j →
        NotGreater compare data[maxIndex compare data i] data[j] := by
  have htrans := hcmp.isPreorder.trans
  have hleft : lesser compare data (leftChild i) i left_lt < n := by
    rcases lesser_cases compare data (leftChild i) i left_lt with ⟨hc, _, heq, -⟩ | ⟨heq, -⟩
    · rw [heq]
      exact hc
    · rw [heq]
      exact hi
  obtain ⟨hnode, hchild⟩ := lesser_least hcmp data (leftChild i) i left_lt hleft
  obtain ⟨hchosen, hright⟩ := lesser_least hcmp data (rightChild i) _
    (lesser_left_lt compare data i) hm
  refine ⟨htrans _ _ _ (hchosen hleft) (hnode hi), ?_⟩
  intro j hj hdown
  rcases hdown.eq with rfl | rfl
  · exact htrans _ _ _ (hchosen hleft) (hchild hj)
  · exact hright hj

variable (compare) in
theorem shiftDown_perm (data : Vector α n) (i : Nat) :
    (shiftDown compare data i).Perm data := by
  fun_induction shiftDown with
  | case1 data i hne hm ih => exact ih.trans (Vector.swap_perm (hm.1.trans hm.2) hm.2)
  | case2 => exact Vector.Perm.rfl

theorem shiftDown_ordered (hcmp : TotalPreorder compare) (data : Vector α n) (i : Nat)
    (h : Sinking (NotGreater compare) data i) :
    Ordered (NotGreater compare) (shiftDown compare data i) := by
  fun_induction shiftDown with
  | case1 data i hne hm ih =>
      have hi := hm.1.trans hm.2
      obtain ⟨hle, hleast⟩ := maxIndex_least hcmp data i hm.2 hi
      exact ih (h.step hi hm.2 (maxIndex_child compare data hne).1 hle hleast)
  | case2 data i hne =>
      have heq := (not_not.mp hne).symm
      apply h.stop
      intro j hi hj hchild
      have hleast := (maxIndex_least hcmp data i (heq.trans_lt hi) hi).2 j hj hchild
      simp only [heq] at hleast
      exact hleast

end Shifting

section Elements

variable {α : Type} {compare : α → α → Int}

/-- The abstract queue of a heap. -/
def elements (self : Heap α) : Multiset α :=
  (self.data.toList : Multiset α)

theorem mem_elements {self : Heap α} {e : α} :
    e ∈ elements self ↔ ∃ (i : Nat) (hi : i < self.size), self.data[i] = e := by
  rw [elements, Multiset.mem_coe, Vector.mem_toList_iff, Vector.mem_iff_getElem]

theorem elements_eq_zero {self : Heap α} : elements self = 0 ↔ self.size = 0 := by
  rw [elements, Multiset.coe_eq_zero, ← List.length_eq_zero_iff, Vector.length_toList]

theorem cons_dropLast_set_perm (items : List α) (first last : α) (hfirst : items[0]? = some first)
    (hlast : items[items.length - 1]? = some last) :
    (first :: (items.set 0 last).dropLast).Perm items := by
  cases items with
  | nil => cases hfirst
  | cons a rest =>
      cases hfirst
      rw [List.set_cons_zero]
      rcases List.eq_nil_or_concat rest with rfl | ⟨middle, b, rfl⟩
      · exact List.Perm.refl _
      · rw [List.concat_eq_append, List.length_cons, Nat.add_sub_cancel, List.length_append,
          List.length_singleton, List.getElem?_cons_succ, List.getElem?_concat_length] at hlast
        cases hlast
        rw [List.concat_eq_append, ← List.cons_append, List.dropLast_concat]
        exact (List.perm_append_singleton _ _).symm.cons _

theorem heapPop_zero {self : Heap α} (h : self.size = 0) :
    heapPop compare self = (none, self) := by
  rw [heapPop, dif_neg (by omega)]

variable (compare) in
theorem heapPop_pos (self : Heap α) (h : 0 < self.size) :
    ∃ rest, heapPop compare self = (some self.data[0], rest) ∧ rest.size < self.size ∧
      elements self = self.data[0] ::ₘ elements rest ∧
      (TotalPreorder compare → Sinking (NotGreater compare) self.data 0 →
        Ordered (NotGreater compare) rest.data) := by
  rw [heapPop, dif_pos h]
  refine ⟨_, rfl, Nat.sub_lt h Nat.one_pos, ?_, ?_⟩
  · have hdown := (shiftDown_perm compare
      (self.data.set 0 self.data[self.size - 1]).pop 0).toList
    rw [Vector.toList_pop, Vector.toList_set] at hdown
    rw [elements, elements, Multiset.cons_coe, Multiset.coe_eq_coe]
    apply List.Perm.symm
    apply (hdown.cons _).trans
    apply cons_dropLast_set_perm
    · rw [Vector.getElem?_toList, Vector.getElem?_eq_getElem]
    · rw [Vector.length_toList, Vector.getElem?_toList, Vector.getElem?_eq_getElem]
  · intro hcmp hroot
    apply shiftDown_ordered hcmp
    apply hroot.of_root
    intro j hj hpos
    refine ⟨hj.trans_le (Nat.sub_le _ _), ?_⟩
    rw [Vector.getElem_pop, Vector.getElem_set_ne _ _ hpos.ne]

theorem heapPop_some {self rest : Heap α} {e : α} (h : heapPop compare self = (some e, rest)) :
    0 < self.size ∧ rest.size < self.size := by
  rcases Nat.eq_zero_or_pos self.size with hzero | hpos
  · rw [heapPop_zero hzero] at h
    cases h
  · obtain ⟨rest', hpop, hlt, -⟩ := heapPop_pos compare self hpos
    rw [hpop] at h
    cases h
    exact ⟨hpos, hlt⟩

theorem heapTop_pos (self : Heap α) (h : 0 < self.size) :
    heapTop self = .ok (some self.data[0]) := by
  rw [heapTop, if_neg h.ne', heapGet, dif_pos h]
  rfl

theorem heapTop_zero {self : Heap α} (h : self.size = 0) : heapTop self = .ok none :=
  if_pos h

theorem elements_heapAdd (self : Heap α) (e : α) :
    elements (heapAdd compare self e) = e ::ₘ elements self := by
  have hup := (shiftUp_perm compare (self.data.push e) self.size
    (Nat.lt_succ_self _)).toList
  rw [Vector.toList_push] at hup
  rw [elements, elements, Multiset.cons_coe, Multiset.coe_eq_coe]
  exact hup.trans (List.perm_append_singleton e _)

theorem heapAdd_ordered (hcmp : TotalPreorder compare) {self : Heap α}
    (h : Ordered (NotGreater compare) self.data) (e : α) :
    Ordered (NotGreater compare) (heapAdd compare self e).data := by
  exact shiftUp_ordered hcmp _ _ _ (h.rising_push e)

theorem least_root (hcmp : TotalPreorder compare) {self : Heap α}
    (h : Ordered (NotGreater compare) self.data) (hsize : 0 < self.size) :
    Least (NotGreater compare) (elements self) self.data[0] := by
  have := hcmp.isPreorder
  constructor
  · exact mem_elements.mpr ⟨0, hsize, rfl⟩
  · intro x hx
    obtain ⟨i, hi, rfl⟩ := mem_elements.mp hx
    exact h.root_le hsize i hi

end Elements

section Runs

variable {α : Type} {compare : α → α → Int}

inductive Operation (α : Type) where
  | add (e : α)
  | pop
  | top
  | remove (i : Nat)

def step (compare : α → α → Int) (self : Heap α) :
    Operation α → Outcome (Option α × Heap α)
  | .add e => .ok (none, heapAdd compare self e)
  | .pop => .ok (heapPop compare self)
  | .top => return (← heapTop self, self)
  | .remove i => heapRemove compare self i

/-- The index of a removal is that of an element. -/
def Allowed (self : Heap α) : Operation α → Prop
  | .remove i => i < self.size
  | _ => True

/-- The returned element is a least one, or `NULL` when there is none. -/
def ReturnsLeast (compare : α → α → Int) (self : Heap α) (returned : Option α) : Prop :=
  (returned = none ↔ self.size = 0) ∧
    ∀ e ∈ returned, Least (NotGreater compare) (elements self) e

def Answers (compare : α → α → Int) (self : Heap α) (returned : Option α) :
    Operation α → Prop
  | .add _ => returned = none
  | .pop => ReturnsLeast compare self returned
  | .top => ReturnsLeast compare self returned
  | .remove i => ∃ hi : i < self.size, returned = some self.data[i]

/-- The elements that come into the heap. -/
def added : Operation α → Multiset α
  | .add e => {e}
  | _ => 0

/-- The elements that leave the heap when an operation returns. -/
def taken : Operation α × Option α → Multiset α
  | (.pop, some e) => {e}
  | (.remove _, some e) => {e}
  | _ => 0

/-- A run from `heap_create`, with each operation and what it returned. -/
inductive Run (compare : α → α → Int) : List (Operation α × Option α) →
    Heap α → Prop where
  | create : Run compare [] heapCreate
  | step {events : List (Operation α × Option α)} {self next : Heap α}
      {operation : Operation α} {returned : Option α} (hrun : Run compare events self)
      (hstep : step compare self operation = .ok (returned, next)) :
      Run compare (events ++ [(operation, returned)]) next

def allAdded (events : List (Operation α × Option α)) : Multiset α :=
  (events.map fun event => added event.1).sum

def allTaken (events : List (Operation α × Option α)) : Multiset α :=
  (events.map taken).sum

theorem allAdded_concat (events : List (Operation α × Option α))
    (event : Operation α × Option α) :
    allAdded (events ++ [event]) = allAdded events + added event.1 := by
  rw [allAdded, allAdded, List.map_append, List.sum_append, List.map_singleton,
    List.sum_singleton]

theorem allTaken_concat (events : List (Operation α × Option α))
    (event : Operation α × Option α) :
    allTaken (events ++ [event]) = allTaken events + taken event := by
  rw [allTaken, allTaken, List.map_append, List.sum_append, List.map_singleton,
    List.sum_singleton]

theorem returnsLeast_zero {self : Heap α} (h : self.size = 0) :
    ReturnsLeast compare self none := by
  constructor
  · exact ⟨fun _ => h, fun _ => rfl⟩
  · rintro e ⟨⟩

theorem returnsLeast_pos (hcmp : TotalPreorder compare) {self : Heap α}
    (h : Ordered (NotGreater compare) self.data) (hsize : 0 < self.size) :
    ReturnsLeast compare self (some self.data[0]) := by
  constructor
  · exact ⟨fun hnone => (Option.some_ne_none _ hnone).elim, fun hzero => by omega⟩
  · rintro e ⟨⟩
    exact least_root hcmp h hsize

/-- `heap_remove` moves the element to the top and pops it. -/
theorem heapRemove_spec (hcmp : TotalPreorder compare) {self : Heap α}
    (h : Ordered (NotGreater compare) self.data) {i : Nat} (hi : i < self.size) :
    ∃ rest, heapRemove compare self i = .ok (some self.data[i], rest) ∧
      elements self = self.data[i] ::ₘ elements rest ∧
      Ordered (NotGreater compare) rest.data := by
  have := hcmp.isPreorder
  have hsize : 0 < self.size := by omega
  obtain ⟨rest, hpop, -, helements, hordered⟩ := heapPop_pos compare
    { self with data := moveToTop self.data i hi } hsize
  rw [moveToTop_zero _ _ _ hsize] at hpop helements
  refine ⟨rest, ?_, ?_, ?_⟩
  · rw [heapRemove, dif_pos hi, hpop]
  · rw [← helements, elements, elements, Multiset.coe_eq_coe]
    exact (moveToTop_perm self.data i hi).toList.symm
  · exact hordered hcmp (moveToTop_sinking self.data i hi (h.sinking hi))

theorem step_spec (hcmp : TotalPreorder compare) {self : Heap α}
    (h : Ordered (NotGreater compare) self.data) {operation : Operation α}
    (hallowed : Allowed self operation) :
    ∃ returned next, step compare self operation = .ok (returned, next) ∧
      Answers compare self returned operation ∧
      added operation + elements self = taken (operation, returned) + elements next ∧
      Ordered (NotGreater compare) next.data := by
  have := hcmp.isPreorder
  cases operation with
  | add e =>
      refine ⟨none, heapAdd compare self e, rfl, rfl, ?_, heapAdd_ordered hcmp h e⟩
      change {e} + elements self = (0 : Multiset α) + elements (heapAdd compare self e)
      rw [elements_heapAdd, Multiset.singleton_add, zero_add]
  | top =>
      rcases Nat.eq_zero_or_pos self.size with hzero | hpos
      · refine ⟨none, self, ?_, returnsLeast_zero hzero, rfl, h⟩
        rw [step, heapTop_zero hzero]
        rfl
      · refine ⟨some self.data[0], self, ?_, returnsLeast_pos hcmp h hpos, rfl, h⟩
        rw [step, heapTop_pos self hpos]
        rfl
  | pop =>
      rcases Nat.eq_zero_or_pos self.size with hzero | hpos
      · refine ⟨none, self, ?_, returnsLeast_zero hzero, rfl, h⟩
        rw [step, heapPop_zero hzero]
      · obtain ⟨rest, hpop, -, helements, hordered⟩ := heapPop_pos compare self hpos
        refine ⟨_, rest, ?_, returnsLeast_pos hcmp h hpos, ?_, hordered hcmp (h.sinking hpos)⟩
        · rw [step, hpop]
        · change (0 : Multiset α) + elements self = {self.data[0]} + elements rest
          rw [helements, Multiset.singleton_add, zero_add]
  | remove i =>
      obtain ⟨rest, hremove, helements, hordered⟩ := heapRemove_spec hcmp h hallowed
      refine ⟨_, rest, hremove, ⟨hallowed, rfl⟩, ?_, hordered⟩
      change (0 : Multiset α) + elements self = {self.data[i]} + elements rest
      rw [helements, Multiset.singleton_add, zero_add]

theorem allowed_of_step {self next : Heap α} {operation : Operation α} {returned : Option α}
    (h : step compare self operation = .ok (returned, next)) : Allowed self operation := by
  cases operation with
  | remove i =>
      by_contra hi
      have hfault : heapRemove compare self i = .error .assertion := dif_neg hi
      rw [step, hfault] at h
      cases h
  | _ => exact trivial

theorem Run.invariant (hcmp : TotalPreorder compare) {events : List (Operation α × Option α)}
    {self : Heap α} (hrun : Run compare events self) :
    Ordered (NotGreater compare) self.data ∧
      allAdded events = allTaken events + elements self := by
  induction hrun with
  | create =>
      constructor
      · intro p j hp
        exact absurd hp (Nat.not_lt_zero p)
      · rfl
  | step hrun hstep ih =>
      obtain ⟨hordered, hcount⟩ := ih
      obtain ⟨returned, next, heq, -, hmoved, hnext⟩ :=
        step_spec hcmp hordered (allowed_of_step hstep)
      rw [hstep] at heq
      cases heq
      refine ⟨hnext, ?_⟩
      rw [allAdded_concat, allTaken_concat, hcount, add_assoc, add_assoc,
        ← hmoved, add_comm (added _)]

/-- The elements in the order in which `heap_pop` returns them until it returns `NULL`. -/
def popAll (compare : α → α → Int) (self : Heap α) : List α :=
  match h : heapPop compare self with
  | (none, _) => []
  | (some e, rest) =>
      have _ := (heapPop_some h).2
      e :: popAll compare rest
termination_by self.size

theorem popAll_drained (hcmp : TotalPreorder compare) (self : Heap α)
    (h : Ordered (NotGreater compare) self.data) :
    Drained (NotGreater compare) (elements self) (popAll compare self) := by
  fun_induction popAll with
  | case1 self rest hpop =>
      rcases Nat.eq_zero_or_pos self.size with hzero | hpos
      · rw [elements_eq_zero.mpr hzero]
        exact Drained.empty
      · obtain ⟨rest', hsome, -⟩ := heapPop_pos compare self hpos
        rw [hsome] at hpop
        cases hpop
  | case2 self e rest hpop hlt ih =>
      have hpos := (heapPop_some hpop).1
      have := hcmp.isPreorder
      have hleast := least_root hcmp h hpos
      obtain ⟨rest', hsome, -, helements, hordered⟩ := heapPop_pos compare self hpos
      rw [hsome] at hpop
      cases hpop
      rw [helements] at hleast ⊢
      exact Drained.pop hleast (ih (hordered hcmp (h.sinking hpos)))

theorem heap_refines (hcmp : TotalPreorder compare) {events : List (Operation α × Option α)}
    {self : Heap α} (hrun : Run compare events self) :
    Ordered (NotGreater compare) self.data ∧
      allAdded events = allTaken events + elements self ∧
      (∀ operation, Allowed self operation →
        ∃ returned next, step compare self operation = .ok (returned, next) ∧
          Answers compare self returned operation) ∧
      (popAll compare self : Multiset α) = elements self ∧
      (popAll compare self).Pairwise (NotGreater compare) := by
  obtain ⟨hordered, hcount⟩ := hrun.invariant hcmp
  have hdrained := popAll_drained hcmp self hordered
  refine ⟨hordered, hcount, ?_, hdrained.coe_eq, hdrained.sorted⟩
  intro operation hallowed
  obtain ⟨returned, next, hstep, hanswers, -⟩ := step_spec hcmp hordered hallowed
  exact ⟨returned, next, hstep, hanswers⟩

theorem totalPreorder_sub : TotalPreorder fun a b : Int => a - b where
  flip := fun a b => by omega
  trans := fun a b c hab hbc => by omega

theorem heap_refines_two :
    ∃ self : Heap Int, (popAll (fun a b => a - b) self : Multiset Int) = {1, 2} ∧
      (popAll (fun a b => a - b) self).Pairwise (NotGreater fun a b => a - b) ∧
      ∃ returned next, step (fun a b => a - b) self (.remove 1) = .ok (returned, next) := by
  have hrun : Run (fun a b : Int => a - b) [(.add 2, none), (.add 1, none)]
      (heapAdd (fun a b => a - b) (heapAdd (fun a b => a - b) heapCreate 2) 1) :=
    Run.step (Run.step Run.create rfl) rfl
  obtain ⟨-, -, hnext, helements, hsorted⟩ := heap_refines totalPreorder_sub hrun
  obtain ⟨returned, next, hstep, -⟩ := hnext (.remove 1) (Nat.lt_succ_self 1)
  refine ⟨_, ?_, hsorted, returned, next, hstep⟩
  rw [helements, elements_heapAdd, elements_heapAdd]
  rfl

end Runs

end Whosecoin.Heaps

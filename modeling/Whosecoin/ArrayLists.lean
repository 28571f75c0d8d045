import Whosecoin.Library.Outcomes

namespace Whosecoin.ArrayLists

open Library.Outcomes

/-- A `list_t`. Of the `slots` that were last requested from `malloc` or `realloc`, the first
ones hold the elements; `capacity` is what the list takes their number for. -/
structure ArrayList (α : Type) where
  data : List α
  capacity : Nat
  slots : Nat
  length_le : data.length ≤ slots

/-- The slots in a request, whose size in bytes is a `size_t`. -/
def requested (bytes : Nat) : Nat :=
  bytes % 2 ^ 64 / 8

section Functions

variable {α : Type}

theorem length_nil_le (slots : Nat) : ([] : List α).length ≤ slots :=
  Nat.zero_le slots

theorem length_concat_le {data : List α} {slots : Nat} (h : data.length < slots) (e : α) :
    (data ++ [e]).length ≤ slots := by
  rw [List.length_append]
  exact h

theorem length_removed_le {data : List α} {slots : Nat} (h : data.length ≤ slots) (i : Nat) :
    (data.take i ++ data.drop (i + 1)).length ≤ slots := by
  rw [List.length_append, List.length_take, List.length_drop]
  omega

/-- A capacity of zero is taken for one, but the memory is that of the request. -/
def listCreate (α : Type) (initialCapacity : UInt64) : ArrayList α where
  data := []
  capacity := if initialCapacity.toNat < 1 then 1 else initialCapacity.toNat
  slots := requested (initialCapacity.toNat * 8)
  length_le := length_nil_le (requested (initialCapacity.toNat * 8))

/-- The assignment to the slot behind the elements, once there is a capacity. -/
def storeLast (data : List α) (e : α) (capacity slots : Nat) : Outcome (ArrayList α) :=
  if h : data.length < slots then .ok ⟨data ++ [e], capacity, slots, length_concat_le h e⟩
  else .error .outOfBounds

/-- The list doubles when it is full. -/
def listAdd (list : ArrayList α) (e : α) : Outcome (ArrayList α) :=
  if list.data.length < list.capacity then storeLast list.data e list.capacity list.slots
  else
    storeLast list.data e (list.capacity * 2 % 2 ^ 64) (requested (8 * list.capacity * 2))

/-- The index is asserted to be that of an element. -/
def listGet (list : ArrayList α) (i : Nat) : Outcome α :=
  if h : i < list.data.length then .ok list.data[i] else .error .assertion

/-- The `memmove` stays within the elements. -/
def listRemove (list : ArrayList α) (i : Nat) : Outcome (α × ArrayList α) :=
  if h : i < list.data.length then
    .ok (list.data[i],
      { list with
        data := list.data.take i ++ list.data.drop (i + 1)
        length_le := length_removed_le list.length_le i })
  else .error .assertion

/-- Without a comparator the pointers are compared. -/
def listFind [DecidableEq α] (list : ArrayList α) (e : α) (cmp : Option (α → α → Int)) :
    Nat :=
  match cmp with
  | none => list.data.findIdx fun x => x = e
  | some cmp => list.data.findIdx fun x => cmp x e = 0

end Functions

section Sequences

variable {α : Type} [DecidableEq α]

inductive Operation (α : Type) where
  | add (e : α)
  | get (i : Nat)
  | remove (i : Nat)
  | find (e : α) (cmp : Option (α → α → Int))

inductive Answer (α : Type) where
  | done
  | element (e : α)
  | index (i : Nat)

def step (list : ArrayList α) : Operation α → Outcome (Answer α × ArrayList α)
  | .add e => do return (.done, ← listAdd list e)
  | .get i => do return (.element (← listGet list i), list)
  | .remove i => do
      let (e, list) ← listRemove list i
      return (.element e, list)
  | .find e cmp => return (.index (listFind list e cmp), list)

def run (list : ArrayList α) : List (Operation α) → Outcome (List (Answer α) × ArrayList α)
  | [] => .ok ([], list)
  | operation :: operations => do
      let (answer, list) ← step list operation
      let (answers, list) ← run list operations
      return (answer :: answers, list)

/-- The index of the operation is one of the sequence. -/
def Valid (sequence : List α) : Operation α → Prop
  | .get i => i < sequence.length
  | .remove i => i < sequence.length
  | _ => True

/-- What a sequence becomes. -/
def sequenceAfter (sequence : List α) : Operation α → List α
  | .add e => sequence ++ [e]
  | .remove i => sequence.eraseIdx i
  | _ => sequence

/-- What is to be answered from a sequence. -/
def Answers (sequence : List α) : Operation α → Answer α → Prop
  | .add _, answer => answer = .done
  | .get i, answer => ∃ e, sequence[i]? = some e ∧ answer = .element e
  | .remove i, answer => ∃ e, sequence[i]? = some e ∧ answer = .element e
  | .find e none, answer =>
      ∃ i ≤ sequence.length, answer = .index i ∧ (∀ x ∈ sequence.take i, x ≠ e) ∧
        ∀ x, sequence[i]? = some x → x = e
  | .find e (some cmp), answer =>
      ∃ i ≤ sequence.length, answer = .index i ∧
        (∀ x ∈ sequence.take i, cmp x e ≠ 0) ∧
        ∀ x, sequence[i]? = some x → cmp x e = 0

def AllValid (sequence : List α) : List (Operation α) → Prop
  | [] => True
  | operation :: operations =>
      Valid sequence operation ∧ AllValid (sequenceAfter sequence operation) operations

/-- The answers are those of the sequence, which is `last` in the end. -/
def Behaves (sequence last : List α) : List (Operation α) → List (Answer α) → Prop
  | [], answers => answers = [] ∧ last = sequence
  | operation :: operations, answers =>
      ∃ answer rest, answers = answer :: rest ∧ Answers sequence operation answer ∧
        Behaves (sequenceAfter sequence operation) last operations rest

/-- The operations return what they should, and no access is outside the requested slots. -/
def Refines (list : ArrayList α) (operations : List (Operation α)) : Prop :=
  ∃ answers last, run list operations = .ok (answers, last) ∧
    Behaves list.data last.data operations answers

/-- A list made for `c` elements can hold one more than `size`: some doubled capacity exceeds
`size` while its slots can be requested. -/
def HasSlot (c size : Nat) : Prop :=
  (∃ k, size < c * 2 ^ k ∧ c * 2 ^ k < 2 ^ 61) ∨ (2 ^ 61 ≤ c ∧ size < c % 2 ^ 61)

/-- Every addition is to a sequence of a size that leaves a slot. -/
def HaveSlots (c : Nat) (sequence : List α) : List (Operation α) → Prop
  | [] => True
  | operation :: operations =>
      (∀ e, operation = .add e → HasSlot c sequence.length) ∧
        HaveSlots c (sequenceAfter sequence operation) operations

end Sequences

section Additions

variable {α : Type} {c : Nat} {list next : ArrayList α}

/-- The capacity and the slots of a list that was made for `c` elements. -/
def Allocated (c : Nat) (list : ArrayList α) : Prop :=
  (list.capacity = list.slots ∧ 0 < c ∧ ∃ k, list.slots = c * 2 ^ k ∧
    c * 2 ^ k < 2 ^ 61) ∨
    (c = 0 ∧ list.slots = 0 ∧ list.capacity = 1) ∨
    (2 ^ 61 ≤ c ∧ list.slots = c % 2 ^ 61 ∧ list.capacity = c)

theorem requested_eq (n : Nat) : requested (n * 8) = n % 2 ^ 61 := by
  rw [requested]
  omega

theorem allocated_listCreate (initialCapacity : UInt64) :
    Allocated initialCapacity.toNat (listCreate α initialCapacity) := by
  have hslots : (listCreate α initialCapacity).slots = initialCapacity.toNat % 2 ^ 61 :=
    requested_eq _
  have hcapacity : (listCreate α initialCapacity).capacity =
      if initialCapacity.toNat < 1 then 1 else initialCapacity.toNat := rfl
  rw [Allocated, hslots, hcapacity]
  generalize initialCapacity.toNat = n
  rcases Nat.eq_zero_or_pos n with rfl | hpos
  · exact .inr (.inl ⟨rfl, rfl, rfl⟩)
  · rw [if_neg (by omega)]
    by_cases hsmall : n < 2 ^ 61
    · rw [Nat.mod_eq_of_lt hsmall]
      exact .inl ⟨rfl, hpos, 0, by rw [pow_zero, Nat.mul_one], by rwa [pow_zero, Nat.mul_one]⟩
    · exact .inr (.inr ⟨not_lt.mp hsmall, rfl, rfl⟩)

theorem storeLast_returns_iff {data : List α} {e : α} {capacity slots : Nat} :
    Returns (storeLast data e capacity slots) ↔ data.length < slots := by
  rw [storeLast]
  split_ifs with h
  · exact ⟨fun _ => h, fun _ => returns_ok _⟩
  · exact ⟨fun hreturns => absurd hreturns (not_returns_error _), fun hlt => absurd hlt h⟩

theorem storeLast_ok {data : List α} {e : α} {capacity slots : Nat}
    (h : storeLast data e capacity slots = .ok next) :
    next.data = data ++ [e] ∧ next.capacity = capacity ∧ next.slots = slots := by
  rw [storeLast] at h
  split_ifs at h
  cases h
  exact ⟨rfl, rfl, rfl⟩

theorem requested_double {n : Nat} (h : n < 2 ^ 61) :
    requested (8 * n * 2) = if n * 2 < 2 ^ 61 then n * 2 else n * 2 - 2 ^ 61 := by
  rw [requested]
  split_ifs <;> omega

theorem not_hasSlot_zero (size : Nat) : ¬ HasSlot 0 size := by
  rintro (⟨k, hlt, -⟩ | ⟨hlarge, -⟩)
  · rw [Nat.zero_mul] at hlt
    exact Nat.not_lt_zero size hlt
  · omega

theorem hasSlot_large_iff (h : 2 ^ 61 ≤ c) (size : Nat) :
    HasSlot c size ↔ size < c % 2 ^ 61 := by
  constructor
  · rintro (⟨k, -, hfit⟩ | ⟨-, hlt⟩)
    · have hmono := Nat.le_mul_of_pos_right c (Nat.two_pow_pos k)
      omega
    · exact hlt
  · intro hlt
    exact .inr ⟨h, hlt⟩

/-- A full list can be doubled, or there is no slot for one more. -/
theorem hasSlot_full_iff {k : Nat} (hpos : 0 < c) (hfit : c * 2 ^ k < 2 ^ 61) :
    HasSlot c (c * 2 ^ k) ↔ c * 2 ^ k * 2 < 2 ^ 61 := by
  constructor
  · rintro (⟨k', hlt, hfit'⟩ | ⟨hlarge, -⟩)
    · have hexp : k < k' := by
        by_contra hge
        have hmono := Nat.mul_le_mul_left c (Nat.pow_le_pow_right two_pos (not_lt.mp hge))
        omega
      have hdouble := Nat.mul_le_mul_left c (Nat.pow_le_pow_right two_pos hexp)
      rw [Nat.succ_eq_add_one, pow_succ, ← Nat.mul_assoc] at hdouble
      omega
    · have hmono := Nat.le_mul_of_pos_right c (Nat.two_pow_pos k)
      omega
  · intro hdouble
    have hslot := Nat.mul_pos hpos (Nat.two_pow_pos k)
    left
    refine ⟨k + 1, ?_⟩
    rw [pow_succ, ← Nat.mul_assoc]
    omega

theorem listAdd_returns_iff (halloc : Allocated c list) (e : α) :
    Returns (listAdd list e) ↔ HasSlot c list.data.length := by
  have hle := list.length_le
  rw [listAdd]
  rcases halloc with ⟨hcapacity, hpos, k, hslots, hfit⟩ | ⟨rfl, hslots, hcapacity⟩ |
    ⟨hlarge, hslots, hcapacity⟩
  · split_ifs with hroom
    · rw [storeLast_returns_iff]
      exact ⟨fun hlt => .inl ⟨k, by omega, hfit⟩, fun _ => by omega⟩
    · have hfull : list.data.length = c * 2 ^ k := by omega
      rw [storeLast_returns_iff, hcapacity, hslots, requested_double hfit, hfull,
        hasSlot_full_iff hpos hfit]
      have hslot := Nat.mul_pos hpos (Nat.two_pow_pos k)
      split_ifs <;> omega
  · rw [if_pos (by omega), storeLast_returns_iff]
    exact iff_of_false (by omega) (not_hasSlot_zero _)
  · rw [if_pos (by omega), storeLast_returns_iff, hslots, hasSlot_large_iff hlarge]

theorem listAdd_spec (halloc : Allocated c list) {e : α} (h : listAdd list e = .ok next) :
    next.data = list.data ++ [e] ∧ Allocated c next := by
  have hle := list.length_le
  rw [listAdd] at h
  split_ifs at h with hroom
  · obtain ⟨hdata, hcapacity, hslots⟩ := storeLast_ok h
    refine ⟨hdata, ?_⟩
    rw [Allocated, hcapacity, hslots]
    exact halloc
  · have hlt := storeLast_returns_iff.mp ⟨next, h⟩
    obtain ⟨hdata, hcapacity, hslots⟩ := storeLast_ok h
    refine ⟨hdata, ?_⟩
    rcases halloc with ⟨hsame, hpos, k, hk, hfit⟩ | ⟨-, hzero, hone⟩ |
      ⟨hlarge, hslots', hlong⟩
    · rw [hsame, hk, requested_double hfit] at hlt
      rw [hsame, hk] at hcapacity
      rw [hsame, hk, requested_double hfit] at hslots
      left
      split_ifs at hlt hslots with hdouble
      · refine ⟨?_, hpos, k + 1, ?_, ?_⟩
        · rw [hcapacity, hslots, Nat.mod_eq_of_lt (by omega)]
        · rw [hslots, pow_succ, Nat.mul_assoc]
        · rwa [pow_succ, ← Nat.mul_assoc]
      · omega
    · omega
    · omega

end Additions

section Runs

variable {α : Type} {c : Nat} {list next : ArrayList α}

theorem listRemove_spec {i : Nat} (h : i < list.data.length) :
    ∃ next, listRemove list i = .ok (list.data[i], next) ∧ next.data = list.data.eraseIdx i ∧
      next.capacity = list.capacity ∧ next.slots = list.slots := by
  rw [listRemove, dif_pos h]
  exact ⟨_, rfl, (List.eraseIdx_eq_take_drop_succ _ _).symm, rfl, rfl⟩

theorem findIdx_first {p : α → Prop} [DecidablePred p] (data : List α) :
    data.findIdx (fun x => p x) ≤ data.length ∧
      (∀ x ∈ data.take (data.findIdx fun x => p x), ¬ p x) ∧
      ∀ x, data[data.findIdx fun x => p x]? = some x → p x := by
  refine ⟨List.findIdx_le_length, ?_, ?_⟩
  · intro x hx
    obtain ⟨i, hi, rfl⟩ := List.mem_take_iff_getElem.mp hx
    have hbefore := List.not_of_lt_findIdx (lt_of_lt_of_le hi (Nat.min_le_left _ _))
    exact of_decide_eq_false hbefore
  · intro x hx
    obtain ⟨hlt, rfl⟩ := List.getElem?_eq_some_iff.mp hx
    have hfound := List.findIdx_getElem (w := hlt)
    exact of_decide_eq_true hfound

variable [DecidableEq α]

theorem answers_listFind (e : α) (cmp : Option (α → α → Int)) :
    Answers list.data (.find e cmp) (.index (listFind list e cmp)) := by
  cases cmp with
  | none =>
      obtain ⟨hle, hbefore, hfound⟩ := findIdx_first (p := fun x => x = e) list.data
      exact ⟨_, hle, rfl, hbefore, hfound⟩
  | some cmp =>
      obtain ⟨hle, hbefore, hfound⟩ := findIdx_first (p := fun x => cmp x e = 0) list.data
      exact ⟨_, hle, rfl, hbefore, hfound⟩

theorem step_spec (halloc : Allocated c list) {operation : Operation α}
    (hvalid : Valid list.data operation)
    (hslot : ∀ e, operation = .add e → HasSlot c list.data.length) :
    ∃ answer next, step list operation = .ok (answer, next) ∧
      Answers list.data operation answer ∧ next.data = sequenceAfter list.data operation ∧
      Allocated c next := by
  cases operation with
  | add e =>
      obtain ⟨next, hadd⟩ := (listAdd_returns_iff halloc e).mpr (hslot e rfl)
      obtain ⟨hdata, halloc'⟩ := listAdd_spec halloc hadd
      refine ⟨.done, next, ?_, rfl, hdata, halloc'⟩
      rw [step, hadd]
      rfl
  | get i =>
      have hi : i < list.data.length := hvalid
      refine ⟨.element list.data[i], list, ?_,
        ⟨_, List.getElem?_eq_getElem hi, rfl⟩, rfl, halloc⟩
      rw [step, listGet, dif_pos hi]
      rfl
  | remove i =>
      have hi : i < list.data.length := hvalid
      obtain ⟨next, hremove, hdata, hcapacity, hslots⟩ := listRemove_spec hi
      refine ⟨.element list.data[i], next, ?_,
        ⟨_, List.getElem?_eq_getElem hi, rfl⟩, hdata, ?_⟩
      · rw [step, hremove]
        rfl
      · rw [Allocated, hcapacity, hslots]
        exact halloc
  | find e cmp => exact ⟨_, list, rfl, answers_listFind e cmp, rfl, halloc⟩

theorem hasSlot_of_step (halloc : Allocated c list) {operation : Operation α}
    (h : Returns (step list operation)) (e : α) (hadd : operation = .add e) :
    HasSlot c list.data.length := by
  subst hadd
  rw [step, returns_bind] at h
  obtain ⟨next, hnext, -⟩ := h
  exact (listAdd_returns_iff halloc e).mp ⟨next, hnext⟩

theorem run_cons {operation : Operation α} {operations : List (Operation α)} {answer : Answer α}
    (hstep : step list operation = .ok (answer, next)) :
    run list (operation :: operations) = do
      let (answers, last) ← run next operations
      return (answer :: answers, last) := by
  rw [run, hstep]
  rfl

theorem refines_cons_iff {operation : Operation α} {operations : List (Operation α)}
    {answer : Answer α} (hstep : step list operation = .ok (answer, next))
    (hanswers : Answers list.data operation answer)
    (hdata : next.data = sequenceAfter list.data operation) :
    Refines list (operation :: operations) ↔ Refines next operations := by
  constructor
  · rintro ⟨_, last, hrun, first, rest, rfl, -, hbehaves⟩
    rw [run_cons hstep, bind_eq_ok] at hrun
    obtain ⟨⟨answers, last'⟩, hrest, heq⟩ := hrun
    cases heq
    rw [← hdata] at hbehaves
    exact ⟨rest, last, hrest, hbehaves⟩
  · rintro ⟨answers, last, hrun, hbehaves⟩
    refine ⟨answer :: answers, last, ?_, answer, answers, rfl, hanswers, ?_⟩
    · rw [run_cons hstep, hrun]
      rfl
    · rw [← hdata]
      exact hbehaves

theorem refines_iff (halloc : Allocated c list) (operations : List (Operation α))
    (hvalid : AllValid list.data operations) :
    Refines list operations ↔ HaveSlots c list.data operations := by
  induction operations generalizing list with
  | nil => exact ⟨fun _ => trivial, fun _ => ⟨[], list, rfl, rfl, rfl⟩⟩
  | cons operation operations ih =>
      rw [HaveSlots]
      constructor
      · intro h
        obtain ⟨answers, last, hrun, -⟩ := id h
        rw [run, bind_eq_ok] at hrun
        obtain ⟨stepped, hstepped, -⟩ := hrun
        have hslot := hasSlot_of_step halloc ⟨stepped, hstepped⟩
        obtain ⟨answer, next, hstep, hanswers, hdata, halloc'⟩ :=
          step_spec halloc hvalid.1 hslot
        refine ⟨hslot, ?_⟩
        rw [refines_cons_iff hstep hanswers hdata] at h
        rw [← hdata]
        exact (ih halloc' (hdata ▸ hvalid.2)).mp h
      · rintro ⟨hslot, hrest⟩
        obtain ⟨answer, next, hstep, hanswers, hdata, halloc'⟩ :=
          step_spec halloc hvalid.1 hslot
        rw [refines_cons_iff hstep hanswers hdata, ih halloc' (hdata ▸ hvalid.2), hdata]
        exact hrest

theorem list_refines_iff (initialCapacity : UInt64) (operations : List (Operation α))
    (hvalid : AllValid [] operations) :
    Refines (listCreate α initialCapacity) operations ↔
      HaveSlots initialCapacity.toNat [] operations :=
  refines_iff (allocated_listCreate initialCapacity) operations hvalid

theorem list_refines_iff_one :
    Refines (listCreate Nat 1) [.add 5, .add 6, .remove 0, .find 6 none, .get 0] := by
  refine (list_refines_iff 1 _ ?_).mpr ?_
  · exact ⟨trivial, trivial, Nat.zero_lt_two, trivial, Nat.one_pos, trivial⟩
  · have hslot : ∀ size < 2, HasSlot 1 size := by
      intro size hsize
      exact .inl ⟨1, by omega, by norm_num⟩
    exact ⟨fun _ _ => hslot 0 (by norm_num), fun _ _ => hslot 1 (by norm_num),
      nofun, nofun, nofun, trivial⟩

theorem first_add_outside :
    listAdd (listCreate Nat 0) 5 = .error .outOfBounds ∧
      ¬ Refines (listCreate Nat 0) [.add 5] := by
  refine ⟨rfl, ?_⟩
  rintro ⟨answers, last, hrun, -⟩
  cases hrun

end Runs

end Whosecoin.ArrayLists

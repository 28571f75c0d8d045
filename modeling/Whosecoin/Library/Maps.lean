import Mathlib

namespace Whosecoin.Library.Maps

/-- A finite map kept as its entries in the order in which their keys were
first set. -/
abbrev Map (κ ν : Type*) := List (κ × ν)

namespace Map

variable {κ ν : Type*} [DecidableEq κ]

/-- The value of the first entry of a key. -/
def get : Map κ ν → κ → Option ν
  | [], _ => none
  | (k, v) :: entries, key => if k = key then some v else get entries key

/-- Overwrite the entry of a key, or append one when there is none. -/
def set : Map κ ν → κ → ν → Map κ ν
  | [], key, val => [(key, val)]
  | (k, v) :: entries, key, val =>
      if k = key then (key, val) :: entries else (k, v) :: set entries key val

@[simp] theorem get_nil (key : κ) : get ([] : Map κ ν) key = none :=
  rfl

@[simp] theorem get_set_self (m : Map κ ν) (key : κ) (val : ν) :
    (m.set key val).get key = some val := by
  induction m with
  | nil => simp [set, get]
  | cons entry entries ih =>
      rcases entry with ⟨k, v⟩
      by_cases h : k = key <;> simp [set, get, h, ih]

theorem get_set_of_ne (m : Map κ ν) {key key' : κ} (val : ν) (h : key' ≠ key) :
    (m.set key val).get key' = m.get key' := by
  induction m with
  | nil => simp [set, get, h.symm]
  | cons entry entries ih =>
      rcases entry with ⟨k, v⟩
      by_cases hk : k = key
      · subst hk
        simp [set, get, h.symm]
      · simp [set, get, hk, ih]

theorem get_set (m : Map κ ν) (key key' : κ) (val : ν) :
    (m.set key val).get key' = if key' = key then some val else m.get key' := by
  by_cases h : key' = key
  · simp [h]
  · simp [h, get_set_of_ne m val h]

theorem set_of_get_eq_none {m : Map κ ν} {key : κ} (val : ν) (h : m.get key = none) :
    m.set key val = m ++ [(key, val)] := by
  induction m with
  | nil => rfl
  | cons entry entries ih =>
      rcases entry with ⟨k, v⟩
      by_cases hk : k = key
      · simp [get, hk] at h
      · simp only [get, hk, if_false] at h
        simp [set, hk, ih h]

theorem mem_set {m : Map κ ν} {key : κ} {val : ν} {entry : κ × ν}
    (h : entry ∈ m.set key val) :
    entry = (key, val) ∨ entry ∈ m := by
  induction m with
  | nil => exact Or.inl (List.mem_singleton.mp h)
  | cons first entries ih =>
      rcases first with ⟨k, v⟩
      by_cases hk : k = key
      · simp only [set, hk, if_true, List.mem_cons] at h
        exact h.imp_right (List.mem_cons_of_mem _)
      · simp only [set, hk, if_false, List.mem_cons] at h
        rcases h with rfl | h
        · exact Or.inr List.mem_cons_self
        · exact (ih h).imp_right (List.mem_cons_of_mem _)

theorem mem_of_get_eq_some {m : Map κ ν} {key : κ} {val : ν} (h : m.get key = some val) :
    (key, val) ∈ m := by
  induction m with
  | nil => simp at h
  | cons entry entries ih =>
      rcases entry with ⟨k, v⟩
      by_cases hk : k = key
      · simp only [get, hk, if_true, Option.some.injEq] at h
        simp [hk, h]
      · simp only [get, hk, if_false] at h
        exact List.mem_cons_of_mem _ (ih h)

theorem get_eq_none_iff (m : Map κ ν) (key : κ) :
    m.get key = none ↔ ∀ val, (key, val) ∉ m := by
  induction m with
  | nil => simp
  | cons entry entries ih =>
      rcases entry with ⟨k, v⟩
      by_cases hk : k = key
      · subst hk
        simp only [get, if_true, reduceCtorEq, false_iff, not_forall, not_not]
        exact ⟨v, List.mem_cons_self⟩
      · have hne : ∀ val, (key, val) ≠ (k, v) := fun val h => hk (congrArg Prod.fst h).symm
        simp [get, hk, ih, hne]

theorem get_of_mem {m : Map κ ν} (hnodup : (m.map Prod.fst).Nodup) {key : κ} {val : ν}
    (h : (key, val) ∈ m) : m.get key = some val := by
  induction m with
  | nil => simp at h
  | cons entry entries ih =>
      rcases entry with ⟨k, v⟩
      simp only [List.map_cons, List.nodup_cons] at hnodup
      rcases List.mem_cons.mp h with heq | hmem
      · rw [Prod.mk.injEq] at heq
        simp [get, heq.1, heq.2]
      · have hk : k ≠ key := by
          rintro rfl
          exact hnodup.1 (List.mem_map.mpr ⟨(k, val), hmem, rfl⟩)
        simp [get, hk, ih hnodup.2 hmem]

section Collections

variable {ι : Type*} (key : ι → κ) (value : ι → ν)

/-- Setting one entry for each item, in order. -/
def setAll (m : Map κ ν) (items : List ι) : Map κ ν :=
  items.foldl (fun m i => m.set (key i) (value i)) m

variable {key value}

theorem setAll_cons (m : Map κ ν) (i : ι) (items : List ι) :
    setAll key value m (i :: items) = setAll key value (m.set (key i) (value i)) items :=
  rfl

theorem get_setAll_isSome (m : Map κ ν) (items : List ι) (k : κ) :
    ((setAll key value m items).get k).isSome ↔
    (m.get k).isSome ∨ ∃ i ∈ items, key i = k := by
  induction items generalizing m with
  | nil => simp [setAll]
  | cons i items ih =>
      rw [setAll_cons, ih, get_set]
      split_ifs with h
      · simp [h]
      · simp [Ne.symm h]

theorem get_setAll_eq_some {m : Map κ ν} {items : List ι} {k : κ} {v : ν}
    (h : (setAll key value m items).get k = some v) :
    m.get k = some v ∨ ∃ i ∈ items, key i = k ∧ value i = v := by
  induction items generalizing m with
  | nil => exact Or.inl h
  | cons i items ih =>
      rw [setAll_cons] at h
      rcases ih h with hget | ⟨j, hj, hkey, hvalue⟩
      · rw [get_set] at hget
        split_ifs at hget with hk
        · exact Or.inr ⟨i, List.mem_cons_self, hk.symm, Option.some.inj hget⟩
        · exact Or.inl hget
      · exact Or.inr ⟨j, List.mem_cons_of_mem _ hj, hkey, hvalue⟩

end Collections

end Map

end Whosecoin.Library.Maps

import Mathlib

namespace Whosecoin.Library.Dictionaries

structure Entry (κ ν : Type) where
  key : κ
  val : ν

variable {κ ν : Type} (same : κ → κ → Prop) [DecidableRel same]

section Definitions

variable (entries : List (Entry κ ν)) (key : κ)

/-- The index of the first entry whose key is the same, the length if there is none. -/
def find : Nat :=
  entries.findIdx fun e => decide (same e.key key)

/-- The value of the first entry of a key. -/
def get : Option ν :=
  entries[find same entries key]?.map Entry.val

/-- Overwrite the entry of a key, or append one when there is none. -/
def put (val : ν) : List (Entry κ ν) :=
  if find same entries key = entries.length then entries ++ [⟨key, val⟩]
  else entries.set (find same entries key) ⟨key, val⟩

def remove : List (Entry κ ν) :=
  entries.eraseIdx (find same entries key)

end Definitions

/-- No two entries have the same key. -/
def Distinct (entries : List (Entry κ ν)) : Prop :=
  entries.Pairwise fun e e' => ¬ same e.key e'.key

section Finding

variable {same}

theorem find_cons_same {e : Entry κ ν} {key : κ} (h : same e.key key)
    (entries : List (Entry κ ν)) : find same (e :: entries) key = 0 := by
  simp [find, List.findIdx_cons, h]

theorem find_cons_other {e : Entry κ ν} {key : κ} (h : ¬ same e.key key)
    (entries : List (Entry κ ν)) :
    find same (e :: entries) key = find same entries key + 1 := by
  simp [find, List.findIdx_cons, h]

theorem find_lt {entries : List (Entry κ ν)} {key : κ}
    (h : ¬ find same entries key = entries.length) : find same entries key < entries.length :=
  lt_of_le_of_ne List.findIdx_le_length h

@[simp] theorem get_nil (key : κ) : get same ([] : List (Entry κ ν)) key = none :=
  rfl

theorem get_cons_same {e : Entry κ ν} {key : κ} (h : same e.key key)
    (entries : List (Entry κ ν)) : get same (e :: entries) key = some e.val := by
  rw [get, find_cons_same h]
  rfl

theorem get_cons_other {e : Entry κ ν} {key : κ} (h : ¬ same e.key key)
    (entries : List (Entry κ ν)) : get same (e :: entries) key = get same entries key := by
  rw [get, find_cons_other h]
  rfl

theorem get_of_absent {entries : List (Entry κ ν)} {key : κ}
    (h : find same entries key = entries.length) : get same entries key = none := by
  rw [get, h, List.getElem?_length]
  rfl

theorem get_of_present {entries : List (Entry κ ν)} {key : κ}
    (h : find same entries key < entries.length) :
    get same entries key = some entries[find same entries key].val := by
  rw [get, List.getElem?_eq_getElem h]
  rfl

theorem get_eq_none_iff {entries : List (Entry κ ν)} {key : κ} :
    get same entries key = none ↔ ∀ e ∈ entries, ¬ same e.key key := by
  induction entries with
  | nil => simp
  | cons e entries ih =>
      rw [List.forall_mem_cons]
      by_cases h : same e.key key
      · simp [get_cons_same h, h]
      · rw [get_cons_other h, ih]
        exact ⟨fun hall => ⟨h, hall⟩, fun hall => hall.2⟩

theorem get_of_mem (hsame : Equivalence same) {entries : List (Entry κ ν)}
    (hdistinct : Distinct same entries) {e : Entry κ ν} (he : e ∈ entries) :
    get same entries e.key = some e.val := by
  induction entries with
  | nil => exact absurd he List.not_mem_nil
  | cons first entries ih =>
      rw [Distinct, List.pairwise_cons] at hdistinct
      rcases List.mem_cons.mp he with rfl | he
      · exact get_cons_same (hsame.refl _) entries
      · rw [get_cons_other (hdistinct.1 e he)]
        exact ih hdistinct.2 he

theorem find_eq_length_iff {entries : List (Entry κ ν)} {key : κ} :
    find same entries key = entries.length ↔ get same entries key = none := by
  constructor
  · exact get_of_absent
  · intro hget
    by_contra h
    rw [get_of_present (find_lt h)] at hget
    cases hget

theorem put_nil (key : κ) (val : ν) : put same [] key val = [⟨key, val⟩] :=
  rfl

theorem put_cons_same {e : Entry κ ν} {key : κ} (h : same e.key key)
    (entries : List (Entry κ ν)) (val : ν) :
    put same (e :: entries) key val = ⟨key, val⟩ :: entries := by
  rw [put, find_cons_same h, List.length_cons, if_neg (Nat.succ_ne_zero _).symm]
  rfl

theorem put_cons_other {e : Entry κ ν} {key : κ} (h : ¬ same e.key key)
    (entries : List (Entry κ ν)) (val : ν) :
    put same (e :: entries) key val = e :: put same entries key val := by
  rw [put, put, find_cons_other h, List.length_cons]
  by_cases hend : find same entries key = entries.length
  · rw [if_pos hend, if_pos (congrArg (· + 1) hend), List.cons_append]
  · rw [if_neg hend, if_neg (fun h' => hend (Nat.succ.inj h')), List.set_cons_succ]

theorem remove_nil (key : κ) : remove same ([] : List (Entry κ ν)) key = [] :=
  rfl

theorem remove_cons_same {e : Entry κ ν} {key : κ} (h : same e.key key)
    (entries : List (Entry κ ν)) : remove same (e :: entries) key = entries := by
  rw [remove, find_cons_same h]
  rfl

theorem remove_cons_other {e : Entry κ ν} {key : κ} (h : ¬ same e.key key)
    (entries : List (Entry κ ν)) :
    remove same (e :: entries) key = e :: remove same entries key := by
  rw [remove, find_cons_other h]
  rfl

theorem remove_of_absent {entries : List (Entry κ ν)} {key : κ}
    (h : find same entries key = entries.length) : remove same entries key = entries := by
  rw [remove, h, List.eraseIdx_of_length_le le_rfl]

theorem mem_put {entries : List (Entry κ ν)} {key : κ} {val : ν} {e : Entry κ ν}
    (h : e ∈ put same entries key val) : e = ⟨key, val⟩ ∨ e ∈ entries := by
  rw [put] at h
  split_ifs at h
  · exact (List.mem_append.mp h).symm.imp_left List.mem_singleton.mp
  · exact (List.mem_or_eq_of_mem_set h).symm

theorem mem_of_mem_remove {entries : List (Entry κ ν)} {key : κ} {e : Entry κ ν}
    (h : e ∈ remove same entries key) : e ∈ entries :=
  List.mem_of_mem_eraseIdx h

variable (same) in
theorem length_put (entries : List (Entry κ ν)) (key : κ) (val : ν) :
    (put same entries key val).length =
      if get same entries key = none then entries.length + 1 else entries.length := by
  rw [put]
  split_ifs with hend hget hget
  · simp
  · exact absurd (get_of_absent hend) hget
  · exact absurd (find_eq_length_iff.mpr hget) hend
  · simp

variable (same) in
theorem length_remove (entries : List (Entry κ ν)) (key : κ) :
    (remove same entries key).length + (if get same entries key = none then 0 else 1) =
      entries.length := by
  rw [remove]
  by_cases hend : find same entries key = entries.length
  · rw [if_pos (get_of_absent hend), hend, List.eraseIdx_of_length_le le_rfl, add_zero]
  · have hlt := find_lt hend
    rw [if_neg fun hget => hend (find_eq_length_iff.mpr hget), List.length_eraseIdx_of_lt hlt]
    omega

end Finding

section Equivalence

variable {same} (hsame : Equivalence same)
include hsame

theorem get_cons_of_not_same {e : Entry κ ν} {entries entries' : List (Entry κ ν)}
    {key other : κ} {val : Option ν} (he : ¬ same e.key key)
    (h : get same entries' other = if same key other then val else get same entries other) :
    get same (e :: entries') other =
      if same key other then val else get same (e :: entries) other := by
  by_cases he' : same e.key other
  · have hne : ¬ same key other := fun h' => he (hsame.trans he' (hsame.symm h'))
    rw [get_cons_same he', if_neg hne, get_cons_same he']
  · rw [get_cons_other he', get_cons_other he', h]

theorem get_put (entries : List (Entry κ ν)) (key other : κ) (val : ν) :
    get same (put same entries key val) other =
      if same key other then some val else get same entries other := by
  induction entries with
  | nil =>
      rw [put_nil]
      split_ifs with h
      · exact get_cons_same h []
      · exact get_cons_other h []
  | cons e entries ih =>
      by_cases he : same e.key key
      · rw [put_cons_same he]
        split_ifs with h
        · exact get_cons_same h entries
        · have he' : ¬ same e.key other := fun h' => h (hsame.trans (hsame.symm he) h')
          rw [get_cons_other he']
          exact get_cons_other h entries
      · rw [put_cons_other he]
        exact get_cons_of_not_same hsame he ih

theorem get_remove {entries : List (Entry κ ν)} (hdistinct : Distinct same entries)
    (key other : κ) :
    get same (remove same entries key) other =
      if same key other then none else get same entries other := by
  induction entries with
  | nil => simp [remove_nil]
  | cons e entries ih =>
      obtain ⟨hfirst, hrest⟩ := List.pairwise_cons.mp hdistinct
      by_cases he : same e.key key
      · rw [remove_cons_same he]
        split_ifs with h
        · rw [get_eq_none_iff]
          intro e' he' h'
          exact hfirst e' he' (hsame.trans (hsame.trans he h) (hsame.symm h'))
        · rw [get_cons_other fun h' => h (hsame.trans (hsame.symm he) h')]
      · rw [remove_cons_other he]
        exact get_cons_of_not_same hsame he (ih hrest)

theorem Distinct.put {entries : List (Entry κ ν)} (h : Distinct same entries) (key : κ)
    (val : ν) : Distinct same (put same entries key val) := by
  induction entries with
  | nil => exact List.pairwise_singleton _ _
  | cons e entries ih =>
      obtain ⟨hfirst, hrest⟩ := List.pairwise_cons.mp h
      by_cases he : same e.key key
      · rw [put_cons_same he]
        apply List.Pairwise.cons _ hrest
        intro e' he' h'
        exact hfirst e' he' (hsame.trans he h')
      · rw [put_cons_other he]
        apply List.Pairwise.cons _ (ih hrest)
        intro e' he'
        rcases mem_put he' with rfl | he'
        · exact he
        · exact hfirst e' he'

omit hsame in
theorem Distinct.remove {entries : List (Entry κ ν)} (h : Distinct same entries) (key : κ) :
    Distinct same (remove same entries key) :=
  h.sublist (List.eraseIdx_sublist _ _)

end Equivalence

section Counting

variable {same} (hsame : Equivalence same)

/-- The keys of the entries, each taken up to sameness. -/
def classes (entries : List (Entry κ ν)) : List (Quotient ⟨same, hsame⟩) :=
  entries.map fun e => Quotient.mk _ e.key

omit [DecidableRel same] in
theorem Distinct.nodup_classes {entries : List (Entry κ ν)} (h : Distinct same entries) :
    (classes hsame entries).Nodup := by
  rw [classes, List.Nodup, List.pairwise_map]
  apply h.imp
  intro e e' hne heq
  exact hne (Quotient.exact heq)

omit [DecidableRel same] in
theorem Distinct.ncard_classes {entries : List (Entry κ ν)} (h : Distinct same entries) :
    {c | c ∈ classes hsame entries}.ncard = entries.length := by
  classical
  have hset : {c | c ∈ classes hsame entries} = ((classes hsame entries).toFinset : Set _) := by
    ext c
    simp
  rw [hset, Set.ncard_coe_finset, List.toFinset_card_of_nodup (h.nodup_classes hsame), classes,
    List.length_map]

end Counting

end Whosecoin.Library.Dictionaries

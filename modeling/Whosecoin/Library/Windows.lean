import Mathlib

namespace Whosecoin.Library.Windows

variable {α : Type*} (size : Nat)

/-- Append to a window that holds at most `size` items; a full one loses its first. -/
def push (window : List α) (x : α) : List α :=
  (if size ≤ window.length then window.drop 1 else window) ++ [x]

variable {size}

theorem push_rtake (hsize : 0 < size) (log : List α) (x : α) :
    push size (log.rtake size) x = (log ++ [x]).rtake size := by
  obtain ⟨n, rfl⟩ := Nat.exists_eq_succ_of_ne_zero hsize.ne'
  rw [Nat.succ_eq_add_one, List.rtake_concat_succ, push]
  congr 1
  rw [List.rtake, List.rtake, List.length_drop]
  split_ifs with hfull
  · rw [List.drop_drop]
    congr 1
    omega
  · congr 1
    omega

theorem foldl_push (hsize : 0 < size) (log items : List α) :
    items.foldl (push size) (log.rtake size) = (log ++ items).rtake size := by
  induction items generalizing log with
  | nil => rw [List.foldl_nil, List.append_nil]
  | cons x items ih =>
      rw [List.foldl_cons, push_rtake hsize, ih, List.append_assoc, List.singleton_append]

/-- The item is among the last `size` of the log. -/
def Recent (size : Nat) (log : List α) (x : α) : Prop :=
  ∃ before after, log = before ++ x :: after ∧ after.length < size

theorem mem_rtake_iff (log : List α) (x : α) : x ∈ log.rtake size ↔ Recent size log x := by
  constructor
  · intro hmem
    obtain ⟨before, after, hsplit⟩ := List.append_of_mem hmem
    refine ⟨log.take (log.length - size) ++ before, after, ?_, ?_⟩
    · rw [List.append_assoc, ← hsplit, List.rtake, List.take_append_drop]
    · have hlength := congrArg List.length hsplit
      simp only [List.rtake, List.length_drop, List.length_append, List.length_cons] at hlength
      omega
  · rintro ⟨before, after, rfl, hshort⟩
    rw [List.rtake, List.length_append, List.length_cons]
    have hle : before.length + (after.length + 1) - size ≤ before.length := by omega
    rw [List.drop_append_of_le_length hle]
    exact List.mem_append_right _ List.mem_cons_self

theorem recent_of_countP_lt [DecidableEq α] {before after : List α} {x : α}
    (h : after.countP (· ≠ x) < size) : Recent size (before ++ x :: after) x := by
  induction hn : after.length using Nat.strong_induction_on generalizing before after with
  | _ n ih =>
      rcases Decidable.em (x ∈ after) with hmem | hnot
      · obtain ⟨between, rest, rfl⟩ := List.append_of_mem hmem
        rw [List.length_append, List.length_cons] at hn
        rw [List.countP_append, List.countP_cons] at h
        have hrest := @ih rest.length (by omega) (before ++ x :: between) rest (by omega) rfl
        rw [List.append_assoc, List.cons_append] at hrest
        exact hrest
      · refine ⟨before, after, rfl, ?_⟩
        have hall : after.countP (· ≠ x) = after.length := by
          rw [List.countP_eq_length]
          intro y hy
          rw [decide_eq_true_eq]
          rintro rfl
          exact hnot hy
        omega

end Whosecoin.Library.Windows

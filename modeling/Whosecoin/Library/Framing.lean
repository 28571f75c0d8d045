import Mathlib

namespace Whosecoin.Library.Framing

variable {α : Type*}

/-- The frames of a stream that end within its first `n` elements. -/
def within : Nat → List (List α) → List (List α)
  | _, [] => []
  | n, frame :: frames =>
      if frame.length ≤ n then frame :: within (n - frame.length) frames else []

/-- The elements begin the first of the frames and do not complete it. -/
def Begins (pending : List α) (frames : List (List α)) : Prop :=
  pending = [] ∨ ∃ frame rest, frames = frame :: rest ∧ pending <+: frame ∧
    pending.length < frame.length

theorem within_flatten (frames : List (List α)) :
    within frames.flatten.length frames = frames := by
  induction frames with
  | nil => rfl
  | cons frame frames ih =>
      rw [within, List.flatten_cons, List.length_append, if_pos (Nat.le_add_right _ _),
        Nat.add_sub_cancel_left, ih]

theorem within_append {done more : List (List α)} {n : Nat} (h : done.flatten.length ≤ n) :
    within n (done ++ more) = done ++ within (n - done.flatten.length) more := by
  induction done generalizing n with
  | nil => rfl
  | cons frame done ih =>
      rw [List.flatten_cons, List.length_append] at h
      rw [List.cons_append, within, if_pos (by omega), ih (by omega), List.cons_append,
        List.flatten_cons, List.length_append, Nat.sub_sub]

theorem within_mono {m n : Nat} (h : m ≤ n) (frames : List (List α)) :
    within m frames <+: within n frames := by
  induction frames generalizing m n with
  | nil => exact List.prefix_refl _
  | cons frame frames ih =>
      rw [within, within]
      split_ifs with hm hn
      · exact (List.prefix_cons_inj _).mpr (ih (by omega))
      · omega
      · exact List.nil_prefix
      · exact List.nil_prefix

theorem exists_cut {frames : List (List α)} {stream : List α} (h : stream <+: frames.flatten) :
    ∃ more pending, frames = within stream.length frames ++ more ∧
      stream = (within stream.length frames).flatten ++ pending ∧ Begins pending more := by
  induction frames generalizing stream with
  | nil => exact ⟨[], [], rfl, List.prefix_nil.mp h, Or.inl rfl⟩
  | cons frame frames ih =>
      rw [List.flatten_cons] at h
      rw [within]
      split_ifs with hle
      · obtain ⟨rest, rfl⟩ := List.prefix_of_prefix_length_le (List.prefix_append _ _) h hle
        rw [List.prefix_append_right_inj] at h
        obtain ⟨more, pending, hframes, hrest, hbegins⟩ := ih h
        rw [List.length_append, Nat.add_sub_cancel_left]
        refine ⟨more, pending, ?_, ?_, hbegins⟩
        · rw [List.cons_append, ← hframes]
        · rw [List.flatten_cons, List.append_assoc, ← hrest]
      · have hlt : stream.length < frame.length := by omega
        have hbegins := List.prefix_of_prefix_length_le h (List.prefix_append _ _) hlt.le
        exact ⟨frame :: frames, stream, rfl, rfl, Or.inr ⟨frame, frames, rfl, hbegins, hlt⟩⟩

end Whosecoin.Library.Framing

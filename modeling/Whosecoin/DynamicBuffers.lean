import Whosecoin.Library.Outcomes
import Whosecoin.Library.ByteStrings

namespace Whosecoin.DynamicBuffers

open Library.Outcomes
open Library.ByteStrings

/-- A `dynamic_buffer_t`. Of the `capacity` allocated bytes, `data` holds those
that have ever been written. -/
structure DynamicBuffer where
  length : Nat
  data : List UInt8
  capacity : Nat
  length_le : length ≤ data.length
  data_le : data.length ≤ capacity
  capacity_pos : 0 < capacity
  capacity_lt : capacity < 2 ^ 32

namespace DynamicBuffer

variable (buffer : DynamicBuffer)

/-- The bytes that belong to the buffer. -/
def live : List UInt8 :=
  buffer.data.take buffer.length

@[simp] theorem live_length : buffer.live.length = buffer.length :=
  List.length_take_of_le buffer.length_le

end DynamicBuffer

instance capacities_neZero : NeZero (2 ^ 31) :=
  ⟨by decide⟩

/-- A capacity below one is taken for one. -/
def dynamicBufferCreate (initialCapacity : Fin (2 ^ 31)) : DynamicBuffer where
  length := 0
  data := List.replicate initialCapacity.val 0
  capacity := if initialCapacity.val < 1 then 1 else initialCapacity.val
  length_le := Nat.zero_le _
  data_le := by
    rw [List.length_replicate]
    split_ifs <;> omega
  capacity_pos := by split_ifs <;> omega
  capacity_lt := by split_ifs <;> omega

/-- The loop that doubles the `uint32_t` capacity. It runs for ever once the
capacity is zero, which it is after 32 rounds. -/
def growCapacity : (fuel : Nat) → (needed capacity : Nat) → Outcome Nat
  | 0, _, _ => .error .diverges
  | fuel + 1, needed, capacity =>
      if capacity ≤ needed then growCapacity fuel needed (capacity * 2 % 2 ^ 32)
      else .ok capacity

theorem growCapacity_gt {fuel needed capacity grown : Nat}
    (h : growCapacity fuel needed capacity = .ok grown) : needed < grown := by
  induction fuel generalizing capacity with
  | zero => cases h
  | succ fuel ih =>
      rw [growCapacity] at h
      split at h
      · exact ih h
      · cases h
        omega

theorem growCapacity_ge {fuel needed capacity grown : Nat}
    (h : growCapacity fuel needed capacity = .ok grown) : capacity ≤ grown := by
  have hneeded := growCapacity_gt h
  cases fuel with
  | zero => cases h
  | succ fuel =>
      rw [growCapacity] at h
      split at h
      · omega
      · cases h
        exact le_rfl

theorem growCapacity_lt {fuel needed capacity grown : Nat} (hcapacity : capacity < 2 ^ 32)
    (h : growCapacity fuel needed capacity = .ok grown) : grown < 2 ^ 32 := by
  induction fuel generalizing capacity with
  | zero => cases h
  | succ fuel ih =>
      rw [growCapacity] at h
      split at h
      · exact ih (Nat.mod_lt _ (by decide)) h
      · cases h
        exact hcapacity

/-- The growth stays below 2^32, so that the sum of the lengths does not wrap. -/
def dynamicBufferWrite (src : List UInt8) (buffer : DynamicBuffer) : Outcome DynamicBuffer :=
  match h : growCapacity 33 (buffer.length + src.length) buffer.capacity with
  | .error e => .error e
  | .ok capacity =>
      .ok
        { length := buffer.length + src.length
          data := overwrite buffer.data buffer.length src
          capacity := capacity
          length_le := by
            rw [length_overwrite buffer.length_le]
            exact le_max_right _ _
          data_le := by
            have hgrown := growCapacity_gt h
            have hkept := growCapacity_ge h
            have hdata := buffer.data_le
            rw [length_overwrite buffer.length_le]
            omega
          capacity_pos := Nat.zero_lt_of_lt (growCapacity_gt h)
          capacity_lt := growCapacity_lt buffer.capacity_lt h }

/-- The capacity is doubled once. If that wraps, there is no room for the byte. -/
def dynamicBufferPutc (c : UInt8) (buffer : DynamicBuffer) : Outcome DynamicBuffer :=
  if h : buffer.length <
      if buffer.capacity ≤ buffer.length + 1 then buffer.capacity * 2 % 2 ^ 32
      else buffer.capacity then
    .ok
      { length := buffer.length + 1
        data := overwrite buffer.data buffer.length [c]
        capacity :=
          if buffer.capacity ≤ buffer.length + 1 then buffer.capacity * 2 % 2 ^ 32
          else buffer.capacity
        length_le := by
          rw [length_overwrite buffer.length_le]
          exact le_max_right _ _
        data_le := by
          have hdata := buffer.data_le
          have hcapacity := buffer.capacity_lt
          rw [length_overwrite buffer.length_le, List.length_singleton]
          split_ifs at h ⊢ <;> omega
        capacity_pos := Nat.zero_lt_of_lt h
        capacity_lt := by
          have hcapacity := buffer.capacity_lt
          split_ifs <;> omega }
  else .error .outOfBounds

/-- `memmove(data, data + count, length - count)` and `length -= count`. When
`count` exceeds the length, the size wraps to almost 2^64. -/
def splice (buffer : DynamicBuffer) (count : Nat) : Outcome DynamicBuffer :=
  if h : count ≤ buffer.length then
    .ok
      { length := buffer.length - count
        data := overwrite buffer.data 0 (buffer.live.drop count)
        capacity := buffer.capacity
        length_le := by
          rw [length_overwrite (Nat.zero_le _), List.length_drop, buffer.live_length]
          omega
        data_le := by
          have hlength := buffer.length_le
          have hdata := buffer.data_le
          rw [length_overwrite (Nat.zero_le _), List.length_drop, buffer.live_length]
          omega
        capacity_pos := buffer.capacity_pos
        capacity_lt := buffer.capacity_lt }
  else .error .outOfBounds

section Specifications

variable {buffer : DynamicBuffer}

/-- Below 2^31 the doubling does not wrap before there is room. -/
theorem growCapacity_of_lt {fuel needed capacity : Nat} (hpos : 0 < capacity)
    (hneeded : needed < 2 ^ 31) (hfuel : 2 ^ 31 < capacity * 2 ^ fuel) (hlt : capacity < 2 ^ 32) :
    ∃ grown, growCapacity (fuel + 1) needed capacity = .ok grown := by
  induction fuel generalizing capacity with
  | zero =>
      rw [growCapacity, if_neg (by omega)]
      exact ⟨_, rfl⟩
  | succ fuel ih =>
      rw [growCapacity]
      split_ifs with hle
      · rw [Nat.mod_eq_of_lt (by omega)]
        refine ih (by omega) ?_ (by omega)
        rwa [Nat.mul_assoc, ← pow_succ']
      · exact ⟨_, rfl⟩

theorem dynamicBufferWrite_of_lt {src : List UInt8}
    (hfit : buffer.length + src.length < 2 ^ 31) :
    ∃ next, dynamicBufferWrite src buffer = .ok next ∧
      next.data = overwrite buffer.data buffer.length src ∧ next.live = buffer.live ++ src := by
  have hpos := buffer.capacity_pos
  obtain ⟨grown, hgrown⟩ := @growCapacity_of_lt 32 _ _ hpos hfit (by omega) buffer.capacity_lt
  rw [dynamicBufferWrite]
  split
  · rename_i e herror
    rw [hgrown] at herror
    cases herror
  · exact ⟨_, rfl, rfl, overwrite_take buffer.length_le⟩

theorem dynamicBufferPutc_of_lt {c : UInt8} (hfit : buffer.length + 1 < 2 ^ 31) :
    ∃ next, dynamicBufferPutc c buffer = .ok next ∧ next.live = buffer.live ++ [c] := by
  have hpos := buffer.capacity_pos
  have hcapacity := buffer.capacity_lt
  have hlength := buffer.length_le
  have hdata := buffer.data_le
  rw [dynamicBufferPutc, dif_pos (by split_ifs <;> omega)]
  exact ⟨_, rfl, @overwrite_take buffer.data [c] _ buffer.length_le⟩

theorem splice_of_le {count : Nat} (h : count ≤ buffer.length) :
    ∃ next, splice buffer count = .ok next ∧
      next.data = overwrite buffer.data 0 (buffer.live.drop count) ∧
      next.live = buffer.live.drop count := by
  rw [splice, dif_pos h]
  refine ⟨_, rfl, rfl, ?_⟩
  have hlive := @overwrite_take buffer.data (buffer.live.drop count) 0 (Nat.zero_le _)
  rw [List.length_drop, buffer.live_length, Nat.zero_add, List.take_zero,
    List.nil_append] at hlive
  exact hlive

end Specifications

/-- The capacity is a power of two, as that of every buffer which the program creates. -/
def DynamicBuffer.Sized (buffer : DynamicBuffer) : Prop :=
  ∃ k, buffer.capacity = 2 ^ k

section Sized

variable {buffer next : DynamicBuffer}

theorem DynamicBuffer.Sized.le (h : buffer.Sized) : buffer.capacity ≤ 2 ^ 31 := by
  obtain ⟨k, hk⟩ := h
  have hlt := buffer.capacity_lt
  rw [hk] at hlt ⊢
  have hk : k < 32 := (Nat.pow_lt_pow_iff_right (by decide)).mp hlt
  exact Nat.pow_le_pow_right (by decide) (by omega)

theorem double_pow {capacity : Nat} (hlt : capacity < 2 ^ 32)
    (h : capacity = 0 ∨ ∃ k, capacity = 2 ^ k) :
    capacity * 2 % 2 ^ 32 = 0 ∨ ∃ k, capacity * 2 % 2 ^ 32 = 2 ^ k := by
  rcases h with rfl | ⟨k, rfl⟩
  · exact .inl rfl
  · rw [← pow_succ]
    have hk : k < 32 := (Nat.pow_lt_pow_iff_right (by decide)).mp hlt
    rcases Nat.lt_or_ge k 31 with hsmall | hlarge
    · right
      refine ⟨k + 1, Nat.mod_eq_of_lt ?_⟩
      exact Nat.pow_lt_pow_right (by decide) (by omega)
    · left
      have hk31 : k = 31 := by omega
      subst hk31
      exact Nat.mod_self _

theorem growCapacity_pow {fuel needed capacity grown : Nat} (hlt : capacity < 2 ^ 32)
    (hpow : capacity = 0 ∨ ∃ k, capacity = 2 ^ k)
    (h : growCapacity fuel needed capacity = .ok grown) : ∃ k, grown = 2 ^ k := by
  induction fuel generalizing capacity with
  | zero => cases h
  | succ fuel ih =>
      rw [growCapacity] at h
      split at h
      · exact ih (Nat.mod_lt _ (by decide)) (double_pow hlt hpow) h
      · rename_i hroom
        rw [Except.ok.injEq] at h
        subst h
        rcases hpow with rfl | hpow
        · exact absurd (Nat.zero_le _) hroom
        · exact hpow

theorem dynamicBufferWrite_spec {src : List UInt8}
    (h : dynamicBufferWrite src buffer = .ok next) :
    next.live = buffer.live ++ src ∧
      growCapacity 33 (buffer.length + src.length) buffer.capacity = .ok next.capacity := by
  rw [dynamicBufferWrite] at h
  split at h
  · cases h
  · rename_i capacity hgrown
    rw [Except.ok.injEq] at h
    subst h
    exact ⟨overwrite_take buffer.length_le, hgrown⟩

theorem DynamicBuffer.Sized.write {src : List UInt8} (hsized : buffer.Sized)
    (h : dynamicBufferWrite src buffer = .ok next) : next.Sized :=
  growCapacity_pow buffer.capacity_lt (.inr hsized) (dynamicBufferWrite_spec h).2

theorem dynamicBufferWrite_returns_iff (hsized : buffer.Sized) (src : List UInt8) :
    Returns (dynamicBufferWrite src buffer) ↔ buffer.length + src.length < 2 ^ 31 := by
  constructor
  · rintro ⟨next, h⟩
    have hgrown := growCapacity_gt (dynamicBufferWrite_spec h).2
    exact hgrown.trans_le (hsized.write h).le
  · intro hfit
    obtain ⟨next, h, -, -⟩ := dynamicBufferWrite_of_lt hfit
    exact ⟨next, h⟩

theorem dynamicBufferPutc_spec {c : UInt8} (h : dynamicBufferPutc c buffer = .ok next) :
    next.live = buffer.live ++ [c] ∧ buffer.length < next.capacity ∧ next.capacity =
      if buffer.capacity ≤ buffer.length + 1 then buffer.capacity * 2 % 2 ^ 32
      else buffer.capacity := by
  by_cases hroom : buffer.length <
      if buffer.capacity ≤ buffer.length + 1 then buffer.capacity * 2 % 2 ^ 32
      else buffer.capacity
  · rw [dynamicBufferPutc, dif_pos hroom, Except.ok.injEq] at h
    subst h
    exact ⟨@overwrite_take buffer.data [c] _ buffer.length_le, hroom, rfl⟩
  · rw [dynamicBufferPutc, dif_neg hroom] at h
    cases h

theorem DynamicBuffer.Sized.putc {c : UInt8} (hsized : buffer.Sized)
    (h : dynamicBufferPutc c buffer = .ok next) : next.Sized := by
  obtain ⟨-, hroom, hcapacity⟩ := dynamicBufferPutc_spec h
  split_ifs at hcapacity
  · rcases double_pow buffer.capacity_lt (.inr hsized) with hzero | ⟨k, hk⟩
    · omega
    · exact ⟨k, hcapacity.trans hk⟩
  · obtain ⟨k, hk⟩ := hsized
    exact ⟨k, hcapacity.trans hk⟩

theorem dynamicBufferPutc_returns_iff (hsized : buffer.Sized) (c : UInt8) :
    Returns (dynamicBufferPutc c buffer) ↔ buffer.length + 1 < 2 ^ 31 := by
  constructor
  · rintro ⟨next, h⟩
    have hlength := buffer.length_le
    have hdata := buffer.data_le
    have hle := (hsized.putc h).le
    obtain ⟨-, hroom, hcapacity⟩ := dynamicBufferPutc_spec h
    split_ifs at hcapacity <;> omega
  · intro hfit
    obtain ⟨next, h, -⟩ := @dynamicBufferPutc_of_lt buffer c hfit
    exact ⟨next, h⟩

theorem splice_spec {count : Nat} (h : splice buffer count = .ok next) :
    next.live = buffer.live.drop count ∧ next.capacity = buffer.capacity := by
  have hle : count ≤ buffer.length := by
    by_contra hlong
    rw [splice, dif_neg hlong] at h
    cases h
  obtain ⟨spliced, hcall, -, hlive⟩ := splice_of_le hle
  rw [hcall, Except.ok.injEq] at h
  subst h
  refine ⟨hlive, ?_⟩
  rw [splice, dif_pos hle, Except.ok.injEq] at hcall
  rw [← hcall]

theorem DynamicBuffer.Sized.splice {count : Nat} (hsized : buffer.Sized)
    (h : DynamicBuffers.splice buffer count = .ok next) : next.Sized := by
  obtain ⟨k, hk⟩ := hsized
  exact ⟨k, (splice_spec h).2.trans hk⟩

end Sized

end Whosecoin.DynamicBuffers

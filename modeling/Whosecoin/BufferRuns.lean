import Whosecoin.DynamicBuffers

namespace Whosecoin.BufferRuns

open Library.Outcomes
open DynamicBuffers

/-- A call of `dynamic_buffer_putc` or `dynamic_buffer_write`. -/
inductive Call where
  | putc (c : UInt8)
  | write (src : List UInt8)

def Call.bytes : Call → List UInt8
  | .putc c => [c]
  | .write src => src

def Call.run (buffer : DynamicBuffer) : Call → Outcome DynamicBuffer
  | .putc c => dynamicBufferPutc c buffer
  | .write src => dynamicBufferWrite src buffer

/-- A write has room where one of the doubled capacities, taken in 32 bits, exceeds the new
length. A byte has room except where it takes the last place of a capacity whose double does
not fit into 32 bits. -/
def Room (buffer : DynamicBuffer) : Call → Prop
  | .putc _ => buffer.length + 1 < buffer.capacity ∨ buffer.capacity < 2 ^ 31
  | .write src => ∃ k, buffer.length + src.length < buffer.capacity * 2 ^ k % 2 ^ 32

section Calls

variable {buffer : DynamicBuffer}

theorem double_double (capacity k : Nat) :
    capacity * 2 % 2 ^ 32 * 2 ^ k % 2 ^ 32 = capacity * 2 ^ (k + 1) % 2 ^ 32 := by
  rw [Nat.mod_mul_mod, Nat.mul_assoc, ← pow_succ']

theorem growCapacity_returns_iff {fuel needed capacity : Nat} (h : capacity < 2 ^ 32) :
    Returns (growCapacity fuel needed capacity) ↔
      ∃ k < fuel, needed < capacity * 2 ^ k % 2 ^ 32 := by
  induction fuel generalizing capacity with
  | zero => exact ⟨fun hreturns => absurd hreturns (not_returns_error _), nofun⟩
  | succ fuel ih =>
      have hsame : capacity * 2 ^ 0 % 2 ^ 32 = capacity := by
        rw [pow_zero, Nat.mul_one, Nat.mod_eq_of_lt h]
      rw [growCapacity]
      split_ifs with hle
      · rw [ih (Nat.mod_lt _ (by decide))]
        constructor
        · rintro ⟨k, hk, hlt⟩
          rw [double_double] at hlt
          exact ⟨k + 1, Nat.succ_lt_succ hk, hlt⟩
        · rintro ⟨k, hk, hlt⟩
          cases k with
          | zero => omega
          | succ k =>
              rw [← double_double] at hlt
              exact ⟨k, Nat.lt_of_succ_lt_succ hk, hlt⟩
      · refine ⟨fun _ => ⟨0, Nat.succ_pos fuel, ?_⟩, fun _ => returns_ok capacity⟩
        rw [hsame]
        exact not_le.mp hle

/-- After 32 rounds nothing of a capacity is left. -/
theorem lt_of_room {needed capacity k : Nat} (h : needed < capacity * 2 ^ k % 2 ^ 32) :
    k < 33 := by
  by_contra hk
  have hdvd : 2 ^ 32 ∣ capacity * 2 ^ k :=
    Dvd.dvd.mul_left (pow_dvd_pow 2 (by omega)) capacity
  rw [Nat.mod_eq_zero_of_dvd hdvd] at h
  exact Nat.not_lt_zero _ h

theorem write_returns_iff (src : List UInt8) :
    Returns (dynamicBufferWrite src buffer) ↔ Room buffer (.write src) := by
  have hgrow := @growCapacity_returns_iff 33 (buffer.length + src.length) _ buffer.capacity_lt
  constructor
  · rintro ⟨next, h⟩
    obtain ⟨k, -, hk⟩ := hgrow.mp ⟨next.capacity, (dynamicBufferWrite_spec h).2⟩
    exact ⟨k, hk⟩
  · rintro ⟨k, hk⟩
    obtain ⟨grown, hgrown⟩ := hgrow.mpr ⟨k, lt_of_room hk, hk⟩
    rw [dynamicBufferWrite]
    split
    · rename_i e herror
      rw [hgrown] at herror
      cases herror
    · exact returns_ok _

theorem putc_returns_iff (hlength : buffer.length < buffer.capacity) (c : UInt8) :
    Returns (dynamicBufferPutc c buffer) ↔ Room buffer (.putc c) := by
  have hcapacity := buffer.capacity_lt
  rw [Room]
  constructor
  · rintro ⟨next, h⟩
    obtain ⟨-, hroom, hnext⟩ := dynamicBufferPutc_spec h
    split_ifs at hnext <;> omega
  · intro hroom
    rw [dynamicBufferPutc, dif_pos (by split_ifs <;> omega)]
    exact returns_ok _

theorem call_returns_iff (hlength : buffer.length < buffer.capacity) (call : Call) :
    Returns (call.run buffer) ↔ Room buffer call := by
  cases call with
  | putc c => exact putc_returns_iff hlength c
  | write src => exact write_returns_iff src

theorem call_spec (hlength : buffer.length < buffer.capacity) {call : Call}
    {next : DynamicBuffer} (h : call.run buffer = .ok next) :
    next.live = buffer.live ++ call.bytes ∧ next.length < next.capacity := by
  have hlive : next.live = buffer.live ++ call.bytes := by
    cases call with
    | putc c => exact (dynamicBufferPutc_spec h).1
    | write src => exact (dynamicBufferWrite_spec h).1
  have htotal : next.length = buffer.length + call.bytes.length := by
    rw [← next.live_length, hlive, List.length_append, buffer.live_length]
  refine ⟨hlive, ?_⟩
  rw [htotal]
  cases call with
  | putc c =>
      have hroom := (putc_returns_iff hlength c).mp ⟨next, h⟩
      obtain ⟨-, -, hcapacity⟩ := dynamicBufferPutc_spec h
      have hlt := buffer.capacity_lt
      change buffer.length + 1 < next.capacity
      rw [Room] at hroom
      split_ifs at hcapacity <;> omega
  | write src => exact growCapacity_gt (dynamicBufferWrite_spec h).2

theorem room_of_lt (hlength : buffer.length < buffer.capacity) (call : Call)
    (hfit : buffer.length + call.bytes.length < 2 ^ 31) : Room buffer call := by
  rw [← call_returns_iff hlength]
  cases call with
  | putc c =>
      obtain ⟨next, h, -⟩ := @dynamicBufferPutc_of_lt buffer c hfit
      exact ⟨next, h⟩
  | write src =>
      obtain ⟨next, h, -, -⟩ := @dynamicBufferWrite_of_lt buffer src hfit
      exact ⟨next, h⟩

end Calls

section Runs

variable {buffer : DynamicBuffer}

def runCalls (buffer : DynamicBuffer) (calls : List Call) : Outcome DynamicBuffer :=
  calls.foldlM Call.run buffer

/-- Every call returns, with all that was written so far, in order, and a place to spare. -/
def Faithful (buffer : DynamicBuffer) (calls : List Call) : Prop :=
  ∀ before, before <+: calls → ∃ next, runCalls buffer before = .ok next ∧
    next.live = buffer.live ++ before.flatMap Call.bytes ∧ next.length < next.capacity

/-- There is room in the state before each call. -/
def Roomy (buffer : DynamicBuffer) : List Call → Prop
  | [] => True
  | call :: calls =>
      Room buffer call ∧ ∀ next, call.run buffer = .ok next → Roomy next calls

theorem faithful_cons_iff (hlength : buffer.length < buffer.capacity) {call : Call}
    {calls : List Call} :
    Faithful buffer (call :: calls) ↔ ∃ next, call.run buffer = .ok next ∧
      Faithful next calls := by
  constructor
  · intro h
    obtain ⟨next, hnext, -⟩ := h [call] (List.prefix_append [call] calls)
    rw [runCalls, List.foldlM_cons, bind_eq_ok] at hnext
    obtain ⟨middle, hcall, -⟩ := hnext
    obtain ⟨hlive, -⟩ := call_spec hlength hcall
    refine ⟨middle, hcall, ?_⟩
    intro before hbefore
    obtain ⟨last, hlast, hcontent, hroom⟩ := h (call :: before) (List.cons_prefix_cons.mpr
      ⟨rfl, hbefore⟩)
    rw [runCalls, List.foldlM_cons, hcall] at hlast
    rw [List.flatMap_cons, ← List.append_assoc, ← hlive] at hcontent
    exact ⟨last, hlast, hcontent, hroom⟩
  · rintro ⟨next, hcall, h⟩ before hbefore
    obtain ⟨hlive, -⟩ := call_spec hlength hcall
    cases before with
    | nil => exact ⟨buffer, rfl, (List.append_nil _).symm, hlength⟩
    | cons first before =>
        obtain ⟨rfl, hrest⟩ := List.cons_prefix_cons.mp hbefore
        obtain ⟨last, hlast, hcontent, hroom⟩ := h before hrest
        refine ⟨last, ?_, ?_, hroom⟩
        · rw [runCalls, List.foldlM_cons, hcall]
          exact hlast
        · rw [hcontent, hlive, List.append_assoc, List.flatMap_cons]

theorem faithful_iff_roomy (hlength : buffer.length < buffer.capacity) (calls : List Call) :
    Faithful buffer calls ↔ Roomy buffer calls := by
  induction calls generalizing buffer with
  | nil =>
      refine ⟨fun _ => trivial, ?_⟩
      intro _ before hbefore
      rw [List.prefix_nil.mp hbefore]
      exact ⟨buffer, rfl, (List.append_nil _).symm, hlength⟩
  | cons call calls ih =>
      rw [faithful_cons_iff hlength, Roomy, ← call_returns_iff hlength]
      constructor
      · rintro ⟨next, hcall, h⟩
        refine ⟨⟨next, hcall⟩, ?_⟩
        intro next' hcall'
        rw [hcall] at hcall'
        cases hcall'
        exact (ih (call_spec hlength hcall).2).mp h
      · rintro ⟨⟨next, hcall⟩, hroomy⟩
        exact ⟨next, hcall, (ih (call_spec hlength hcall).2).mpr (hroomy next hcall)⟩

theorem roomy_of_lt (hlength : buffer.length < buffer.capacity) (calls : List Call)
    (hfit : buffer.length + (calls.flatMap Call.bytes).length < 2 ^ 31) :
    Roomy buffer calls := by
  induction calls generalizing buffer with
  | nil => exact trivial
  | cons call calls ih =>
      rw [List.flatMap_cons, List.length_append] at hfit
      refine ⟨room_of_lt hlength call (by omega), ?_⟩
      intro next hcall
      obtain ⟨hlive, hroom⟩ := call_spec hlength hcall
      apply ih hroom
      rw [← next.live_length, hlive, List.length_append, buffer.live_length]
      omega

theorem create_length_lt (initialCapacity : Fin (2 ^ 31)) :
    (dynamicBufferCreate initialCapacity).length <
      (dynamicBufferCreate initialCapacity).capacity :=
  (dynamicBufferCreate initialCapacity).capacity_pos

theorem buffer_faithful_iff (initialCapacity : Fin (2 ^ 31)) (calls : List Call) :
    (Faithful (dynamicBufferCreate initialCapacity) calls ↔
        Roomy (dynamicBufferCreate initialCapacity) calls) ∧
      ((calls.flatMap Call.bytes).length < 2 ^ 31 →
        Roomy (dynamicBufferCreate initialCapacity) calls) := by
  have hlength := create_length_lt initialCapacity
  refine ⟨faithful_iff_roomy hlength calls, ?_⟩
  intro hfit
  apply roomy_of_lt hlength
  change 0 + _ < 2 ^ 31
  rwa [Nat.zero_add]

theorem long_write_diverges :
    ∃ src : List UInt8, src.length = 2 ^ 31 ∧
      ¬ Faithful (dynamicBufferCreate 1) [.write src] := by
  have hexists : ∀ n, ∃ src : List UInt8, src.length = n :=
    fun n => ⟨List.replicate n 0, List.length_replicate⟩
  obtain ⟨src, hsrc⟩ := hexists (2 ^ 31)
  refine ⟨src, hsrc, ?_⟩
  intro h
  obtain ⟨next, hcall, -⟩ := (faithful_cons_iff (create_length_lt 1)).mp h
  have hfit := (dynamicBufferWrite_returns_iff ⟨0, rfl⟩ src).mp ⟨next, hcall⟩
  change 0 + src.length < 2 ^ 31 at hfit
  omega

end Runs

end Whosecoin.BufferRuns

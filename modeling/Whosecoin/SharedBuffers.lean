import Whosecoin.Library.Outcomes

namespace Whosecoin.SharedBuffers

open Library.Outcomes

/-- The memory of a `shared_buffer_t`: the `int` in it as long as it is allocated, and how
often it has been freed. -/
structure SharedBuffer where
  refCount : Option Int32
  freed : Nat

def sharedBufferCreate : SharedBuffer where
  refCount := some 0
  freed := 0

/-- A buffer that has been freed is read out of bounds. -/
def sharedBufferRetain (buf : SharedBuffer) : Outcome SharedBuffer :=
  match buf.refCount with
  | none => .error .outOfBounds
  | some refCount => .ok { buf with refCount := some (refCount + 1) }

/-- The release that reaches zero frees the buffer. -/
def sharedBufferRelease (buf : SharedBuffer) : Outcome SharedBuffer :=
  match buf.refCount with
  | none => .error .outOfBounds
  | some refCount =>
      if refCount - 1 = 0 then .ok { refCount := none, freed := buf.freed + 1 }
      else .ok { buf with refCount := some (refCount - 1) }

/-- A message on its way to the peers. A write is named by the value of `i` when it was issued;
`running` holds until `broadcast_message` returns. -/
structure State where
  buf : SharedBuffer
  i : Nat
  pending : Finset Nat
  running : Bool

/-- A write is issued, a write has ended, or the loop over the peers has. -/
inductive Event where
  | issue
  | complete (write : Nat)
  | finish

/-- An iteration of the loop, a call of `on_write`, the release behind the loop. -/
def step (state : State) : Event → Outcome State
  | .issue => do
      let buf ← sharedBufferRetain state.buf
      return { state with buf, i := state.i + 1, pending := insert state.i state.pending }
  | .complete write => do
      let buf ← sharedBufferRelease state.buf
      return { state with buf, pending := state.pending.erase write }
  | .finish => do
      let buf ← sharedBufferRelease state.buf
      return { state with buf, running := false }

/-- What can come next, where the loop is over `peers` peers. -/
def Enabled (peers : Nat) (state : State) : Event → Prop
  | .issue => state.running = true ∧ state.i < peers
  | .complete write => write ∈ state.pending
  | .finish => state.running = true ∧ state.i = peers

/-- The states behind the first lines of `broadcast_message`, behind `send_message`, and those
that come later. -/
inductive Run (peers : Nat) : State → Prop where
  | broadcast {buf : SharedBuffer} (hretain : sharedBufferRetain sharedBufferCreate = .ok buf) :
      Run peers ⟨buf, 0, ∅, true⟩
  | send {buf : SharedBuffer} (hretain : sharedBufferRetain sharedBufferCreate = .ok buf) :
      Run peers ⟨buf, 1, {0}, false⟩
  | step {state next : State} {event : Event} (hrun : Run peers state)
      (henabled : Enabled peers state event) (hstep : step state event = .ok next) :
      Run peers next

/-- The writes that are not complete, and `broadcast_message` while it runs. -/
def State.holders (state : State) : Nat :=
  state.pending.card + if state.running then 1 else 0

/-- The buffer that so many references are held to. -/
def heldBy (holders : Nat) : SharedBuffer where
  refCount := if holders = 0 then none else some (Int32.ofNat holders)
  freed := if holders = 0 then 1 else 0

theorem heldBy_succ (holders : Nat) :
    heldBy (holders + 1) = ⟨some (Int32.ofNat (holders + 1)), 0⟩ :=
  rfl

theorem retain_heldBy (holders : Nat) :
    sharedBufferRetain (heldBy (holders + 1)) = .ok (heldBy (holders + 2)) := by
  rw [heldBy_succ, heldBy_succ, Int32.ofNat_add (holders + 1)]
  rfl

theorem release_heldBy {holders : Nat} (h : holders + 1 < 2 ^ 31) :
    sharedBufferRelease (heldBy (holders + 1)) = .ok (heldBy holders) := by
  have hcount : Int32.ofNat (holders + 1) - 1 = Int32.ofNat holders := by
    rw [Int32.ofNat_add]
    exact Int32.add_sub_cancel _ _
  rw [sharedBufferRelease, heldBy_succ]
  simp only [hcount]
  cases holders with
  | zero => rfl
  | succ holders =>
      have hne : Int32.ofNat (holders + 1) ≠ 0 := by
        intro hzero
        have htoInt := @Int32.toInt_ofNat_of_lt (holders + 1) (by omega)
        rw [hzero] at htoInt
        change (0 : Int) = _ at htoInt
        omega
      rw [if_neg hne]
      rfl

/-- The buffer is held by what the state says. -/
structure Sound (peers : Nat) (state : State) : Prop where
  buf_eq : state.buf = heldBy state.holders
  i_le : state.i ≤ max peers 1
  fresh : ∀ write ∈ state.pending, write < state.i

theorem Sound.card_le {peers : Nat} {state : State} (h : Sound peers state) :
    state.pending.card ≤ max peers 1 := by
  have hsub : state.pending ⊆ Finset.range state.i := by
    intro write hwrite
    exact Finset.mem_range.mpr (h.fresh write hwrite)
  have hcard := Finset.card_le_card hsub
  rw [Finset.card_range] at hcard
  exact hcard.trans h.i_le

variable {peers : Nat} {state next : State}

theorem Sound.issue (h : Sound peers state) (hrunning : state.running = true)
    (hlt : state.i < peers) : ∃ next, step state .issue = .ok next ∧ Sound peers next := by
  have hholders : state.holders = state.pending.card + 1 := by
    rw [State.holders, if_pos hrunning]
  have hnew : state.i ∉ state.pending := fun hmem => (h.fresh _ hmem).ne rfl
  refine ⟨{ state with
    buf := heldBy (state.pending.card + 2)
    i := state.i + 1
    pending := insert state.i state.pending }, ?_, ?_⟩
  · rw [step, h.buf_eq, hholders, retain_heldBy]
    rfl
  · constructor
    · rw [State.holders, if_pos hrunning, Finset.card_insert_of_notMem hnew]
    · change state.i + 1 ≤ max peers 1
      omega
    · intro write hwrite
      change write < state.i + 1
      rcases Finset.mem_insert.mp hwrite with rfl | hwrite
      · exact Nat.lt_succ_self _
      · exact (h.fresh write hwrite).trans (Nat.lt_succ_self _)

theorem Sound.complete (hpeers : peers < 2 ^ 31 - 1) (h : Sound peers state) {write : Nat}
    (hwrite : write ∈ state.pending) :
    ∃ next, step state (.complete write) = .ok next ∧ Sound peers next := by
  have hcard := Finset.card_erase_add_one hwrite
  have hle := h.card_le
  have hholders : state.holders =
      (state.pending.erase write).card + (if state.running then 1 else 0) + 1 := by
    rw [State.holders]
    omega
  refine ⟨{ state with
    buf := heldBy ((state.pending.erase write).card + if state.running then 1 else 0)
    pending := state.pending.erase write }, ?_, ?_⟩
  · rw [step, h.buf_eq, hholders, release_heldBy]
    · rfl
    · split_ifs <;> omega
  · exact ⟨rfl, h.i_le, fun w hw => h.fresh w (Finset.mem_of_mem_erase hw)⟩

theorem Sound.finish (hpeers : peers < 2 ^ 31 - 1) (h : Sound peers state)
    (hrunning : state.running = true) :
    ∃ next, step state .finish = .ok next ∧ Sound peers next := by
  have hle := h.card_le
  have hholders : state.holders = state.pending.card + 1 := by
    rw [State.holders, if_pos hrunning]
  refine ⟨{ state with buf := heldBy state.pending.card, running := false }, ?_, ?_⟩
  · rw [step, h.buf_eq, hholders, release_heldBy]
    · rfl
    · omega
  · exact ⟨rfl, h.i_le, h.fresh⟩

theorem Sound.step (hpeers : peers < 2 ^ 31 - 1) (h : Sound peers state) {event : Event}
    (henabled : Enabled peers state event) :
    ∃ next, step state event = .ok next ∧ Sound peers next := by
  cases event with
  | issue => exact h.issue henabled.1 henabled.2
  | complete write => exact h.complete hpeers henabled
  | finish => exact h.finish hpeers henabled.1

theorem Run.sound (hpeers : peers < 2 ^ 31 - 1) (hrun : Run peers state) : Sound peers state := by
  induction hrun with
  | broadcast hretain =>
      cases hretain
      exact ⟨rfl, Nat.zero_le _, fun write hwrite => absurd hwrite (Finset.notMem_empty write)⟩
  | send hretain =>
      cases hretain
      refine ⟨rfl, le_max_right _ _, ?_⟩
      intro write hwrite
      rw [Finset.mem_singleton.mp hwrite]
      exact Nat.one_pos
  | step hrun henabled hstep ih =>
      obtain ⟨next, hnext, hsound⟩ := ih.step hpeers henabled
      rw [hstep] at hnext
      cases hnext
      exact hsound

theorem shared_buffer_freed_once (hpeers : peers < 2 ^ 31 - 1) (hrun : Run peers state) :
    (∀ refCount, state.buf.refCount = some refCount → refCount.toInt = state.holders) ∧
      (state.buf.refCount = none ↔ state.holders = 0) ∧
      state.buf.freed = (if state.holders = 0 then 1 else 0) ∧
      ∀ event, Enabled peers state event →
        ∃ next, SharedBuffers.step state event = .ok next := by
  have hsound := hrun.sound hpeers
  have hle := hsound.card_le
  have hlt : state.holders < 2 ^ 31 := by
    rw [State.holders]
    split_ifs <;> omega
  rw [hsound.buf_eq]
  refine ⟨?_, ?_, rfl, ?_⟩
  · intro refCount hcount
    rw [heldBy] at hcount
    split_ifs at hcount with hzero
    cases hcount
    exact Int32.toInt_ofNat_of_lt hlt
  · rw [heldBy]
    split_ifs with hzero
    · exact ⟨fun _ => hzero, fun _ => rfl⟩
    · exact ⟨nofun, fun h => absurd h hzero⟩
  · intro event henabled
    obtain ⟨next, hnext, -⟩ := hsound.step hpeers henabled
    exact ⟨next, hnext⟩

/-- The only write completes before `broadcast_message` returns. -/
theorem shared_buffer_freed_once_early :
    ∃ state, Run 1 state ∧ state.running = false ∧ state.buf.freed = 1 := by
  have hstart : Run 1 ⟨heldBy 1, 0, ∅, true⟩ := .broadcast rfl
  have hissue : Run 1 ⟨heldBy 2, 1, {0}, true⟩ :=
    hstart.step (show Enabled 1 _ .issue from ⟨rfl, one_pos⟩) rfl
  have hwritten : Run 1 ⟨heldBy 1, 1, ∅, true⟩ :=
    hissue.step (show Enabled 1 _ (.complete 0) from Finset.mem_singleton_self 0) rfl
  have hfinish : Run 1 ⟨heldBy 0, 1, ∅, false⟩ :=
    hwritten.step (show Enabled 1 _ .finish from ⟨rfl, rfl⟩) rfl
  exact ⟨_, hfinish, rfl, (shared_buffer_freed_once (by norm_num) hfinish).2.2.1⟩

theorem run_issued {i : Nat} (h : i ≤ peers) :
    Run peers ⟨heldBy (i + 1), i, Finset.range i, true⟩ := by
  induction i with
  | zero => exact .broadcast rfl
  | succ i ih =>
      have henabled : Enabled peers ⟨heldBy (i + 1), i, Finset.range i, true⟩ .issue :=
        ⟨rfl, h⟩
      apply (ih (by omega)).step henabled
      rw [SharedBuffers.step, retain_heldBy, Finset.range_add_one]
      rfl

theorem count_overflows :
    ∃ state, Run (2 ^ 31 - 1) state ∧ state.pending.card = 2 ^ 31 - 1 ∧
      state.running = true ∧
      ∃ refCount, state.buf.refCount = some refCount ∧ refCount.toInt = -2 ^ 31 :=
  ⟨_, run_issued le_rfl, Finset.card_range _, rfl, Int32.ofNat (2 ^ 31 - 1 + 1), rfl, by decide⟩

end Whosecoin.SharedBuffers

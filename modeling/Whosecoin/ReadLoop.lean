import Whosecoin.Framing

namespace Whosecoin.ReadLoop

open Library.Outcomes
open Library.ByteStrings
open TupleParser
open DynamicBuffers
open Messages
open Networks

/-- The offsets whose magic number the loop of `find_message_start` reads. -/
def inspectedFrom (data : List UInt8) (bound : Nat) : (fuel i : Nat) → List Nat
  | 0, _ => []
  | fuel + 1, i =>
      if i < bound then
        match messageGetMagic (data.drop i) with
        | .error _ => [i]
        | .ok magic =>
            if magic = messageMagicNumber then [i]
            else i :: inspectedFrom data bound fuel (i + 1)
      else []

/-- The bound of the loop, which is computed in `size_t`. -/
def searchBound (buf : DynamicBuffer) : Nat :=
  (buf.length + 2 ^ 64 - messageHeaderSize + 1) % 2 ^ 64

/-- The positions that a search looks at. -/
def inspected (buf : DynamicBuffer) : List Nat :=
  inspectedFrom buf.data (searchBound buf) (buf.data.length + 1) 0

section Search

variable {data : List UInt8} {bound : Nat}

def HasMagic (data : List UInt8) (i : Nat) : Prop :=
  messageGetMagic (data.drop i) = .ok messageMagicNumber

theorem messageGetMagic_returns {i : Nat} (h : i + 4 ≤ data.length) :
    ∃ magic, messageGetMagic (data.drop i) = .ok magic := by
  apply messageWord_returns
  rw [List.length_drop]
  omega

theorem findMagic_spec (hread : ∀ j, j < bound → j + 4 ≤ data.length) {fuel i : Nat}
    (hfuel : bound ≤ fuel + i) :
    ∃ start, findMagic data bound (fuel + 1) i = .ok start ∧
      ∀ k, start = some k ↔ (i ≤ k ∧ k < bound ∧ HasMagic data k) ∧
        ∀ j, i ≤ j → j < k → ¬ HasMagic data j := by
  induction fuel generalizing i with
  | zero =>
      refine ⟨none, by rw [findMagic, if_neg (by omega)], ?_⟩
      intro k
      constructor
      · intro h
        cases h
      · rintro ⟨⟨hle, hlt, -⟩, -⟩
        omega
  | succ fuel ih =>
      rw [findMagic]
      split_ifs with hlt
      · obtain ⟨magic, hmagic⟩ := messageGetMagic_returns (hread i hlt)
        rw [hmagic, ok_bind]
        split_ifs with heq
        · have hhere : HasMagic data i := by rw [HasMagic, hmagic, heq]
          refine ⟨some i, rfl, ?_⟩
          intro k
          rw [Option.some.injEq]
          constructor
          · rintro rfl
            exact ⟨⟨le_rfl, hlt, hhere⟩, fun j hle hj => absurd hj (Nat.not_lt.mpr hle)⟩
          · rintro ⟨⟨hle, -, -⟩, hfirst⟩
            by_contra hne
            exact hfirst i le_rfl (by omega) hhere
        · have hnot : ¬ HasMagic data i := by
            intro hhere
            rw [HasMagic, hmagic, Except.ok.injEq] at hhere
            exact heq hhere
          obtain ⟨start, hrun, hstart⟩ := @ih (i + 1) (by omega)
          refine ⟨start, hrun, ?_⟩
          intro k
          rw [hstart]
          constructor
          · rintro ⟨⟨hle, hk, hmagic⟩, hfirst⟩
            refine ⟨⟨by omega, hk, hmagic⟩, ?_⟩
            intro j hj hjk
            rcases Nat.eq_or_lt_of_le hj with rfl | hj
            · exact hnot
            · exact hfirst j hj hjk
          · rintro ⟨⟨hle, hk, hmagic⟩, hfirst⟩
            have hne : i ≠ k := by
              rintro rfl
              exact hnot hmagic
            exact ⟨⟨by omega, hk, hmagic⟩, fun j hj hjk => hfirst j (by omega) hjk⟩
      · refine ⟨none, rfl, ?_⟩
        intro k
        constructor
        · intro h
          cases h
        · rintro ⟨⟨hle, hk, -⟩, -⟩
          omega

theorem mem_inspectedFrom {fuel i j : Nat} (h : j ∈ inspectedFrom data bound fuel i) :
    j < bound := by
  induction fuel generalizing i with
  | zero => simp [inspectedFrom] at h
  | succ fuel ih =>
      rw [inspectedFrom] at h
      split_ifs at h with hlt
      · split at h
        · rwa [List.mem_singleton.mp h]
        · split_ifs at h
          · rwa [List.mem_singleton.mp h]
          · rcases List.mem_cons.mp h with rfl | hrest
            · exact hlt
            · exact ih hrest
      · simp at h

/-- `find_message_start` at one offset after the other, until one holds the magic number. -/
def visit (data : List UInt8) : (offsets : List Nat) → Outcome (Option Nat)
  | [] => .ok none
  | i :: offsets => do
      let magic ← messageGetMagic (data.drop i)
      if magic = messageMagicNumber then return some i
      visit data offsets

/-- What is visited ends with the offset that stops the visit. -/
def StopsLast (data : List UInt8) (offsets : List Nat) : Prop :=
  ∀ before j after, offsets = before ++ j :: after → visit data before = .ok none

theorem stopsLast_nil : StopsLast data [] :=
  fun _ _ _ h => absurd h.symm (List.append_ne_nil_of_right_ne_nil _ (List.cons_ne_nil _ _))

theorem stopsLast_singleton (i : Nat) : StopsLast data [i] := by
  intro before j after h
  rcases before with _ | ⟨k, before⟩
  · rfl
  · have hnil := (List.cons.inj h).2
    exact absurd hnil.symm (List.append_ne_nil_of_right_ne_nil _ (List.cons_ne_nil _ _))

/-- The search visits the offsets that it inspects, and stops at none but the last. -/
theorem findMagic_eq_visit {fuel i : Nat} (hfuel : data.length ≤ fuel + i) :
    findMagic data bound (fuel + 1) i = visit data (inspectedFrom data bound (fuel + 1) i) ∧
      StopsLast data (inspectedFrom data bound (fuel + 1) i) := by
  induction fuel generalizing i with
  | zero =>
      have hfails : messageGetMagic (data.drop i) = .error .outOfBounds := by
        rw [List.drop_eq_nil_of_le (by omega)]
        rfl
      rw [findMagic, inspectedFrom, hfails]
      split_ifs
      · rw [visit, hfails]
        exact ⟨rfl, stopsLast_singleton i⟩
      · exact ⟨rfl, stopsLast_nil⟩
  | succ fuel ih =>
      rw [findMagic, inspectedFrom]
      split_ifs with hlt
      · cases hmagic : messageGetMagic (data.drop i) with
        | error fault =>
            rw [visit, hmagic]
            exact ⟨rfl, stopsLast_singleton i⟩
        | ok magic =>
            obtain ⟨hrun, hstops⟩ := @ih (i + 1) (by omega)
            simp only [ok_bind]
            split_ifs with heq
            · rw [visit, hmagic, ok_bind, if_pos heq]
              exact ⟨rfl, stopsLast_singleton i⟩
            · simp only [visit, hmagic, ok_bind, if_neg heq]
              refine ⟨hrun, ?_⟩
              intro before j after h
              rcases before with _ | ⟨k, before⟩
              · rfl
              · obtain ⟨rfl, hrest⟩ := List.cons.inj h
                simp only [visit, hmagic, ok_bind, if_neg heq]
                exact hstops before j after hrest
      · exact ⟨rfl, stopsLast_nil⟩

/-- `find_message_start` visits the offsets that `inspectedFrom` lists. -/
theorem findMessageStart_eq_visit (buf : DynamicBuffer) :
    findMessageStart buf = visit buf.data (inspected buf) ∧
      StopsLast buf.data (inspected buf) :=
  findMagic_eq_visit le_rfl

theorem zero_mem_inspected {buf : DynamicBuffer} (h : 0 < searchBound buf) :
    0 ∈ inspected buf := by
  rw [inspected, inspectedFrom, if_pos h]
  split
  · exact List.mem_singleton_self 0
  · split_ifs
    · exact List.mem_singleton_self 0
    · exact List.mem_cons_self

theorem searchBound_of_le {buf : DynamicBuffer} (h : messageHeaderSize ≤ buf.length + 1) :
    searchBound buf = buf.length + 1 - messageHeaderSize := by
  have hlength := Framing.length_lt buf
  rw [messageHeaderSize] at h
  rw [searchBound, messageHeaderSize]
  omega

/-- The first offset of a whole header that holds the magic number. -/
structure IsStart (buf : DynamicBuffer) (k : Nat) : Prop where
  header_le : k + messageHeaderSize ≤ buf.length
  magic : HasMagic buf.data k
  first : ∀ j, j < k → ¬ HasMagic buf.data j

theorem findMessageStart_spec {buf : DynamicBuffer} (h : messageHeaderSize ≤ buf.length + 1) :
    ∃ start, findMessageStart buf = .ok start ∧ ∀ k, start = some k ↔ IsStart buf k := by
  have hbound := searchBound_of_le h
  have hlength := buf.length_le
  rw [messageHeaderSize] at hbound
  obtain ⟨start, hrun, hstart⟩ := @findMagic_spec buf.data (searchBound buf) (by omega)
    buf.data.length 0 (by omega)
  refine ⟨start, hrun, ?_⟩
  intro k
  rw [hstart]
  constructor
  · rintro ⟨⟨-, hk, hmagic⟩, hfirst⟩
    refine ⟨?_, hmagic, fun j => hfirst j (Nat.zero_le j)⟩
    rw [messageHeaderSize]
    omega
  · rintro ⟨hheader, hmagic, hfirst⟩
    rw [messageHeaderSize] at hheader
    exact ⟨⟨Nat.zero_le k, by omega, hmagic⟩, fun j _ => hfirst j⟩

end Search

/-- The head of the loop of `on_read`: the buffer without its padding and, when all
of it is there, the length of the message that it begins with. -/
def nextMessage (buf : DynamicBuffer) : Outcome (DynamicBuffer × Option Nat) := do
  match ← findMessageStart buf with
  | none => return (buf, none)
  | some padding =>
      let buf ← splice buf padding
      let _guid ← messageGetGuid buf.data
      let length ← messageGetLength buf.data
      let _type ← messageGetType buf.data
      let messageLength := messageHeaderSize + length.toNat
      if buf.length < messageLength then return (buf, none)
      return (buf, some messageLength)

/-- With enough bytes nothing is taken for a message that is not there. -/
theorem nextMessage_spec {buf : DynamicBuffer} (h : messageHeaderSize ≤ buf.length + 1) :
    (findMessageStart buf = .ok none ∧ nextMessage buf = .ok (buf, none)) ∨
      ∃ padding shifted message, findMessageStart buf = .ok (some padding) ∧
        IsStart buf padding ∧ nextMessage buf = .ok (shifted, message) ∧
        shifted.length ≤ buf.length ∧
        ∀ len, message = some len → messageHeaderSize ≤ len ∧ len ≤ shifted.length := by
  obtain ⟨start, hrun, hstart⟩ := findMessageStart_spec h
  cases start with
  | none =>
      refine Or.inl ⟨hrun, ?_⟩
      rw [nextMessage, hrun]
      rfl
  | some padding =>
      have hfirst := (hstart padding).mp rfl
      have hheader := hfirst.header_le
      obtain ⟨shifted, hsplice, -, hlive⟩ := @splice_of_le buf padding (by omega)
      have hshifted : shifted.length = buf.length - padding := by
        rw [← shifted.live_length, hlive, List.length_drop, buf.live_length]
      have hdata : messageHeaderSize ≤ shifted.data.length := by
        have := shifted.length_le
        omega
      obtain ⟨guid, hguid⟩ := messageGetGuid_returns hdata
      obtain ⟨type, htype⟩ := messageGetType_returns hdata
      obtain ⟨length, hlength⟩ := @messageWord_returns shifted.data 1
        (by rw [messageHeaderSize] at hdata; omega)
      rw [nextMessage, hrun, ok_bind]
      simp only [hsplice, hguid, messageGetLength, hlength, htype, ok_bind]
      split_ifs with hshort
      · refine Or.inr ⟨padding, shifted, none, rfl, hfirst, rfl, by omega, ?_⟩
        intro len hlen
        cases hlen
      · refine Or.inr ⟨padding, shifted, some (messageHeaderSize + length.toNat), rfl, hfirst,
          rfl, by omega, ?_⟩
        intro len hlen
        cases hlen
        omega

section Rounds

variable {σ : Type} (handle : σ → List UInt8 → Nat → Outcome σ)

/-- One round of the loop of `on_read`; the flag tells whether there is another. -/
def readRound (buf : DynamicBuffer) (s : σ) : Outcome (Bool × DynamicBuffer × σ) := do
  let (buf, message) ← nextMessage buf
  match message with
  | none => return (false, buf, s)
  | some messageLength =>
      let s ← handle s buf.data messageLength
      let buf ← splice buf messageLength
      return (true, buf, s)

theorem readLoop_succ (fuel : Nat) (buf : DynamicBuffer) (s : σ) :
    readLoop handle (fuel + 1) buf s = readRound handle buf s >>= fun round =>
      if round.1 then readLoop handle fuel round.2.1 round.2.2 else .ok round.2 := by
  rw [readLoop, readRound, nextMessage]
  simp only [bind_assoc]
  congr 1
  funext start
  cases start with
  | none => rfl
  | some padding =>
      simp only [bind_assoc]
      congr 1
      funext shifted
      congr 1
      funext _guid
      congr 1
      funext length
      congr 1
      funext _type
      split_ifs
      · rfl
      · simp only [pure_eq_ok, ok_bind, bind_assoc]
        rfl

/-- A round on a buffer of enough bytes takes nothing out that is not there, and
fails only in the handler. -/
theorem readRound_spec {buf : DynamicBuffer} (h : messageHeaderSize ≤ buf.length + 1) (s : σ) :
    (findMessageStart buf = .ok none ∧ readRound handle buf s = .ok (false, buf, s)) ∨
      ∃ padding, findMessageStart buf = .ok (some padding) ∧ IsStart buf padding ∧
        ((∃ shifted, readRound handle buf s = .ok (false, shifted, s)) ∨
          ∃ (memory : List UInt8) (len : Nat) (next : DynamicBuffer),
            readRound handle buf s = handle s memory len >>= (fun s' => .ok (true, next, s')) ∧
            next.length + messageHeaderSize ≤ buf.length) := by
  rcases nextMessage_spec h with
    ⟨hnone, hrun⟩ | ⟨padding, shifted, message, hfound, hfirst, hrun, hle, hmessage⟩
  · refine Or.inl ⟨hnone, ?_⟩
    rw [readRound, hrun]
    rfl
  · refine Or.inr ⟨padding, hfound, hfirst, ?_⟩
    rw [readRound, hrun]
    cases message with
    | none => exact Or.inl ⟨shifted, rfl⟩
    | some len =>
        obtain ⟨hheader, hlen⟩ := hmessage len rfl
        obtain ⟨next, hnext, -, hlive⟩ := splice_of_le hlen
        refine Or.inr ⟨shifted.data, len, next, ?_, ?_⟩
        · simp only [ok_bind, hnext, pure_eq_ok]
        · rw [← next.live_length, hlive, List.length_drop, shifted.live_length]
          omega

/-- A round after which the loop goes on. -/
def Round (st next : DynamicBuffer × σ) : Prop :=
  readRound handle st.1 st.2 = .ok (true, next)

def startCount : Outcome (Option Nat) → Nat
  | .ok (some _) => 1
  | _ => 0

theorem startCount_le (start : Outcome (Option Nat)) : startCount start ≤ 1 := by
  rcases start with _ | _ | _
  · exact Nat.zero_le 1
  · exact Nat.zero_le 1
  · exact Nat.le_refl 1

/-- How often the body of the loop is run, in so many rounds. -/
def iterations : (fuel : Nat) → DynamicBuffer → σ → Nat
  | 0, _, _ => 0
  | fuel + 1, buf, s =>
      startCount (findMessageStart buf) +
        (readRound handle buf s).toOption.elim 0 fun round =>
          if round.1 then iterations fuel round.2.1 round.2.2 else 0

theorem iterations_le (fuel : Nat) (buf : DynamicBuffer) (s : σ)
    (h : ∀ st, Relation.ReflTransGen (Round handle) (buf, s) st →
      messageHeaderSize ≤ st.1.length + 1) :
    iterations handle fuel buf s * messageHeaderSize ≤ buf.length := by
  induction fuel generalizing buf s with
  | zero =>
      rw [iterations, Nat.zero_mul]
      exact Nat.zero_le _
  | succ fuel ih =>
      have hruns := Nat.mul_le_mul_right messageHeaderSize
        (startCount_le (findMessageStart buf))
      rw [Nat.one_mul] at hruns
      have hhere : messageHeaderSize ≤ buf.length + 1 := h (buf, s) .refl
      rw [iterations, Nat.add_mul]
      rcases readRound_spec handle hhere s with
        ⟨hnone, hround⟩ | ⟨padding, -, hstart,
          ⟨shifted, hround⟩ | ⟨memory, len, next, hround, hle⟩⟩
      · rw [hround, hnone]
        simp [startCount, Except.toOption]
      · have hheader := hstart.header_le
        rw [hround]
        simp only [Except.toOption, Option.elim, Bool.false_eq_true, if_false]
        omega
      · have hheader := hstart.header_le
        cases hhandle : handle s memory len with
        | error e =>
            rw [hhandle, error_bind] at hround
            rw [hround]
            simp only [Except.toOption, Option.elim]
            omega
        | ok s' =>
            rw [hhandle, ok_bind] at hround
            have hrest := ih next s' fun st hst => h st (.head hround hst)
            rw [hround]
            simp only [Except.toOption, Option.elim, if_true]
            omega

end Rounds

section Runs

variable {σ : Type} (handle : σ → List UInt8 → Nat → Outcome σ) (disconnect : σ → σ)

/-- `on_read` for one read after the other, errors included. -/
def onReadAll (st : DynamicBuffer × σ) (reads : List (Int × List UInt8)) :
    Outcome (DynamicBuffer × σ) :=
  reads.foldlM (fun st read => onRead handle disconnect read.1 read.2 st.1 st.2) st

/-- A fresh peer's reads lead to a search for a message in this buffer. -/
def Searched (s : σ) (reads : List (Int × List UInt8)) (st : DynamicBuffer × σ) : Prop :=
  ∃ before read after buf t next, reads = before ++ read :: after ∧
    onReadAll handle disconnect (peerBuffer, s) before = .ok (buf, t) ∧ 0 ≤ read.1 ∧
    dynamicBufferWrite read.2 buf = .ok next ∧
    Relation.ReflTransGen (Round handle) (next, t) st

/-- The arithmetic of a search, and of the loop from there on, is right. -/
structure Safe (st : DynamicBuffer × σ) : Prop where
  inspected_le : ∀ i ∈ inspected st.1, i + messageHeaderSize ≤ st.1.length
  finds_first : ∃ start, findMessageStart st.1 = .ok start ∧
    ∀ k, start = some k ↔ IsStart st.1 k
  padding_le : ∀ padding, findMessageStart st.1 = .ok (some padding) → padding ≤ st.1.length
  round_returns : (∀ memory len, Returns (handle st.2 memory len)) →
    Returns (readRound handle st.1 st.2)
  iterations_le : ∀ fuel, iterations handle fuel st.1 st.2 ≤ st.1.length / messageHeaderSize

variable {handle disconnect} {s : σ} {reads : List (Int × List UInt8)}

theorem Searched.trans {st st' : DynamicBuffer × σ} (h : Searched handle disconnect s reads st)
    (hrounds : Relation.ReflTransGen (Round handle) st st') :
    Searched handle disconnect s reads st' := by
  obtain ⟨before, read, after, buf, t, next, hreads, hrun, hnread, hwrite, hto⟩ := h
  exact ⟨before, read, after, buf, t, next, hreads, hrun, hnread, hwrite, hto.trans hrounds⟩

theorem safe_of_le {st : DynamicBuffer × σ}
    (h : ∀ st', Relation.ReflTransGen (Round handle) st st' →
      messageHeaderSize ≤ st'.1.length + 1) : Safe handle st := by
  have hhere := h st .refl
  have hspec := readRound_spec handle hhere st.2
  constructor
  · intro i hi
    have hlt := mem_inspectedFrom hi
    rw [searchBound_of_le hhere] at hlt
    omega
  · exact findMessageStart_spec hhere
  · intro padding hfound
    obtain ⟨start, hrun, hstart⟩ := findMessageStart_spec hhere
    rw [hfound, Except.ok.injEq] at hrun
    have hheader := ((hstart padding).mp hrun.symm).header_le
    omega
  · intro hreturns
    rcases hspec with ⟨-, hround⟩ | ⟨-, -, -,
      ⟨shifted, hround⟩ | ⟨memory, len, next, hround, -⟩⟩
    · exact ⟨_, hround⟩
    · exact ⟨_, hround⟩
    · obtain ⟨s', hs'⟩ := hreturns memory len
      exact ⟨_, by rw [hround, hs', ok_bind]⟩
  · intro fuel
    rw [Nat.le_div_iff_mul_le (by decide)]
    exact iterations_le handle fuel st.1 st.2 h

/-- The reads of a run are safe exactly when no search is made in less than 25 bytes. -/
theorem safe_iff (handle : σ → List UInt8 → Nat → Outcome σ)
    (disconnect : σ → σ) (s : σ)
    (reads : List (Int × List UInt8)) :
    (∀ st, Searched handle disconnect s reads st → Safe handle st) ↔
      ∀ st, Searched handle disconnect s reads st → 25 ≤ st.1.length := by
  constructor
  · intro hsafe st hst
    by_contra hshort
    have hbound : 0 < searchBound st.1 := by
      rw [searchBound, messageHeaderSize]
      omega
    have hheader := (hsafe st hst).inspected_le 0 (zero_mem_inspected hbound)
    rw [messageHeaderSize] at hheader
    omega
  · intro hlong st hst
    refine safe_of_le ?_
    intro st' hrounds
    have hle := hlong st' (hst.trans hrounds)
    rw [messageHeaderSize]
    omega

/-- On a first read of one byte the search runs off the allocated memory. -/
theorem one_byte_unsafe : ∃ st, Searched Framing.record id [] [(1, [0])] st ∧
    findMessageStart st.1 = .error .outOfBounds ∧ ¬ Safe Framing.record st := by
  obtain ⟨next, hwrite, hdata, hlive⟩ := @dynamicBufferWrite_of_lt peerBuffer [0] (by decide)
  have hrun : findMessageStart next = .error .outOfBounds := by
    have hlength : next.length = 1 := by
      rw [← next.live_length, hlive]
      rfl
    rw [findMessageStart, hdata, hlength]
    rfl
  refine ⟨(next, []),
    ⟨[], (1, [0]), [], peerBuffer, [], next, rfl, rfl, by decide, hwrite, .refl⟩, hrun, ?_⟩
  intro hsafe
  obtain ⟨start, hstart, -⟩ := hsafe.finds_first
  rw [hrun] at hstart
  cases hstart

end Runs

end Whosecoin.ReadLoop

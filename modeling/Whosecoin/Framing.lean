import Whosecoin.Library.Framing
import Whosecoin.Networks

/-!
The stream of a peer is split into the messages that were sent, however the reads cut
it, when each read fills its buffer or ends a message with zeros behind it.
-/

namespace Whosecoin.Framing

open Library.Outcomes
open Library.ByteStrings
open Library.Framing
open TupleParser
open DynamicBuffers
open Messages
open Networks

/-- The messages that `network_send` and `network_broadcast` hand to the sockets. -/
inductive Sent : List UInt8 → Prop where
  | send (self self' : Network) (event : UInt32) (buffer : List UInt8) (socket : Nat)
      (hfits : buffer.length < 2 ^ 32)
      (hrun : networkSend self event buffer socket = .ok self') :
      Sent (messageCreate guidNull event buffer)
  | broadcast (self self' : Network) (guid : Guid) (type : UInt32) (buffer : List UInt8)
      (hfits : buffer.length < 2 ^ 32)
      (hrun : networkBroadcast self guid type buffer = .ok self') :
      Sent (messageCreate guid type buffer)

/-- A call of `on_read` with data: the allocated bytes, of which the first
`nread` come from the stream. -/
structure Read where
  base : List UInt8
  nread : Nat
  nread_pos : 0 < nread
  nread_le : nread ≤ base.length

def Read.chunk (read : Read) : List UInt8 :=
  read.base.take read.nread

/-- The rest of the buffer, which is copied too. -/
def Read.padding (read : Read) : List UInt8 :=
  read.base.drop read.nread

/-- The part of the stream that the reads deliver. -/
def delivered (reads : List Read) : List UInt8 :=
  (reads.map Read.chunk).flatten

/-- A call of `handle_message`: the memory it gets and the length of the message. -/
structure Call where
  memory : List UInt8
  len : Nat

def Call.bytes (call : Call) : List UInt8 :=
  call.memory.take call.len

section Runs

variable {σ : Type} (handle : σ → List UInt8 → Nat → Outcome σ) (disconnect : σ → σ)

/-- `on_read` for one read after the other, on a fresh connection. -/
def onReads (s : σ) (reads : List Read) : Outcome (DynamicBuffer × σ) :=
  reads.foldlM (fun st read => onRead handle disconnect read.nread read.base st.1 st.2)
    (peerBuffer, s)

/-- `handle_message` for one call after the other. -/
def handleCalls (s : σ) (calls : List Call) : Outcome σ :=
  calls.foldlM (fun s call => handle s call.memory call.len) s

theorem onReads_concat (s : σ) (reads : List Read) (read : Read) :
    onReads handle disconnect s (reads ++ [read]) =
      onReads handle disconnect s reads >>= fun st =>
      onRead handle disconnect read.nread read.base st.1 st.2 := by
  rw [onReads, List.foldlM_append]
  congr 1
  funext st
  rw [List.foldlM_cons]
  exact bind_pure _

theorem handleCalls_append (s : σ) (calls later : List Call) :
    handleCalls handle s (calls ++ later) =
      handleCalls handle s calls >>= fun s => handleCalls handle s later :=
  List.foldlM_append

end Runs

/-- The first four bytes of every message. -/
def magicBytes : List UInt8 :=
  toBigEndian 4 messageMagicNumber.toNat

/-- What the reader relies on of a message. -/
structure Framed (message : List UInt8) : Prop where
  magic : At message 0 magicBytes
  length_at : At message 4 (toBigEndian 4 (message.length - messageHeaderSize))
  header_le : messageHeaderSize ≤ message.length
  length_lt : message.length - messageHeaderSize < 2 ^ 32

theorem framed_messageCreate (guid : Guid) (event : UInt32) {buffer : List UInt8}
    (hfits : buffer.length < 2 ^ 32) : Framed (messageCreate guid event buffer) := by
  have hlength :
      (messageCreate guid event buffer).length - messageHeaderSize = buffer.length := by
    rw [messageCreate_length, Nat.add_sub_cancel_left]
  have hword : (UInt32.ofNat buffer.length).toNat = buffer.length :=
    UInt32.toNat_ofNat_of_lt' hfits
  have hat : At (messageCreate guid event buffer) 0
      (magicBytes ++ toBigEndian 4 buffer.length) := by
    rw [messageCreate_eq, header, hword]
    simp only [List.append_assoc]
    exact ⟨[], _, by rw [List.nil_append, magicBytes, List.append_assoc], rfl⟩
  rw [at_append, magicBytes, toBigEndian_length] at hat
  refine ⟨hat.1, ?_, ?_, ?_⟩
  · rw [hlength]
    exact hat.2
  · rw [messageCreate_length]
    exact Nat.le_add_right _ _
  · rwa [hlength]

theorem framed_of_sent {message : List UInt8} (h : Sent message) : Framed message := by
  cases h with
  | send self self' event buffer socket hfits hrun => exact framed_messageCreate _ _ hfits
  | broadcast self self' guid type buffer hfits hrun => exact framed_messageCreate _ _ hfits

theorem magicBytes_length : magicBytes.length = 4 :=
  toBigEndian_length _ _

section Scanning

variable {data : List UInt8} {bound fuel i : Nat}

theorem messageGetMagic_of_at (hat : At data i magicBytes) :
    messageGetMagic (data.drop i) = .ok messageMagicNumber := by
  obtain ⟨after, hafter⟩ := hat.drop_eq
  rw [hafter]
  exact @messageWord_eq_ok _ 0 _ ⟨[], after, rfl, rfl⟩

theorem messageGetMagic_of_zero (hzero : data[i]? = some 0) (hlength : i + 4 ≤ data.length) :
    ∃ magic, messageGetMagic (data.drop i) = .ok magic ∧ magic ≠ messageMagicNumber := by
  have hread : readBytes (data.drop i) 0 4 = .ok ((data.drop i).take 4) := by
    rw [readBytes, if_pos (by rw [List.length_drop]; omega), List.drop_zero]
  refine ⟨UInt32.ofNat (bigEndian ((data.drop i).take 4)), ?_, ?_⟩
  · rw [messageGetMagic, messageWord, Nat.mul_zero, hread, Except.map]
  · have hdrop : data.drop i = 0 :: data.drop (i + 1) := by
      obtain ⟨hlt, hget⟩ := List.getElem?_eq_some_iff.mp hzero
      rw [List.drop_eq_getElem_cons hlt, hget]
    have hrest := bigEndian_lt ((data.drop (i + 1)).take 3)
    have hpow : 256 ^ ((data.drop (i + 1)).take 3).length ≤ 256 ^ 3 :=
      Nat.pow_le_pow_right (by decide) (List.length_take_le _ _)
    have hvalue : bigEndian ((data.drop i).take 4) < 256 ^ 3 := by
      rw [hdrop, List.take_succ_cons, bigEndian, UInt8.toNat_zero, Nat.zero_mul, Nat.zero_add]
      omega
    intro heq
    have hnat := congrArg UInt32.toNat heq
    rw [UInt32.toNat_ofNat_of_lt' (hvalue.trans (by decide))] at hnat
    rw [hnat] at hvalue
    exact absurd hvalue (by decide)

theorem findMagic_zeros {n : Nat} (hzeros : ∀ j, i ≤ j → j < i + n → data[j]? = some 0)
    (hread : i + n + 3 ≤ data.length) (hbound : i + n ≤ bound) :
    findMagic data bound (fuel + n) i = findMagic data bound fuel (i + n) := by
  induction n generalizing i with
  | zero => rfl
  | succ n ih =>
      obtain ⟨magic, hmagic, hne⟩ :=
        @messageGetMagic_of_zero data i (hzeros i le_rfl (by omega)) (by omega)
      rw [← Nat.add_assoc, findMagic, if_pos (by omega), hmagic, ok_bind, if_neg hne,
        ih (fun j hj hlt => hzeros j (by omega) (by omega)) (by omega) (by omega)]
      congr 1
      omega

theorem findMagic_of_at (hat : At data i magicBytes) (hbound : i < bound) :
    findMagic data bound (fuel + 1) i = .ok (some i) := by
  rw [findMagic, if_pos hbound, messageGetMagic_of_at hat, ok_bind, if_pos rfl]
  rfl

end Scanning

section Locating

variable {buf : DynamicBuffer} {k : Nat} {content : List UInt8}

theorem data_eq (buf : DynamicBuffer) : buf.data = buf.live ++ buf.data.drop buf.length :=
  (List.take_append_drop _ _).symm

theorem length_lt (buf : DynamicBuffer) : buf.length < 2 ^ 64 := by
  have hlength := buf.length_le
  have hdata := buf.data_le
  have hcapacity := buf.capacity_lt
  omega

/-- The bound of the search does not wrap in a buffer of at least 25 bytes. -/
theorem searchBound_eq (hlong : 25 ≤ buf.length) :
    (buf.length + 2 ^ 64 - messageHeaderSize + 1) % 2 ^ 64 = buf.length - 25 := by
  have hlength := length_lt buf
  rw [messageHeaderSize]
  omega

theorem length_of_live (hlive : buf.live = List.replicate k 0 ++ content) :
    buf.length = k + content.length := by
  rw [← buf.live_length, hlive, List.length_append, List.length_replicate]

theorem zeros_of_live (hlive : buf.live = List.replicate k 0 ++ content) {j : Nat} (hj : j < k) :
    buf.data[j]? = some 0 := by
  rw [data_eq, hlive, List.append_assoc, List.getElem?_append_left
    (by rw [List.length_replicate]; exact hj), List.getElem?_replicate_of_lt hj]

theorem findMessageStart_of_live (hlive : buf.live = List.replicate k 0 ++ content)
    (hheader : messageHeaderSize ≤ content.length)
    (hmagic : At content 0 magicBytes) : findMessageStart buf = .ok (some k) := by
  have hsize := length_of_live hlive
  have hle := buf.length_le
  rw [messageHeaderSize] at hheader
  have hbound := @searchBound_eq buf (by omega)
  have hfuel : buf.data.length + 1 = buf.data.length - k + 1 + k := by omega
  have hat : At buf.data (0 + k) magicBytes := by
    obtain ⟨before, after, hcontent, hbefore⟩ := hmagic
    refine ⟨List.replicate k 0, after ++ buf.data.drop buf.length, ?_, by simp⟩
    rw [List.eq_nil_of_length_eq_zero hbefore, List.nil_append] at hcontent
    conv_lhs => rw [data_eq, hlive, hcontent]
    simp only [List.append_assoc]
  rw [findMessageStart, hbound, hfuel, findMagic_zeros
    (fun j _ hj => zeros_of_live hlive (by omega)) (by omega) (by omega),
    findMagic_of_at hat (by omega), Nat.zero_add]

theorem findMessageStart_eq_none (hlive : buf.live = List.replicate k 0 ++ content)
    (hzeros : 25 ≤ k)
    (hheader : content.length < messageHeaderSize) : findMessageStart buf = .ok none := by
  have hsize := length_of_live hlive
  have hle := buf.length_le
  rw [messageHeaderSize] at hheader
  have hbound := @searchBound_eq buf (by omega)
  have hfuel : buf.data.length + 1 = buf.data.length - (buf.length - 25) + 1 +
      (buf.length - 25) := by omega
  rw [findMessageStart, hbound, hfuel, findMagic_zeros
    (fun j _ hj => zeros_of_live hlive (by omega)) (by omega) (by omega), findMagic,
    if_neg (by omega)]

/-- In a short buffer the search wraps, and finds what an earlier message left. -/
theorem findMessageStart_of_short (hmagic : At buf.data 0 magicBytes)
    (hshort : buf.length < messageHeaderSize) :
    findMessageStart buf = .ok none ∧ buf.length = 25 ∨
      findMessageStart buf = .ok (some 0) := by
  rw [messageHeaderSize] at hshort
  rcases Nat.lt_or_ge buf.length 25 with hlt | hge
  · right
    rw [findMessageStart]
    exact findMagic_of_at hmagic (by rw [messageHeaderSize]; omega)
  · left
    have hlength : buf.length = 25 := by omega
    refine ⟨?_, hlength⟩
    rw [findMessageStart, hlength, findMagic, if_neg (by decide)]

end Locating

/-- The first four bytes, as far as they are there, are those of the magic number. -/
def Aligned (stream : List UInt8) : Prop :=
  ∀ i, i < 4 → i < stream.length → stream[i]? = magicBytes[i]?

/-- Between two reads the buffer holds a part of the stream and `p` zeros behind
it. Before it there is nothing, and then the memory begins with a magic number, or
so many zeros that the search does not wrap. -/
structure Holds (buf : DynamicBuffer) (stream : List UInt8) (p : Nat) : Prop where
  header_le : messageHeaderSize ≤ buf.data.length
  live_eq : ∃ k, buf.live = List.replicate k 0 ++ (stream ++ List.replicate p 0) ∧
    (k = 0 ∧ At buf.data 0 magicBytes ∨ 25 ≤ k ∨ stream = [] ∧ 25 ≤ k + p)

section Buffers

variable {buf : DynamicBuffer} {stream : List UInt8} {p : Nat}

theorem Framed.aligned_append {message : List UInt8} (h : Framed message) (rest : List UInt8) :
    Aligned (message ++ rest) := by
  intro i hi _
  have hheader := h.header_le
  rw [messageHeaderSize] at hheader
  rw [List.getElem?_append_left (by omega)]
  exact at_zero_iff.mp h.magic i (by rw [magicBytes_length]; exact hi)

theorem aligned_of_begins {done more : List (List UInt8)} (hdone : ∀ m ∈ done, Framed m)
    (hmore : ∀ m ∈ more, Framed m) (h : Begins stream more) :
    Aligned (done.flatten ++ stream) := by
  cases done with
  | cons message done =>
      rw [List.flatten_cons, List.append_assoc]
      exact (hdone message List.mem_cons_self).aligned_append _
  | nil =>
      rcases h with rfl | ⟨message, rest, rfl, ⟨after, rfl⟩, -⟩
      · intro i _ hlt
        simp at hlt
      · rw [List.flatten_nil, List.nil_append]
        intro i hi hlt
        have haligned := (hmore _ List.mem_cons_self).aligned_append [] i hi
          (by rw [List.append_nil, List.length_append]; exact lt_of_lt_of_le hlt (by simp))
        rw [List.append_nil, List.getElem?_append_left hlt] at haligned
        exact haligned

theorem Holds.forget_padding (h : Holds buf [] p) (hp : p = 0 ∨ 25 ≤ p) : Holds buf [] 0 := by
  obtain ⟨k, hlive, hstart⟩ := h.live_eq
  refine ⟨h.header_le, k + p, ?_, ?_⟩
  · rw [hlive, List.nil_append, ← List.replicate_add, List.replicate_zero, List.append_nil,
      List.append_nil]
  · rcases hp with rfl | hp
    · rw [Nat.add_zero]
      rcases hstart with hmagic | hk | ⟨-, hk⟩
      · exact Or.inl hmagic
      · exact Or.inr (Or.inl hk)
      · exact Or.inr (Or.inl hk)
    · exact Or.inr (Or.inl (by omega))

theorem exists_splice_zeros {k : Nat} {content : List UInt8}
    (hlive : buf.live = List.replicate k 0 ++ content) :
    ∃ next, splice buf k = .ok next ∧
      next.data = overwrite buf.data 0 content ∧ next.live = content := by
  have hlength := length_of_live hlive
  obtain ⟨next, hsplice, hdata, hnext⟩ := @splice_of_le buf k (by omega)
  rw [hlive, List.drop_left' (by simp)] at hdata hnext
  exact ⟨next, hsplice, hdata, hnext⟩

theorem overwrite_zero (data bytes : List UInt8) :
    overwrite data 0 bytes = bytes ++ data.drop bytes.length := by
  rw [overwrite, List.take_zero, List.nil_append, Nat.zero_add]

theorem messageGetLength_of_framed {message start after : List UInt8} (h : Framed message)
    (hstart : start <+: message) (hheader : messageHeaderSize ≤ start.length) :
    ∃ length, messageGetLength (start ++ after) = .ok length ∧
      messageHeaderSize + length.toNat = message.length := by
  obtain ⟨rest, hmessage⟩ := hstart
  have hle := h.header_le
  have hword : (UInt32.ofNat (message.length - messageHeaderSize)).toNat =
      message.length - messageHeaderSize := UInt32.toNat_ofNat_of_lt' h.length_lt
  have hat := h.length_at.of_take hmessage.symm
    (by rw [toBigEndian_length]; rw [messageHeaderSize] at hheader; omega)
  rw [← hword] at hat
  exact ⟨_, @messageWord_eq_ok _ 1 _ (hat.append_right after), by rw [hword]; omega⟩

/-- A whole message behind `k` zeros is found, shifted to the front and taken out. -/
structure Extracted (buf : DynamicBuffer) (message rest : List UInt8) (k : Nat)
    (shifted next : DynamicBuffer) : Prop where
  found : findMessageStart buf = .ok (some k)
  shift : splice buf k = .ok shifted
  data_eq : shifted.data = message ++ (rest ++ buf.data.drop (message ++ rest).length)
  guid : ∃ guid, messageGetGuid shifted.data = .ok guid
  type : ∃ type, messageGetType shifted.data = .ok type
  length : ∃ length, messageGetLength shifted.data = .ok length ∧
    messageHeaderSize + length.toNat = message.length
  length_le : message.length ≤ shifted.length
  take : splice shifted message.length = .ok next
  next_data : next.data = overwrite shifted.data 0 rest
  next_live : next.live = rest

theorem exists_extracted {message rest : List UInt8} {k : Nat}
    (hlive : buf.live = List.replicate k 0 ++ (message ++ rest)) (hframed : Framed message) :
    ∃ shifted next, Extracted buf message rest k shifted next := by
  have hheader := hframed.header_le
  have hfound := findMessageStart_of_live hlive
    (by rw [List.length_append]; omega) (hframed.magic.append_right _)
  obtain ⟨shifted, hshift, hdata, hshifted⟩ := exists_splice_zeros hlive
  rw [overwrite_zero, List.append_assoc] at hdata
  have hlength : shifted.length = message.length + rest.length := by
    rw [← shifted.live_length, hshifted, List.length_append]
  obtain ⟨next, htake, hnextData, hnextLive⟩ := @splice_of_le shifted message.length (by omega)
  rw [hshifted, List.drop_left] at hnextData hnextLive
  have hmessageData : messageHeaderSize ≤ shifted.data.length := by
    rw [hdata, List.length_append]
    omega
  have hget := @messageGetLength_of_framed message message
    (rest ++ buf.data.drop (message ++ rest).length) hframed (List.prefix_refl message) hheader
  rw [← hdata] at hget
  exact ⟨shifted, next, hfound, hshift, hdata, messageGetGuid_returns hmessageData,
    messageGetType_returns hmessageData, hget, by omega, htake, hnextData, hnextLive⟩

end Buffers

section Loop

variable {σ : Type} (handle : σ → List UInt8 → Nat → Outcome σ)

/-- One round of the loop on a whole message: it is handled and taken out. -/
theorem readLoop_message {buf : DynamicBuffer} {message stream : List UInt8} {p : Nat}
    (hbuf : Holds buf (message ++ stream) p) (hframed : Framed message)
    (haligned : Aligned stream)
    (hclear : p = 0 ∨ 4 ≤ stream.length ∨ stream = [] ∧ 25 ≤ p) :
    ∃ (call : Call) (next : DynamicBuffer), call.bytes = message ∧
      Holds next stream p ∧ ∀ fuel s, readLoop handle (fuel + 1) buf s =
        handle s call.memory call.len >>= fun s => readLoop handle fuel next s := by
  obtain ⟨k, hlive, -⟩ := hbuf.live_eq
  rw [List.append_assoc] at hlive
  have hheader := hframed.header_le
  have hlength := length_of_live hlive
  have hdataLength := hbuf.header_le
  rw [List.length_append] at hlength
  obtain ⟨shifted, next, hextracted⟩ := exists_extracted hlive hframed
  have hshiftData := hextracted.data_eq
  have hnextData := hextracted.next_data
  have hnextLive := hextracted.next_live
  have hmessageData : messageHeaderSize ≤ shifted.data.length := by
    rw [hshiftData, List.length_append]
    omega
  obtain ⟨guid, hguid⟩ := hextracted.guid
  obtain ⟨type, htype⟩ := hextracted.type
  obtain ⟨length, hget, hsum⟩ := hextracted.length
  refine ⟨⟨shifted.data, message.length⟩, next, ?_, ?_, ?_⟩
  · rw [Call.bytes, hshiftData, List.take_left]
  · refine ⟨?_, 0, by rw [hnextLive, List.replicate_zero, List.nil_append], ?_⟩
    · rw [hnextData, length_overwrite (Nat.zero_le _)]
      omega
    · rw [Nat.zero_add]
      rcases hclear with hp | hlong | hempty
      · -- the bytes that the stream does not cover are those of the handled message
        refine Or.inl ⟨rfl, at_zero_iff.mpr fun i hi => ?_⟩
        rw [magicBytes_length] at hi
        rw [hp, List.replicate_zero, List.append_nil] at hnextData
        rw [hnextData]
        rcases Nat.lt_or_ge i stream.length with hlt | hge
        · have hcovered := @overwrite_getElem?_of_mem shifted.data stream 0 i (Nat.zero_le _) hlt
          rw [Nat.zero_add] at hcovered
          rw [hcovered, haligned i hi hlt]
        · rw [overwrite_getElem?_of_ge (Nat.zero_le _) (by omega), hshiftData]
          exact hframed.aligned_append _ i hi (by
            rw [List.length_append]
            rw [messageHeaderSize] at hheader
            omega)
      · refine Or.inl ⟨rfl, at_zero_iff.mpr fun i hi => ?_⟩
        rw [magicBytes_length] at hi
        rw [hnextData, overwrite_zero, List.append_assoc,
          List.getElem?_append_left (by omega), haligned i hi (by omega)]
      · exact Or.inr (Or.inr hempty)
  · intro fuel s
    have hle := hextracted.length_le
    rw [readLoop, hextracted.found, ok_bind]
    simp only [hextracted.shift, hguid, hget, htype, ok_bind]
    rw [if_neg (by omega), hsum]
    simp only [hextracted.take, ok_bind]

theorem readLoop_none {buf : DynamicBuffer} (hnone : findMessageStart buf = .ok none) (fuel : Nat)
    (s : σ) : readLoop handle (fuel + 1) buf s = .ok (buf, s) := by
  rw [readLoop, hnone, ok_bind]
  rfl

theorem readLoop_incomplete {buf next : DynamicBuffer} {k : Nat} {length : UInt32}
    (hfound : findMessageStart buf = .ok (some k)) (hsplice : splice buf k = .ok next)
    (hdata : messageHeaderSize ≤ next.data.length)
    (hget : messageGetLength next.data = .ok length)
    (hshort : next.length < messageHeaderSize + length.toNat) (fuel : Nat) (s : σ) :
    readLoop handle (fuel + 1) buf s = .ok (next, s) := by
  obtain ⟨guid, hguid⟩ := messageGetGuid_returns hdata
  obtain ⟨type, htype⟩ := messageGetType_returns hdata
  rw [readLoop, hfound, ok_bind]
  simp only [hsplice, hguid, hget, htype, ok_bind]
  rw [if_pos hshort]
  rfl

theorem holds_of_live {next : DynamicBuffer} {pending : List UInt8} (hlive : next.live = pending)
    (hdata : messageHeaderSize ≤ next.data.length) (hmagic : At next.data 0 magicBytes) :
    Holds next pending 0 := by
  refine ⟨hdata, 0, ?_, Or.inl ⟨rfl, hmagic⟩⟩
  rw [hlive, List.replicate_zero, List.nil_append, List.append_nil]

theorem readLoop_stop {buf : DynamicBuffer} {pending : List UInt8} {more : List (List UInt8)}
    (hbuf : Holds buf pending 0) (hmore : ∀ m ∈ more, Framed m)
    (hbegins : Begins pending more) :
    ∃ next, Holds next pending 0 ∧ ∀ fuel s,
      readLoop handle (fuel + 1) buf s = .ok (next, s) := by
  obtain ⟨k, hlive, hstart⟩ := hbuf.live_eq
  rw [List.replicate_zero, List.append_nil] at hlive
  have hlength := length_of_live hlive
  have hdataLength := hbuf.header_le
  obtain ⟨next, hsplice, hdata, hnext⟩ := exists_splice_zeros hlive
  have hnextLength : next.length = pending.length := by rw [← next.live_length, hnext]
  rcases Nat.lt_or_ge pending.length messageHeaderSize with hshort | hlong
  · have hzeros : 25 ≤ k ∨ k = 0 ∧ At buf.data 0 magicBytes := by
      rcases hstart with hmagic | hk | ⟨-, hk⟩
      · exact Or.inr hmagic
      · exact Or.inl hk
      · exact Or.inl hk
    rcases hzeros with hk | ⟨rfl, hmagic⟩
    · have hnone := findMessageStart_eq_none hlive hk hshort
      exact ⟨buf, hbuf, readLoop_none handle hnone⟩
    · rcases findMessageStart_of_short hmagic (by omega) with ⟨hnone, -⟩ | hfound
      · exact ⟨buf, hbuf, readLoop_none handle hnone⟩
      · -- the length field may come from older bytes, but no message is that short
        have hsame : next.data = buf.data := by
          rw [hdata, overwrite_zero]
          conv_rhs => rw [data_eq, hlive, hlength]
          rw [List.replicate_zero, List.nil_append, Nat.zero_add]
        have hnextData : messageHeaderSize ≤ next.data.length := by rwa [hsame]
        obtain ⟨length, hget⟩ := @messageWord_returns next.data 1
          (by rw [messageHeaderSize] at hnextData; omega)
        refine ⟨next, holds_of_live hnext hnextData (by rwa [hsame]), ?_⟩
        exact readLoop_incomplete handle hfound hsplice hnextData hget (by omega)
  · rcases hbegins with rfl | ⟨message, rest, rfl, hpre, hlt⟩
    · rw [messageHeaderSize] at hlong
      simp at hlong
    have hframed := hmore message List.mem_cons_self
    obtain ⟨after, hmessage⟩ := hpre
    have hmagic := hframed.magic.of_take hmessage.symm
      (by rw [magicBytes_length]; rw [messageHeaderSize] at hlong; omega)
    have hfound := findMessageStart_of_live hlive hlong hmagic
    rw [overwrite_zero] at hdata
    have hnextData : messageHeaderSize ≤ next.data.length := by
      rw [hdata, List.length_append]
      omega
    obtain ⟨length, hget, hsum⟩ :=
      @messageGetLength_of_framed _ _ (buf.data.drop pending.length) hframed
        ⟨after, hmessage⟩ hlong
    rw [← hdata] at hget
    refine ⟨next, holds_of_live hnext hnextData ?_, ?_⟩
    · rw [hdata]
      exact hmagic.append_right _
    · exact readLoop_incomplete handle hfound hsplice hnextData hget (by omega)

/-- The loop handles the whole messages in the buffer, one after the other. -/
theorem readLoop_eq {done more : List (List UInt8)} (hdone : ∀ m ∈ done, Framed m)
    (hmore : ∀ m ∈ more, Framed m) {buf : DynamicBuffer} {pending : List UInt8} {p : Nat}
    (hbuf : Holds buf (done.flatten ++ pending) p) (hbegins : Begins pending more)
    (hpadding : p = 0 ∨ pending = [] ∧ 25 ≤ p) :
    ∃ calls next, calls.map Call.bytes = done ∧ Holds next pending 0 ∧ ∀ fuel s,
      done.length < fuel → readLoop handle fuel buf s =
        handleCalls handle s calls >>= fun s => .ok (next, s) := by
  induction done generalizing buf with
  | nil =>
      rw [List.flatten_nil, List.nil_append] at hbuf
      have hstopped : Holds buf pending 0 := by
        rcases hpadding with rfl | ⟨rfl, hp⟩
        · exact hbuf
        · exact hbuf.forget_padding (Or.inr hp)
      obtain ⟨next, hnext, hrun⟩ := readLoop_stop handle hstopped hmore hbegins
      refine ⟨[], next, rfl, hnext, fun fuel s hfuel => ?_⟩
      rcases fuel with _ | fuel
      · omega
      · rw [hrun fuel s]
        rfl
  | cons message done ih =>
      have hrest := fun m hm => hdone m (List.mem_cons_of_mem message hm)
      rw [List.flatten_cons, List.append_assoc] at hbuf
      have hclear : p = 0 ∨ 4 ≤ (done.flatten ++ pending).length ∨
          done.flatten ++ pending = [] ∧ 25 ≤ p := by
        rcases hpadding with hp | ⟨rfl, hp⟩
        · exact Or.inl hp
        · cases done with
          | nil => exact Or.inr (Or.inr ⟨rfl, hp⟩)
          | cons first done =>
              have hheader := (hrest first List.mem_cons_self).header_le
              rw [messageHeaderSize] at hheader
              rw [List.append_nil, List.flatten_cons, List.length_append]
              omega
      obtain ⟨call, next, hcall, hnext, hrun⟩ := readLoop_message handle hbuf
        (hdone message List.mem_cons_self) (aligned_of_begins hrest hmore hbegins) hclear
      obtain ⟨calls, last, hcalls, hlast, hruns⟩ := ih hrest hnext
      refine ⟨call :: calls, last, by rw [List.map_cons, hcall, hcalls], hlast, ?_⟩
      intro fuel s hfuel
      rcases fuel with _ | fuel
      · omega
      rw [List.length_cons] at hfuel
      rw [hrun fuel s, handleCalls, List.foldlM_cons, bind_assoc]
      congr 1
      funext s'
      exact hruns fuel s' (by omega)

end Loop

section Steps

variable {buf : DynamicBuffer} {pending chunk : List UInt8} {p : Nat}

theorem Holds.write (h : Holds buf pending 0) (haligned : Aligned (pending ++ chunk))
    (hclear : p = 0 ∨ 4 ≤ (pending ++ chunk).length)
    (hfit : buf.length + (chunk ++ List.replicate p 0).length < 2 ^ 31) :
    ∃ next, dynamicBufferWrite (chunk ++ List.replicate p 0) buf = .ok next ∧
      Holds next (pending ++ chunk) p := by
  obtain ⟨k, hlive, hstart⟩ := h.live_eq
  rw [List.replicate_zero, List.append_nil] at hlive
  have hlength := length_of_live hlive
  obtain ⟨next, hwrite, hdata, hnext⟩ := dynamicBufferWrite_of_lt hfit
  refine ⟨next, hwrite, ?_, k, ?_, ?_⟩
  · have := h.header_le
    rw [hdata, length_overwrite buf.length_le]
    omega
  · rw [hnext, hlive]
    simp only [List.append_assoc]
  · rcases hstart with ⟨rfl, hmagic⟩ | hk | ⟨-, hk⟩
    · refine Or.inl ⟨rfl, at_zero_iff.mpr fun i hi => ?_⟩
      have hold := at_zero_iff.mp hmagic i hi
      rw [magicBytes_length] at hi
      rw [List.replicate_zero, List.nil_append] at hlive
      rw [Nat.zero_add] at hlength
      rw [hdata]
      rcases Nat.lt_or_ge i buf.length with hlt | hge
      · rw [overwrite_getElem?_of_lt buf.length_le hlt, hold]
      rcases Nat.lt_or_ge i (pending ++ chunk).length with hlt | hge'
      · have hwritten := @overwrite_getElem?_of_mem buf.data (chunk ++ List.replicate p 0)
          buf.length (i - buf.length) buf.length_le
          (by rw [List.length_append] at hlt ⊢; omega)
        have hstream := haligned i hi hlt
        rw [List.length_append] at hlt
        rw [Nat.add_sub_cancel' hge, List.getElem?_append_left (by omega)] at hwritten
        rw [List.getElem?_append_right (by omega), ← hlength] at hstream
        rw [hwritten, hstream]
      · have hp : p = 0 := by omega
        rw [hp, List.replicate_zero, List.append_nil]
        rw [List.length_append] at hge'
        rw [overwrite_getElem?_of_ge buf.length_le (by omega), hold]
    · exact Or.inr (Or.inl hk)
    · exact Or.inr (Or.inl hk)

theorem holds_first (haligned : Aligned chunk) (hlong : 4 ≤ chunk.length)
    (hfit : (chunk ++ List.replicate p 0).length < 2 ^ 31) :
    ∃ next, dynamicBufferWrite (chunk ++ List.replicate p 0) peerBuffer = .ok next ∧
      Holds next chunk p := by
  have hempty : peerBuffer.live = [] := rfl
  have hlength : peerBuffer.length = 0 := rfl
  have hmemory : peerBuffer.data.length = 32 := List.length_replicate
  obtain ⟨next, hwrite, hdata, hnext⟩ :=
    @dynamicBufferWrite_of_lt peerBuffer (chunk ++ List.replicate p 0)
      (by rw [hlength, Nat.zero_add]; exact hfit)
  refine ⟨next, hwrite, ?_, 0, ?_, Or.inl ⟨rfl, ?_⟩⟩
  · rw [hdata, length_overwrite peerBuffer.length_le, hmemory, messageHeaderSize]
    omega
  · rw [hnext, hempty, List.replicate_zero]
  · refine at_zero_iff.mpr fun i hi => ?_
    rw [magicBytes_length] at hi
    rw [hdata, hlength, overwrite_zero, List.append_assoc,
      List.getElem?_append_left (by omega), haligned i hi (by omega)]

end Steps

/-- Every read fills its buffer, or ends where a message ends and leaves at least
25 zero bytes behind it. -/
structure Clean (messages : List (List UInt8)) (reads : List Read) : Prop where
  first : ∀ read rest, reads = read :: rest → 4 ≤ read.nread
  filled : ∀ before read after, reads = before ++ read :: after → read.padding = [] ∨
    (∃ done, done <+: messages ∧ delivered (before ++ [read]) = done.flatten) ∧
      ∃ p, 25 ≤ p ∧ read.padding = List.replicate p 0

section Runs

variable {σ : Type} (handle : σ → List UInt8 → Nat → Outcome σ)
  (disconnect : σ → σ) (s : σ)

/-- Whenever `on_read` is called, the buffer with the new bytes is below 2^31 bytes. -/
def Fits (reads : List Read) : Prop :=
  ∀ before read after, reads = before ++ read :: after → ∀ buf s',
    onReads handle disconnect s before = .ok (buf, s') → buf.length + read.base.length < 2 ^ 31

theorem Clean.of_append {messages : List (List UInt8)} {before after : List Read}
    (h : Clean messages (before ++ after)) : Clean messages before := by
  constructor
  · rintro read rest rfl
    exact h.first read (rest ++ after) rfl
  · rintro start read rest rfl
    exact h.filled start read (rest ++ after) (by rw [List.append_assoc, List.cons_append])

variable {handle disconnect s}

theorem Fits.of_append {before after : List Read}
    (h : Fits handle disconnect s (before ++ after)) : Fits handle disconnect s before := by
  rintro start read rest rfl
  exact h start read (rest ++ after) (by rw [List.append_assoc, List.cons_append])

theorem delivered_append (reads : List Read) (read : Read) :
    delivered (reads ++ [read]) = delivered reads ++ read.chunk := by
  simp [delivered]

theorem length_le_flatten {frames : List (List UInt8)} (h : ∀ m ∈ frames, Framed m) :
    frames.length ≤ frames.flatten.length := by
  induction frames with
  | nil => exact le_rfl
  | cons message frames ih =>
      have hheader := (h message List.mem_cons_self).header_le
      have hrest := ih fun m hm => h m (List.mem_cons_of_mem message hm)
      rw [messageHeaderSize] at hheader
      rw [List.flatten_cons, List.length_append, List.length_cons]
      omega

theorem within_zero {messages : List (List UInt8)} (h : ∀ m ∈ messages, Framed m) :
    within 0 messages = [] := by
  cases messages with
  | nil => rfl
  | cons message messages =>
      have hheader := (h message List.mem_cons_self).header_le
      rw [messageHeaderSize] at hheader
      rw [within, if_neg (by omega)]

theorem within_of_whole {messages done : List (List UInt8)} (h : ∀ m ∈ messages, Framed m)
    (hdone : done <+: messages) : within done.flatten.length messages = done := by
  obtain ⟨rest, rfl⟩ := hdone
  rw [within_append le_rfl, Nat.sub_self,
    within_zero fun m hm => h m (List.mem_append_right done hm), List.append_nil]

/-- What is left of the connection when a run has handled the given calls: its
buffer holds the part of the stream that belongs to the next message. -/
def Keeps (messages : List (List UInt8)) (reads : List Read) (buf : DynamicBuffer) : Prop :=
  ∃ more pending, messages = within (delivered reads).length messages ++ more ∧
    delivered reads = (within (delivered reads).length messages).flatten ++ pending ∧
    Begins pending more ∧ (reads = [] ∧ buf = peerBuffer ∨ Holds buf pending 0)

theorem four_le_flatten {messages : List (List UInt8)} (hframed : ∀ m ∈ messages, Framed m)
    (hpos : 0 < messages.flatten.length) : 4 ≤ messages.flatten.length := by
  cases messages with
  | nil =>
      rw [List.flatten_nil, List.length_nil] at hpos
      omega
  | cons message messages =>
      have hheader := (hframed message List.mem_cons_self).header_le
      rw [messageHeaderSize] at hheader
      rw [List.flatten_cons, List.length_append]
      omega

theorem exists_holds {messages : List (List UInt8)} {reads : List Read} {read : Read}
    {buf : DynamicBuffer} {pending : List UInt8} {p : Nat}
    (hbuf : reads = [] ∧ buf = peerBuffer ∨ Holds buf pending 0)
    (hstart : reads = [] → pending = []) (hclean : Clean messages (reads ++ [read]))
    (haligned : Aligned (pending ++ read.chunk))
    (hclear : p = 0 ∨ 4 ≤ (pending ++ read.chunk).length)
    (hbase : read.base = read.chunk ++ List.replicate p 0)
    (hfit : buf.length + read.base.length < 2 ^ 31) :
    ∃ next, dynamicBufferWrite read.base buf = .ok next ∧
      Holds next (pending ++ read.chunk) p := by
  rw [hbase] at hfit ⊢
  rcases hbuf with ⟨rfl, rfl⟩ | hbuf
  · have hlong := hclean.first read [] rfl
    rw [hstart rfl, List.nil_append] at haligned ⊢
    refine holds_first haligned ?_ ?_
    · rw [Read.chunk, List.length_take_of_le read.nread_le]
      exact hlong
    · omega
  · exact hbuf.write haligned hclear hfit

theorem exists_write {messages : List (List UInt8)} {reads : List Read} {read : Read}
    {buf : DynamicBuffer} {p : Nat} (hframed : ∀ m ∈ messages, Framed m)
    (hkeeps : Keeps messages reads buf)
    (hstream : delivered (reads ++ [read]) <+: messages.flatten)
    (hclean : Clean messages (reads ++ [read]))
    (hfit : buf.length + read.base.length < 2 ^ 31)
    (hpadding : read.padding = List.replicate p 0)
    (hp : p = 0 ∨ 25 ≤ p ∧ ∃ done, done <+: messages ∧
      delivered (reads ++ [read]) = done.flatten) :
    ∃ done more pending next, within (delivered (reads ++ [read])).length messages =
        within (delivered reads).length messages ++ done ∧
      messages = within (delivered (reads ++ [read])).length messages ++ more ∧
      delivered (reads ++ [read]) =
        (within (delivered (reads ++ [read])).length messages).flatten ++ pending ∧
      Begins pending more ∧ (p = 0 ∨ pending = [] ∧ 25 ≤ p) ∧
      dynamicBufferWrite read.base buf = .ok next ∧ Holds next (done.flatten ++ pending) p := by
  have hbase : read.base = read.chunk ++ List.replicate p 0 := by
    rw [← hpadding]
    exact (List.take_append_drop _ _).symm
  have hnonempty : 0 < read.chunk.length := by
    rw [Read.chunk, List.length_take_of_le read.nread_le]
    exact read.nread_pos
  obtain ⟨more, pending, hmessages, hdelivered, -, hbuf⟩ := hkeeps
  generalize within (delivered reads).length messages = handled at hmessages hdelivered ⊢
  have hmore : ∀ m ∈ more, Framed m := by
    intro m hm
    exact hframed m (hmessages ▸ List.mem_append_right handled hm)
  have hrest : pending ++ read.chunk <+: more.flatten := by
    rw [delivered_append, hdelivered, hmessages, List.flatten_append, List.append_assoc,
      List.prefix_append_right_inj] at hstream
    exact hstream
  -- the stream up to the end of the read
  obtain ⟨more', pending', hmore', hchunk, hbegins'⟩ := exists_cut hrest
  generalize hdone : within (pending ++ read.chunk).length more = done at hmore' hchunk
  have hwithin : within (delivered (reads ++ [read])).length messages = handled ++ done := by
    rw [delivered_append, hdelivered, hmessages, List.append_assoc, List.length_append,
      within_append (Nat.le_add_right _ _), Nat.add_sub_cancel_left, hdone]
  have hsplit : delivered (reads ++ [read]) = (handled ++ done).flatten ++ pending' := by
    rw [delivered_append, hdelivered, List.append_assoc, hchunk, List.flatten_append,
      List.append_assoc]
  have haligned : Aligned (pending ++ read.chunk) := by
    rw [hchunk]
    refine aligned_of_begins ?_ ?_ hbegins'
    · exact fun m hm => hmore m (hmore' ▸ List.mem_append_left more' hm)
    · exact fun m hm => hmore m (hmore' ▸ List.mem_append_right done hm)
  have hwhole : p = 0 ∨ pending' = [] ∧ 25 ≤ p := by
    rcases hp with hp | ⟨hp, d, hd, hend⟩
    · exact Or.inl hp
    · have heq := within_of_whole hframed hd
      rw [← hend, hwithin] at heq
      have hlength := congrArg List.length hsplit
      rw [hend, heq, List.length_append] at hlength
      exact Or.inr ⟨List.eq_nil_of_length_eq_zero (by omega), hp⟩
  have hclear : p = 0 ∨ 4 ≤ (pending ++ read.chunk).length := by
    rcases hwhole with hp | ⟨rfl, -⟩
    · exact Or.inl hp
    · have hlength := congrArg List.length hchunk
      rw [List.append_nil] at hchunk hlength
      rw [List.length_append] at hlength
      right
      rw [hchunk]
      apply four_le_flatten
      · exact fun m hm => hmore m (hmore' ▸ List.mem_append_left more' hm)
      · omega
  have hstart : reads = [] → pending = [] := by
    rintro rfl
    have hlength := congrArg List.length hdelivered
    rw [List.length_append] at hlength
    exact List.eq_nil_of_length_eq_zero (by simp [delivered] at hlength; omega)
  obtain ⟨next, hwrite, hnext⟩ := exists_holds hbuf hstart hclean haligned hclear hbase hfit
  rw [hchunk] at hnext
  refine ⟨done, more', pending', next, hwithin, ?_, ?_, hbegins', hwhole, hwrite, hnext⟩
  · rw [hwithin, List.append_assoc, ← hmore', ← hmessages]
  · rw [hwithin, hsplit]

/-- Every run handles the messages that the stream has completed so far. -/
theorem onReads_spec {messages : List (List UInt8)} (hframed : ∀ m ∈ messages, Framed m)
    (reads : List Read) (hstream : delivered reads <+: messages.flatten)
    (hclean : Clean messages reads) (hfits : Fits handle disconnect s reads) :
    ∃ (calls : List Call) (buf : DynamicBuffer),
      calls.map Call.bytes = within (delivered reads).length messages ∧
      onReads handle disconnect s reads = (handleCalls handle s calls >>= fun s => .ok (buf, s)) ∧
      ((∃ s', handleCalls handle s calls = .ok s') → Keeps messages reads buf) := by
  induction reads using List.reverseRecOn with
  | nil =>
      have hzero : within (delivered ([] : List Read)).length messages = [] := within_zero hframed
      refine ⟨[], peerBuffer, hzero.symm, rfl,
        fun _ => ⟨messages, [], ?_, ?_, Or.inl rfl, ?_⟩⟩
      · rw [hzero, List.nil_append]
      · rw [hzero]
        rfl
      · exact Or.inl ⟨rfl, rfl⟩
  | append_singleton reads read ih =>
      have hbefore : delivered reads <+: messages.flatten := by
        rw [delivered_append] at hstream
        exact (List.prefix_append _ _).trans hstream
      obtain ⟨calls, buf, hcalls, hrun, hkeeps⟩ := ih hbefore hclean.of_append hfits.of_append
      obtain ⟨p, hpadding, hp⟩ : ∃ p, read.padding = List.replicate p 0 ∧
        (p = 0 ∨ 25 ≤ p ∧
          ∃ done, done <+: messages ∧ delivered (reads ++ [read]) = done.flatten) := by
        rcases hclean.filled reads read [] rfl with hempty | ⟨hwhole, p, hp, hpadding⟩
        · exact ⟨0, by rw [hempty]; rfl, Or.inl rfl⟩
        · exact ⟨p, hpadding, Or.inr ⟨hp, hwhole⟩⟩
      cases hresult : handleCalls handle s calls with
      | error e =>
          -- no later message is handled, whatever its call would be
          obtain ⟨rest, hrest⟩ := within_mono
            (show (delivered reads).length ≤ (delivered (reads ++ [read])).length by
              rw [delivered_append, List.length_append]; omega) messages
          have herror : ∀ later, handleCalls handle s (calls ++ later) = .error e := by
            intro later
            rw [handleCalls_append, hresult, error_bind]
          refine ⟨calls ++ rest.map fun m => ⟨m, m.length⟩, buf, ?_, ?_, ?_⟩
          · rw [List.map_append, hcalls, ← hrest, List.map_map]
            simp [Function.comp_def, Call.bytes]
          · rw [onReads_concat, hrun, hresult, herror]
            rfl
          · rintro ⟨s', hs'⟩
            rw [herror] at hs'
            cases hs'
      | ok s' =>
          rw [hresult, ok_bind] at hrun
          have hfit := hfits reads read [] rfl buf s' hrun
          obtain ⟨done, more, pending, next, hwithin, hmessages, hdelivered, hbegins, hwhole,
            hwrite, hnext⟩ := exists_write hframed (hkeeps ⟨s', hresult⟩) hstream hclean hfit
              hpadding hp
          have hdone : ∀ m ∈ done, Framed m := by
            intro m hm
            exact hframed m (hmessages ▸ List.mem_append_left more
              (hwithin ▸ List.mem_append_right _ hm))
          have hmore : ∀ m ∈ more, Framed m := by
            intro m hm
            exact hframed m (hmessages ▸ List.mem_append_right _ hm)
          obtain ⟨later, last, hlater, hlast, hloop⟩ :=
            readLoop_eq handle hdone hmore hnext hbegins hwhole
          refine ⟨calls ++ later, last, ?_, ?_, fun _ => ?_⟩
          · rw [List.map_append, hcalls, hlater, hwithin]
          · have hfuel : done.length < next.length + 1 := by
              obtain ⟨k, hlive, -⟩ := hnext.live_eq
              have hlength := length_of_live hlive
              have hcount := length_le_flatten hdone
              rw [List.length_append, List.length_append] at hlength
              omega
            rw [onReads_concat, hrun, ok_bind, onRead, if_neg (by omega), hwrite, ok_bind,
              hloop _ _ hfuel, handleCalls_append, hresult, ok_bind]
          · exact ⟨more, pending, hmessages, hdelivered, hbegins, Or.inr hlast⟩

/-- `on_read` calls `handle_message` once for each message, in order and on its
bytes, however the stream is cut into such reads. -/
theorem onReads_handles_each {messages : List (List UInt8)} (hsent : ∀ m ∈ messages, Sent m)
    {reads : List Read} (hstream : delivered reads = messages.flatten)
    (hclean : Clean messages reads) (hfits : Fits handle disconnect s reads) :
    (∃ (calls : List Call) (buf : DynamicBuffer), calls.map Call.bytes = messages ∧
      onReads handle disconnect s reads = handleCalls handle s calls >>= fun s => .ok (buf, s)) ∧
    ∀ before, before <+: reads → ∃ (calls : List Call) (buf : DynamicBuffer),
      calls.map Call.bytes = within (delivered before).length messages ∧
      onReads handle disconnect s before =
        handleCalls handle s calls >>= fun s => .ok (buf, s) := by
  have hframed := fun m hm => framed_of_sent (hsent m hm)
  have hbefore : ∀ before, before <+: reads → ∃ (calls : List Call) (buf : DynamicBuffer),
      calls.map Call.bytes = within (delivered before).length messages ∧
      onReads handle disconnect s before =
        handleCalls handle s calls >>= fun s => .ok (buf, s) := by
    rintro before ⟨after, rfl⟩
    have hpart : delivered before <+: messages.flatten := by
      rw [← hstream, delivered, delivered, List.map_append, List.flatten_append]
      exact List.prefix_append _ _
    obtain ⟨calls, buf, hcalls, hrun, -⟩ :=
      onReads_spec hframed before hpart hclean.of_append hfits.of_append
    exact ⟨calls, buf, hcalls, hrun⟩
  refine ⟨?_, hbefore⟩
  obtain ⟨calls, buf, hcalls, hrun⟩ := hbefore reads (List.prefix_refl reads)
  rw [hstream, within_flatten] at hcalls
  exact ⟨calls, buf, hcalls, hrun⟩

end Runs

section Samples

/-- `network_send` of an empty tuple as a request for peers. -/
def peersRequest : List UInt8 :=
  messageCreate guidNull 3 [40, 41]

theorem sent_peersRequest : Sent peersRequest :=
  .send networkCreate _ 3 [40, 41] 0 (by decide) rfl

/-- A handler that records the messages it gets. -/
def record (seen : List (List UInt8)) (memory : List UInt8) (len : Nat) :
    Outcome (List (List UInt8)) :=
  .ok (seen ++ [memory.take len])

theorem handleCalls_record (seen : List (List UInt8)) (calls : List Call) :
    handleCalls record seen calls = .ok (seen ++ calls.map Call.bytes) := by
  induction calls generalizing seen with
  | nil => rw [List.map_nil, List.append_nil]; rfl
  | cons call calls ih =>
      have h := ih (seen ++ [call.bytes])
      rw [List.append_assoc, List.singleton_append] at h
      exact h

/-- Two messages, cut within the first header. -/
def splitReads : List Read :=
  [⟨peersRequest.take 10, 10, by decide, by decide⟩,
    ⟨peersRequest.drop 10 ++ peersRequest, 46, by decide, by decide⟩]

theorem onReads_handles_each_split :
    ∃ (calls : List Call) (buf : DynamicBuffer),
      calls.map Call.bytes = [peersRequest, peersRequest] ∧
      onReads record id [] splitReads =
        handleCalls record [] calls >>= fun seen => .ok (buf, seen) := by
  have hsent : ∀ m ∈ [peersRequest, peersRequest], Sent m := by
    intro m hm
    simp only [List.mem_cons, List.not_mem_nil, or_false, or_self] at hm
    exact hm ▸ sent_peersRequest
  have hclean : Clean [peersRequest, peersRequest] splitReads := by
    constructor
    · rintro read rest h
      cases h
      decide
    · intro before read after h
      have hmem : read ∈ splitReads := h ▸ List.mem_append_right before List.mem_cons_self
      simp only [splitReads, List.mem_cons, List.not_mem_nil, or_false] at hmem
      rcases hmem with rfl | rfl
      · exact Or.inl (by decide)
      · exact Or.inl (by decide)
  have hfits : Fits record id [] splitReads := by
    intro before read after h buf seen hrun
    rcases before with _ | ⟨first, _ | ⟨second, before⟩⟩
    · cases h
      cases hrun
      decide
    · cases h
      have hrun' : onReads record id [] [splitReads[0]] = .ok (buf, seen) := hrun
      have hmap :
          (onReads record id [] [splitReads[0]]).map (fun st => st.1.length) = .ok 10 := by
        rfl
      rw [hrun'] at hmap
      have hlength : buf.length = 10 := Except.ok.inj hmap
      rw [hlength]
      decide
    · have hlength := congrArg List.length h
      simp [splitReads] at hlength
  exact (onReads_handles_each hsent (by decide) hclean hfits).1

/-- One message whose last byte comes in a second read; the first one leaves a byte
of its buffer unused. -/
def shortReads : List Read :=
  [⟨peersRequest.take 27 ++ [0], 27, by decide, by decide⟩, ⟨[41], 1, by decide, by decide⟩]

theorem short_read_misframed :
    (∀ m ∈ [peersRequest], Sent m) ∧ delivered shortReads = [peersRequest].flatten ∧
      ¬ ∃ (calls : List Call) (buf : DynamicBuffer), calls.map Call.bytes = [peersRequest] ∧
        onReads record id [] shortReads =
          handleCalls record [] calls >>= fun seen => .ok (buf, seen) := by
  refine ⟨fun m hm => ?_, by decide, ?_⟩
  · rw [List.mem_singleton] at hm
    exact hm ▸ sent_peersRequest
  · rintro ⟨calls, buf, hcalls, hrun⟩
    have herror : onReads record id [] shortReads = .error .outOfBounds := by rfl
    rw [herror, handleCalls_record] at hrun
    cases hrun

end Samples

end Whosecoin.Framing

import Whosecoin.Library.Traces
import Whosecoin.Handshakes
import Whosecoin.NetworkCalls

/-!
One connection from its first read to `on_socket_closed`. As long as no message follows a
refused handshake in the buffer, the peer is disconnected once at most.
-/

namespace Whosecoin.PeerLifetimes

open Library.Outcomes
open Library.ByteStrings
open Library.Traces
open Cryptography
open TupleParser
open TupleFormat
open DynamicBuffers
open Messages
open Networks
open Handlers
open NetworkCalls
open ReadLoop
open Handshakes

/-- The read buffer of a peer and its node; `reading` while a call of `on_read` runs. -/
structure Reader where
  buf : DynamicBuffer
  node : State
  reading : Bool

/-- What the event loop does to one connection. -/
inductive Event where
  | connect
  | read (base : List UInt8)
  | error
  | message (memory : List UInt8) (len : Nat)
  | finish
  | other

variable (S : Sodium) (socket : Nat)

/-- `network_disconnect` has been called on the peer. -/
def Reader.Closed (r : Reader) : Prop :=
  socket ∈ r.node.network.closing

/-- The connection has been accepted and nothing has been read. -/
def Start (event : Event) (r : Reader) : Prop :=
  event = .connect ∧ r.buf = peerBuffer ∧ r.reading = false ∧ ¬ r.Closed socket

/-- What happens to a peer until `on_socket_closed` runs. Once `uv_close` has been
called the event loop reads no more, but the call of `on_read` that is running goes on. -/
inductive Step : Reader → Event → Reader → Prop where
  | read {buf next : DynamicBuffer} {node : State} {base : List UInt8}
      (hopen : ¬ Reader.Closed socket ⟨buf, node, false⟩)
      (hwrite : dynamicBufferWrite base buf = .ok next) :
      Step ⟨buf, node, false⟩ (.read base) ⟨next, node, true⟩
  | error {buf : DynamicBuffer} {node : State}
      (hopen : ¬ Reader.Closed socket ⟨buf, node, false⟩) :
      Step ⟨buf, node, false⟩ .error
        ⟨buf, { node with network := networkDisconnect node.network socket }, false⟩
  | message {buf shifted next : DynamicBuffer} {node node' : State} {len : Nat}
      (hmessage : nextMessage buf = .ok (shifted, some len))
      (hhandle : handleMessage (handlers S) socket node shifted.data len = .ok node')
      (hsplice : splice shifted len = .ok next) :
      Step ⟨buf, node, true⟩ (.message shifted.data len) ⟨next, node', true⟩
  | finish {buf shifted : DynamicBuffer} {node : State}
      (hmessage : nextMessage buf = .ok (shifted, none)) :
      Step ⟨buf, node, true⟩ .finish ⟨shifted, node, false⟩
  | other {buf : DynamicBuffer} {node node' : State}
      (hclosing : node'.network.closing.count socket = node.network.closing.count socket) :
      Step ⟨buf, node, false⟩ .other ⟨buf, node', false⟩

section Reading

variable {S socket}

theorem readLoop_steps {fuel : Nat} {buf buf' : DynamicBuffer} {node node' : State}
    (h : readLoop (handleMessage (handlers S) socket) fuel buf node = .ok (buf', node')) :
    Relation.ReflTransGen (fun r r' => ∃ event, Step S socket r event r') ⟨buf, node, true⟩
      ⟨buf', node', false⟩ := by
  induction fuel generalizing buf node with
  | zero => cases h
  | succ fuel ih =>
      rw [readLoop_succ, bind_eq_ok] at h
      obtain ⟨⟨more, next, node₁⟩, hround, h⟩ := h
      simp only [readRound, bind_eq_ok] at hround
      obtain ⟨⟨shifted, message⟩, hmessage, hround⟩ := hround
      cases message with
      | none =>
          cases hround
          cases h
          exact .single ⟨_, .finish hmessage⟩
      | some len =>
          simp only [bind_eq_ok] at hround
          obtain ⟨node₂, hhandle, next', hsplice, hround⟩ := hround
          cases hround
          exact .head ⟨_, .message hmessage hhandle hsplice⟩ (ih h)

theorem onRead_steps {disconnect : State → State} {nread : Int} {base : List UInt8}
    {buf buf' : DynamicBuffer} {node node' : State} (hnread : 0 ≤ nread)
    (hopen : ¬ Reader.Closed socket ⟨buf, node, false⟩)
    (h : onRead (handleMessage (handlers S) socket) disconnect nread base buf node =
      .ok (buf', node')) :
    Relation.ReflTransGen (fun r r' => ∃ event, Step S socket r event r') ⟨buf, node, false⟩
      ⟨buf', node', false⟩ := by
  rw [onRead, if_neg (by omega), bind_eq_ok] at h
  obtain ⟨next, hwrite, h⟩ := h
  exact .head ⟨_, .read hopen hwrite⟩ (readLoop_steps h)

end Reading

/-- The message is handed to a handler. -/
def Dispatched (node : State) (memory : List UInt8) : Prop :=
  ∃ guid type handler, messageGetGuid memory = .ok guid ∧ messageGetType memory = .ok type ∧
    (guid = guidNull ∨ guid ∉ node.network.messageHistory) ∧ type.toNat < eventCount ∧
    handlers S type = some handler

/-- The message is a handshake that makes the node disconnect its peer. -/
def Refuses (node : State) (memory : List UInt8) : Prop :=
  ∃ guid length tuple, messageGetGuid memory = .ok guid ∧ messageGetType memory = .ok 2 ∧
    (guid = guidNull ∨ guid ∉ node.network.messageHistory) ∧
    messageGetLength memory = .ok length ∧
    tupleParse ⟨length.toNat, memory.drop messageHeaderSize⟩ = .ok (some tuple) ∧
    Refused socket tuple node

/-- No whole message is left behind a refused handshake. -/
def Last (r : Reader) (event : Event) : Prop :=
  ∀ memory len, event = .message memory len → Refuses socket r.node memory →
    ∀ shifted next, nextMessage r.buf = .ok (shifted, some len) →
      splice shifted len = .ok next →
      ∀ again len', nextMessage next ≠ .ok (again, some len')

/-- After the disconnect nothing is dispatched, and nobody disconnects again. -/
structure Finished (trace : List (Event × Reader)) : Prop where
  once : ∀ event r earlier, trace = (event, r) :: earlier →
    r.node.network.closing.count socket ≤ 1
  quiet : ∀ memory len r before r' earlier,
    trace = (.message memory len, r) :: (before, r') :: earlier →
      r'.Closed socket → ¬ Dispatched S r'.node memory

section Handling

variable {S socket} {a b : State}

theorem closing_of_makes {closed : List Nat} (h : Makes a closed b) :
    b.network.closing = a.network.closing ++ closed := by
  obtain ⟨calls, hcalls, rfl⟩ := h
  exact (effects_of_runAll hcalls).closing

theorem dispatch_closing {type : UInt16} {buffer : Buffer}
    (h : dispatch (handlers S) socket type buffer a = .ok b) :
    b.network.closing = a.network.closing ∨ type = 2 ∧ ∃ tuple,
      tupleParse buffer = .ok (some tuple) ∧ Refused socket tuple a ∧
        b.network.closing = a.network.closing ++ [socket] := by
  rw [dispatch] at h
  split at h
  · cases h
    exact Or.inl rfl
  · rename_i handler hhandler
    split_ifs at hhandler with htype
    simp only [bind_eq_ok] at h
    obtain ⟨msg, hparse, c, hc, -, -, h⟩ := h
    cases h
    rcases handlers_makes hhandler hc with hmakes | ⟨htwo, tuple, rfl, hrefused, hmakes⟩
    · exact Or.inl (by rw [closing_of_makes hmakes, List.append_nil])
    · exact Or.inr ⟨htwo, tuple, hparse, hrefused, closing_of_makes hmakes⟩

/-- A message disconnects its own peer at most, once, and only as a refused handshake. -/
theorem handleMessage_closing {memory : List UInt8} {len : Nat}
    (h : handleMessage (handlers S) socket a memory len = .ok b) :
    b.network.closing = a.network.closing ∨
      Refuses socket a memory ∧ b.network.closing = a.network.closing ++ [socket] := by
  simp only [handleMessage, bind_eq_ok] at h
  obtain ⟨guid, hguid, length, hlength, type, htype, h⟩ := h
  have hof : ∀ {c : State}, (guid = guidNull ∨ guid ∉ a.network.messageHistory) →
      dispatch (handlers S) socket type ⟨length.toNat,
        memory.drop messageHeaderSize⟩ a = .ok c →
      c.network.closing = a.network.closing ∨
        Refuses socket a memory ∧ c.network.closing = a.network.closing ++ [socket] := by
    intro c hnew hc
    refine (dispatch_closing hc).imp_right ?_
    rintro ⟨rfl, tuple, hparse, hrefused, hclosing⟩
    exact ⟨⟨guid, length, tuple, hguid, htype, hnew, hlength, hparse, hrefused⟩, hclosing⟩
  split at h
  · rename_i hnull
    exact hof (Or.inl ((guidIsNull_iff guid).mp hnull)) h
  split at h
  · rename_i hunknown
    rw [bind_eq_ok] at h
    obtain ⟨c, hc, h⟩ := h
    rw [bind_eq_ok] at h
    obtain ⟨network, hbroadcast, h⟩ := h
    cases h
    have hclosing : network.closing = c.network.closing := by
      rw [broadcastMessage_sockets hbroadcast]
      rfl
    rw [hclosing]
    refine hof (Or.inr ?_) hc
    rw [← GossipWindow.messageHistoryHas_iff]
    simpa using hunknown
  · cases h
    exact Or.inl rfl

end Handling

/-- In a guarded run the loop finds no message of a peer that it has disconnected. -/
structure Settled (r : Reader) : Prop where
  once : r.node.network.closing.count socket ≤ 1
  empty : r.Closed socket → r.reading = true →
    ∀ shifted len, nextMessage r.buf ≠ .ok (shifted, some len)

variable {S socket}

theorem count_of_not_closed {r : Reader} (h : ¬ r.Closed socket) :
    r.node.network.closing.count socket = 0 :=
  List.count_eq_zero_of_not_mem h

theorem settled_step {r r' : Reader} {event : Event} (h : Settled socket r)
    (hlast : Last socket r event) (hstep : Step S socket r event r') : Settled socket r' := by
  cases hstep with
  | read hopen hwrite =>
      refine ⟨h.once, ?_⟩
      intro hclosed
      exact absurd hclosed hopen
  | @error buf node hopen =>
      constructor
      · have hzero := count_of_not_closed hopen
        simp only [networkDisconnect, List.count_append, List.count_singleton_self]
        simp only at hzero
        omega
      · intro _ hreading
        cases hreading
  | @message buf shifted next node node' len hmessage hhandle hsplice =>
      have hopen : ¬ Reader.Closed socket ⟨buf, node, true⟩ := by
        intro hclosed
        exact h.empty hclosed rfl _ _ hmessage
      have hzero := count_of_not_closed hopen
      rcases handleMessage_closing hhandle with hsame | ⟨hrefuses, hclosing⟩
      · constructor
        · simp only [hsame]
          exact h.once
        · intro hclosed
          rw [Reader.Closed, hsame] at hclosed
          exact absurd hclosed hopen
      · constructor
        · simp only [hclosing, List.count_append, List.count_singleton_self]
          simp only at hzero
          omega
        · intro _ _
          exact hlast _ _ rfl hrefuses shifted next hmessage hsplice
  | finish hmessage =>
      refine ⟨h.once, ?_⟩
      intro _ hreading
      cases hreading
  | other hclosing =>
      refine ⟨?_, ?_⟩
      · rw [hclosing]
        exact h.once
      · intro _ hreading
        cases hreading

/-- In a run in which every refused handshake is the last whole message in its
buffer, a disconnected peer is finished. -/
theorem finished_of_last {trace : List (Event × Reader)}
    (h : Trace (Start socket) (Step S socket) trace) (hlast : Guarded (Last socket) trace) :
    Throughout (Finished S socket) trace := by
  refine @throughout_of_guarded _ _ _ _ _ (Settled socket) _ ?_
    (fun r event r' => settled_step) ?_ trace h hlast
  · rintro event r ⟨rfl, hbuf, hreading, hopen⟩
    have hzero := count_of_not_closed hopen
    refine ⟨⟨hzero.le.trans (Nat.zero_le 1), fun hclosed => absurd hclosed hopen⟩, ?_, ?_⟩
    · rintro event' r' earlier heq
      cases heq
      exact hzero.le.trans (Nat.zero_le 1)
    · intro memory len r before r' earlier heq
      cases heq
  · intro event r earlier event' r' hsettled hguard hstep
    have hsettled' := settled_step hsettled hguard hstep
    constructor
    · intro event'' r'' earlier' heq
      cases heq
      exact hsettled'.once
    · intro memory len r'' before r₀ earlier' heq hclosed
      cases heq
      cases hstep with
      | message hmessage hhandle hsplice => exact absurd hmessage (hsettled.empty hclosed rfl _ _)

/-- A node with one connection, before anything has been read from it. -/
def newReader : Reader where
  buf := peerBuffer
  node :=
    { initialState Chains.minerKey Chains.minerSecret 0 (fun _ => 0) (fun _ => guidNull) with
      network := { networkCreate with peers := [⟨1, [], 0⟩] } }
  reading := false

theorem newReader_start : Start 1 .connect newReader :=
  ⟨rfl, rfl, rfl, List.not_mem_nil⟩

theorem refuses_handshake {node : State} {peer : Peer} {port : Int32} {version after : List UInt8}
    (hpeer : peerOf node socket = .ok peer) (hnul : 0 ∉ version)
    (hlength : (handshake port version).length < 2 ^ 32) (hversion : version ≠ versionString) :
    Refuses socket node (handshakeMessage port version ++ after) := by
  obtain ⟨hguid, hlen, htype⟩ := fields_of_header
    (at_messageCreate guidNull 2 (handshake port version) after)
  obtain ⟨tuple, hparse, hrep⟩ := @tupleParse_of_encode
    ⟨(handshake port version).length, handshake port version ++ after⟩
    (handshakeValues port version hnul) after (by rw [handshake_eq port hnul])
    (by rw [handshake_eq port hnul])
  have hdrop : (handshakeMessage port version ++ after).drop messageHeaderSize =
      handshake port version ++ after := by
    rw [handshakeMessage, messageCreate_eq, List.append_assoc,
      List.drop_left' (header_length _ _ _)]
  have hport : tupleGetI32 tuple 0 = .ok port := by
    rw [tupleGetI32, hrep.tupleGetScalar_eq rfl, Except.map]
    exact congrArg Except.ok (portOf_toBigEndian port)
  refine ⟨guidNull, _, tuple, hguid, htype, .inl rfl, hlen, ?_, peer, port, hpeer, hport,
    .inr ⟨version, hrep.tupleGetString_eq rfl, hversion⟩⟩
  rw [hdrop, UInt32.toNat_ofNat_of_lt' hlength]
  exact hparse

theorem nextMessage_of_length {buf : DynamicBuffer} (h : buf.length = 25) :
    nextMessage buf = .ok (buf, none) := by
  rcases @nextMessage_spec buf (by rw [h]; rfl) with
    ⟨-, hnext⟩ | ⟨padding, -, -, -, hstart, -⟩
  · exact hnext
  · have hheader := hstart.header_le
    rw [messageHeaderSize] at hheader
    omega

/-- A handshake of another version, and all but the last byte of the header of the next
message. -/
def lastHandshake : List UInt8 :=
  handshakeMessage 1 [] ++ (handshakeMessage 1 []).take 25

/-- A peer of another version is finished when its handshake is the last whole message of a
read, although a piece of another one is left behind it. -/
theorem finished_of_last_refused : ∃ memory len r r' before earlier,
    Trace (Start 1) (Step transparent 1)
      ((.finish, r') :: (.message memory len, r) :: (.read lastHandshake, before) :: earlier) ∧
    Refuses 1 before.node memory ∧ before.node.network.closing = [] ∧
    r'.node.network.closing = [1] ∧ r'.buf.live ≠ [] ∧
    Throughout (Finished transparent 1)
      ((.finish, r') :: (.message memory len, r) :: (.read lastHandshake, before) ::
        earlier) := by
  have hlength : (handshake 1 []).length < 2 ^ 32 := by decide
  obtain ⟨buf, hwrite, -, hlive⟩ :=
    @dynamicBufferWrite_of_lt peerBuffer lastHandshake (by decide)
  have hempty : peerBuffer.live = [] := rfl
  rw [hempty, List.nil_append, lastHandshake] at hlive
  obtain ⟨shifted, next, after, hnext, hdata, hsplice, hrest⟩ :=
    nextMessage_of_framed hlive (framed_handshake hlength)
  have hhandle := @handleMessage_handshake transparent newReader.node 1 ⟨1, [], 0⟩ 1 [] rfl
    List.not_mem_nil hlength after
  rw [← hdata] at hhandle
  have hlast : nextMessage next = .ok (next, none) := by
    apply nextMessage_of_length
    rw [← next.live_length, hrest]
    rfl
  have hrefuses : Refuses 1 newReader.node shifted.data := by
    rw [hdata]
    exact refuses_handshake rfl List.not_mem_nil hlength (by decide)
  have hread := @Step.read transparent 1 _ _ _ _ newReader_start.2.2.2 hwrite
  have hmessage := @Step.message transparent 1 _ _ _ _ _ _ hnext hhandle hsplice
  have hfinish := @Step.finish transparent 1 _ _
    { newReader.node with
      network := afterHandshake newReader.node.network ⟨1, [], 0⟩ 1 [] } hlast
  have trace := Trace.cons (.cons (.cons (.single newReader_start) hread) hmessage) hfinish
  refine ⟨_, _, _, _, _, _, trace, hrefuses, rfl, rfl, ?_, finished_of_last trace ?_⟩
  · simp only [hrest]
    decide
  · rw [Guarded, List.isChain_cons_cons, List.isChain_cons_cons, List.isChain_cons_cons]
    refine ⟨?_, ?_, ?_, List.isChain_singleton _⟩
    · intro memory len heq
      cases heq
    · intro memory len heq _ shifted' next' hmessage' hsplice'
      cases heq
      rw [hnext] at hmessage'
      cases hmessage'
      rw [hsplice] at hsplice'
      cases hsplice'
      intro again len' hnext'
      rw [hlast] at hnext'
      cases hnext'
    · intro memory len heq
      cases heq

theorem dispatched_handshake {node : State} {port : Int32} {version : List UInt8}
    (after : List UInt8) :
    Dispatched transparent node (handshakeMessage port version ++ after) := by
  obtain ⟨hguid, -, htype⟩ := fields_of_header
    (at_messageCreate guidNull 2 (handshake port version) after)
  exact ⟨guidNull, 2, onHandshake, hguid, htype, Or.inl rfl, by decide, rfl⟩

/-- A peer of another version sends its handshake twice in one read: the second is
dispatched after the disconnect, and the socket is closed twice. -/
theorem refused_twice : ∃ memory len r event before earlier,
    Trace (Start 1) (Step transparent 1)
      ((.message memory len, r) :: (event, before) :: earlier) ∧
    before.node.network.closing = [1] ∧ Dispatched transparent before.node memory ∧
    r.node.network.closing = [1, 1] ∧
    ¬ Throughout (Finished transparent 1)
      ((.message memory len, r) :: (event, before) :: earlier) := by
  have hlength : (handshake 1 []).length < 2 ^ 32 := by decide
  have hframed := framed_handshake hlength
  obtain ⟨buf, hwrite, -, hlive⟩ := @dynamicBufferWrite_of_lt peerBuffer
    (handshakeMessage 1 [] ++ handshakeMessage 1 []) (by
      rw [List.length_append, handshakeMessage, messageCreate_length]
      decide)
  have hempty : peerBuffer.live = [] := rfl
  rw [hempty, List.nil_append] at hlive
  obtain ⟨shifted₁, next₁, after₁, hnext₁, hdata₁, hsplice₁, hlive₁⟩ :=
    nextMessage_of_framed hlive hframed
  rw [← List.append_nil (handshakeMessage 1 [])] at hlive₁
  obtain ⟨shifted₂, next₂, after₂, hnext₂, hdata₂, hsplice₂, -⟩ :=
    nextMessage_of_framed hlive₁ hframed
  have hhandle₁ := @handleMessage_handshake transparent newReader.node 1 ⟨1, [], 0⟩ 1 [] rfl
    List.not_mem_nil hlength after₁
  have hhandle₂ := @handleMessage_handshake transparent
    { newReader.node with network := afterHandshake newReader.node.network ⟨1, [], 0⟩ 1 [] } 1
    ⟨1, [], 1⟩ 1 [] rfl List.not_mem_nil hlength after₂
  rw [← hdata₁] at hhandle₁
  rw [← hdata₂] at hhandle₂
  have hread := @Step.read transparent 1 _ _ _ _ newReader_start.2.2.2 hwrite
  have hfirst := @Step.message transparent 1 _ _ _ _ _ _ hnext₁ hhandle₁ hsplice₁
  have hsecond := @Step.message transparent 1 _ _ _ _ _ _ hnext₂ hhandle₂ hsplice₂
  have trace := Trace.cons (.cons (.cons (.single newReader_start) hread) hfirst) hsecond
  refine ⟨_, _, _, _, _, _, trace, rfl, ?_, rfl, ?_⟩
  · rw [hdata₂]
    exact dispatched_handshake after₂
  · intro hfinished
    have honce : [1, 1].count 1 ≤ 1 := (hfinished _ _ (List.suffix_refl _)).once _ _ _ rfl
    exact absurd honce (by decide)

end Whosecoin.PeerLifetimes

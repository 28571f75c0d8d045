import Whosecoin.Handshakes
import Whosecoin.Library.Traces
import Whosecoin.NetworkCalls

/-!
Two nodes that dial each other at the same time. The networks of both are followed in a
view that can be evaluated, whatever else the nodes do.
-/

namespace Whosecoin.SimultaneousDialling

open Library.Outcomes
open Library.ByteStrings
open Library.Traces
open Cryptography
open TupleParser
open Messages
open Networks
open Handlers
open Handshakes

/-- The two nodes. -/
inductive Side where
  | left
  | right
deriving DecidableEq

namespace Side

def other : Side → Side
  | left => right
  | right => left

@[simp] theorem other_other (side : Side) : side.other.other = side := by
  cases side <;> rfl

theorem eq_or_eq_other (side dialler : Side) : dialler = side ∨ dialler = side.other := by
  cases side <;> cases dialler <;> simp [other]

end Side

/-- An end of the connection that was dialled by one of the nodes. -/
structure End where
  side : Side
  dialler : Side
deriving DecidableEq

/-- Both nodes name the connections alike. -/
def socketOf : Side → Nat
  | .left => 1
  | .right => 2

theorem socketOf_inj {a b : Side} : socketOf a = socketOf b ↔ a = b := by
  cases a <;> cases b <;> simp [socketOf]

namespace End

def socket (e : End) : Nat :=
  socketOf e.dialler

end End

/-- The two nodes, and the ends that have been made, that have had their handshake
handled, and that are gone. -/
structure Config where
  node : Side → State
  connected : List End
  handled : List End
  removed : List End

/-- What happens to one of the two connections. -/
inductive Event where
  | start
  | connect (e : End)
  | handshake (e : End)
  | eof (e : End)
  | removed (e : End)

variable (S : Sodium) (addr : Side → List UInt8) (port : Side → Int32) (raw : End → Int32)

namespace Config

variable (c : Config)

/-- `network_disconnect` has been called at this end. -/
def Closed (e : End) : Prop :=
  e.socket ∈ (c.node e.side).network.closing

/-- The connection is open at both ends. -/
def Open (dialler : Side) : Prop :=
  ∀ side, ¬ c.Closed ⟨side, dialler⟩

def set (side : Side) (node : State) : Side → State :=
  Function.update c.node side node

/-- Nothing is in flight: no handshake, no end of a stream and no close. -/
structure Quiescent : Prop where
  connected : ∀ e, e ∈ c.connected
  handled : ∀ e, e ∈ c.handled ∨ c.Closed e
  seen : ∀ side dialler, c.Closed ⟨side, dialler⟩ → c.Closed ⟨side.other, dialler⟩
  removed : ∀ e, c.Closed e → e ∈ c.removed

end Config

/-- Each node dials the address at which the other one listens. -/
structure Start (event : Event) (c : Config) : Prop where
  event_eq : event = .start
  network_eq : ∀ side, (c.node side).network =
    networkConnect networkCreate (addr side.other) (port side.other)
  port_eq : ∀ side, (c.node side).application.port = port side
  connected : c.connected = []
  handled : c.handled = []
  removed : c.removed = []

/-- A connection is made at its two ends independently. What an end has written first
is its handshake, and the other end handles it unless it has been closed. An end that
was closed makes the stream end at the other. -/
inductive Step (c : Config) : Event → Config → Prop where
  | connect {e : End} {node : State} (hnew : e ∉ c.connected)
      (hrun : onConnection (handlers S) e.socket (addr e.side.other) (raw e) (c.node e.side) =
        .ok node) :
      Step c (.connect e) { c with node := c.set e.side node, connected := e :: c.connected }
  | handshake {e : End} {node : State} {peer : Peer} {message after : List UInt8}
      (hconnected : e ∈ c.connected) (hnew : e ∉ c.handled) (hopen : ¬ c.Closed e)
      (hpeer : peerOf (c.node e.side) e.socket = .ok peer)
      (hsent : (c.node e.side.other).network.written.find? (fun write => write.1 = e.socket) =
        some (e.socket, message))
      (hrun : handleMessage (handlers S) e.socket (c.node e.side) (message ++ after)
        message.length = .ok node) :
      Step c (.handshake e) { c with node := c.set e.side node, handled := e :: c.handled }
  | eof {e : End} (hconnected : e ∈ c.connected) (hopen : ¬ c.Closed e)
      (hclosed : c.Closed ⟨e.side.other, e.dialler⟩) :
      Step c (.eof e)
        { c with node := c.set e.side { c.node e.side with
            network := networkDisconnect (c.node e.side).network e.socket } }
  | removed {e : End} {node : State} (hnew : e ∉ c.removed) (hclosed : c.Closed e)
      (hrun : onSocketClosed (handlers S) e.socket (c.node e.side) = .ok node) :
      Step c (.removed e) { c with node := c.set e.side node, removed := e :: c.removed }

/-- The node handles a handshake and refuses it. -/
def Refuses (c : Config) (event : Event) (e : End) : Prop :=
  event = .handshake e ∧
    networkHasPeer (c.node e.side).network (addr e.side.other) (port e.side.other) = true

/-- A node refuses a handshake only while the other connection is open. -/
def Beside (c : Config) (event : Event) : Prop :=
  ∀ e, Refuses addr port c event e → c.Open e.dialler.other

section Calls

variable {S} {a b : State} {socket : Nat}

theorem send_ok {event : UInt32} {buf : List UInt8} (h : send a event buf socket = .ok b) :
    b.application = a.application ∧ b.network.peers = a.network.peers ∧
      b.network.closing = a.network.closing ∧
      b.network.written = a.network.written ++ [(socket, messageCreate guidNull event buf)] := by
  rw [send, bind_eq_ok] at h
  obtain ⟨network, hsend, h⟩ := h
  cases h
  rw [sendMessage_ok hsend]
  exact ⟨rfl, rfl, rfl, rfl⟩

theorem onConnection_ok {addr : List UInt8} {port : Int32}
    (h : onConnection (handlers S) socket addr port a = .ok b) :
    b.application = a.application ∧ b.network.peers =
      a.network.peers ++ [⟨socket, addr, port⟩] ∧
      b.network.closing = a.network.closing ∧
      ∃ more, b.network.written = a.network.written ++
        (socket, handshakeMessage a.application.port versionString) :: more ∧
        ∀ write ∈ more, write.1 = socket := by
  have hrun : onConnect socket none
      { a with network := createPeerFromTcpSocket a.network socket addr port } = .ok b := h
  simp only [onConnect, bind_eq_ok] at hrun
  obtain ⟨c, hc, d, hd, hb⟩ := hrun
  obtain ⟨happlication, hpeers, hclosing, hwritten⟩ := send_ok hc
  obtain ⟨happlication', hpeers', hclosing', hwritten'⟩ := send_ok hd
  obtain ⟨happlication'', hpeers'', hclosing'', hwritten''⟩ := send_ok hb
  rw [hwritten', hwritten, List.append_assoc, List.append_assoc] at hwritten''
  refine ⟨?_, ?_, ?_, _, hwritten'', ?_⟩
  · rw [happlication'', happlication', happlication]
  · rw [hpeers'', hpeers', hpeers]
    rfl
  · rw [hclosing'', hclosing', hclosing]
    rfl
  · simp

theorem handshake_short (port : Int32) : (handshake port versionString).length < 2 ^ 32 := by
  simp only [handshake, tupleWriteEnd, tupleWriteString, tupleWriteI32, tupleWriteScalar,
    tupleWriteStart, List.length_append, List.length_cons, List.length_nil, toBigEndian_length]
  decide

theorem handshake_ok {peer : Peer} {port : Int32} {after : List UInt8}
    (hpeer : peerOf a socket = .ok peer)
    (h : handleMessage (handlers S) socket a (handshakeMessage port versionString ++ after)
      (handshakeMessage port versionString).length = .ok b) :
    b.application = a.application ∧ b.network =
      if networkHasPeer a.network peer.addr port then networkDisconnect a.network socket
      else peerSetPort a.network socket port := by
  rw [handleMessage_handshake hpeer (by decide) (handshake_short port) after] at h
  cases h
  refine ⟨rfl, ?_⟩
  rw [afterHandshake, (MalformedMessages.peerOf_mem hpeer).2, if_neg (not_not.mpr rfl)]

theorem onSocketClosed_ok (h : onSocketClosed (handlers S) socket a = .ok b) :
    b.application = a.application ∧
      b.network.peers = a.network.peers.eraseP (fun peer => peer.socket = socket) ∧
      b.network.closing = a.network.closing ∧ b.network.written = a.network.written := by
  have hhandler : handlers S 1 = some onDisconnect := rfl
  simp only [onSocketClosed, hhandler, onDisconnect, bind_eq_ok] at h
  obtain ⟨c, ⟨peer, -, hc⟩, h⟩ := h
  cases hc
  cases h
  exact ⟨rfl, rfl, rfl, rfl⟩

end Calls

/-- What holds at one of the nodes. A peer with the other node's listening port is
one whose handshake has been accepted, so that only one of them stays open. -/
structure Holds (side : Side) (handled : List End) (node : State) : Prop where
  port_eq : node.application.port = port side
  addr_eq : ∀ peer ∈ node.network.peers, peer.addr = addr side.other
  sent : ∀ socket message,
    node.network.written.find? (fun write => write.1 = socket) = some (socket, message) →
      message = handshakeMessage (port side) versionString
  known : ∀ dialler, ⟨side, dialler⟩ ∈ handled →
    socketOf dialler ∉ node.network.closing →
    ⟨socketOf dialler, addr side.other, port side.other⟩ ∈ node.network.peers
  single : ∀ dialler, ⟨side, dialler⟩ ∈ handled →
    ⟨side, dialler.other⟩ ∈ handled →
    socketOf dialler ∈ node.network.closing ∨ socketOf dialler.other ∈ node.network.closing

/-- The invariant holds of both nodes. -/
def Inv (c : Config) : Prop :=
  ∀ side, Holds addr port side c.handled (c.node side)

section Invariant

variable {S addr port raw}

theorem Holds.mono {side : Side} {handled handled' : List End} {node : State}
    (h : Holds addr port side handled node)
    (hhandled : ∀ dialler, ⟨side, dialler⟩ ∈ handled' → ⟨side, dialler⟩ ∈ handled) :
    Holds addr port side handled' node where
  port_eq := h.port_eq
  addr_eq := h.addr_eq
  sent := h.sent
  known := fun dialler hmem => h.known dialler (hhandled dialler hmem)
  single := fun dialler hmem hother =>
    h.single dialler (hhandled dialler hmem) (hhandled dialler.other hother)

theorem networkHasPeer_of_mem {self : Network} {peer : Peer} (h : peer ∈ self.peers) :
    networkHasPeer self peer.addr peer.port = true := by
  rw [networkHasPeer, List.any_eq_true]
  exact ⟨peer, h, by rw [decide_eq_true_eq]; exact ⟨rfl, rfl⟩⟩

theorem inv_set {c : Config} (h : Inv addr port c) {side : Side} {node : State}
    {handled : List End} (hhandled : ∀ e ∈ handled, e.side ≠ side → e ∈ c.handled)
    (hnode : Holds addr port side handled node) (other : Side) :
    Holds addr port other handled (c.set side node other) := by
  rcases eq_or_ne other side with rfl | hne
  · rwa [Config.set, Function.update_self]
  · rw [Config.set, Function.update_of_ne hne]
    exact (h other).mono fun dialler hmem => hhandled _ hmem hne

theorem holds_connect {side : Side} {handled : List End} {a b : State} {socket : Nat}
    {rawPort : Int32} (h : Holds addr port side handled a)
    (hrun : onConnection (handlers S) socket (addr side.other) rawPort a = .ok b) :
    Holds addr port side handled b := by
  obtain ⟨happlication, hpeers, hclosing, more, hwritten, hmore⟩ := onConnection_ok hrun
  constructor
  · rw [happlication]
    exact h.port_eq
  · intro peer hpeer
    rw [hpeers, List.mem_append, List.mem_singleton] at hpeer
    rcases hpeer with hpeer | rfl
    · exact h.addr_eq peer hpeer
    · rfl
  · intro socket' message hfound
    rw [hwritten, List.find?_append, Option.or_eq_some_iff] at hfound
    rcases hfound with hfound | ⟨-, hfound⟩
    · exact h.sent socket' message hfound
    · have hsocket : socket = socket' := by
        have hmem := List.mem_of_find?_eq_some hfound
        rcases List.mem_cons.mp hmem with heq | hmem
        · exact (congrArg Prod.fst heq).symm
        · exact (hmore _ hmem).symm
      rw [List.find?_cons_of_pos (by simp [hsocket])] at hfound
      cases hfound
      rw [h.port_eq]
  · intro dialler hmem hopen
    rw [hclosing] at hopen
    rw [hpeers]
    exact List.mem_append_left _ (h.known dialler hmem hopen)
  · intro dialler hmem hother
    rw [hclosing]
    exact h.single dialler hmem hother

theorem holds_closing {side : Side} {handled : List End} {a b : State} {socket : Nat}
    (h : Holds addr port side handled a) (hb : b.application = a.application)
    (hnetwork : b.network = networkDisconnect a.network socket) :
    Holds addr port side handled b := by
  constructor
  · rw [hb]
    exact h.port_eq
  · rw [hnetwork]
    exact h.addr_eq
  · rw [hnetwork]
    exact h.sent
  · intro dialler hmem hopen
    rw [hnetwork, networkDisconnect, List.mem_append, not_or] at hopen
    rw [hnetwork]
    exact h.known dialler hmem hopen.1
  · intro dialler hmem hother
    rw [hnetwork, networkDisconnect, List.mem_append, List.mem_append]
    exact (h.single dialler hmem hother).imp Or.inl Or.inl

theorem holds_removed {side : Side} {handled : List End} {a b : State} {dialler : Side}
    (h : Holds addr port side handled a) (hclosed : socketOf dialler ∈ a.network.closing)
    (hrun : onSocketClosed (handlers S) (socketOf dialler) a = .ok b) :
    Holds addr port side handled b := by
  obtain ⟨happlication, hpeers, hclosing, hwritten⟩ := onSocketClosed_ok hrun
  constructor
  · rw [happlication]
    exact h.port_eq
  · intro peer hpeer
    rw [hpeers] at hpeer
    exact h.addr_eq peer (List.mem_of_mem_eraseP hpeer)
  · rw [hwritten]
    exact h.sent
  · intro dialler' hmem hopen
    rw [hclosing] at hopen
    have hne : socketOf dialler' ≠ socketOf dialler := by
      intro heq
      exact hopen (heq ▸ hclosed)
    rw [hpeers, List.mem_eraseP_of_neg (by simpa using hne)]
    exact h.known dialler' hmem hopen
  · intro dialler' hmem hother
    rw [hclosing]
    exact h.single dialler' hmem hother

theorem mem_peerSetPort {self : Network} {socket : Nat} {port : Int32} {peer : Peer}
    (h : peer ∈ self.peers) :
    (if peer.socket = socket then { peer with port := port } else peer) ∈
      (peerSetPort self socket port).peers :=
  List.mem_map_of_mem h

/-- Once one handshake of the other node has been accepted the other is refused, as
long as the connection of the first is open. -/
theorem holds_handshake {side dialler : Side} {handled : List End} {a b : State} {peer : Peer}
    (h : Holds addr port side handled a) (hpeer : peerOf a (socketOf dialler) = .ok peer)
    (happlication : b.application = a.application)
    (hnetwork : b.network =
      if networkHasPeer a.network peer.addr (port side.other) then
        networkDisconnect a.network (socketOf dialler)
      else peerSetPort a.network (socketOf dialler) (port side.other)) :
    Holds addr port side (⟨side, dialler⟩ :: handled) b := by
  obtain ⟨hmem, hsocket⟩ := MalformedMessages.peerOf_mem hpeer
  have hnew :
      ∀ dialler', (⟨side, dialler'⟩ : End) ∈ (⟨side, dialler⟩ : End) :: handled →
      dialler' = dialler ∨ ⟨side, dialler'⟩ ∈ handled := by
    intro dialler' hmem'
    rw [List.mem_cons, End.mk.injEq] at hmem'
    exact hmem'.imp_left And.right
  by_cases hknown : networkHasPeer a.network peer.addr (port side.other) = true
  · rw [if_pos hknown] at hnetwork
    have hb := holds_closing h happlication hnetwork
    have hclosed : socketOf dialler ∈ b.network.closing := by
      rw [hnetwork]
      exact List.mem_append_right _ (List.mem_singleton_self _)
    refine ⟨hb.port_eq, hb.addr_eq, hb.sent, ?_, ?_⟩
    · intro dialler' hmem' hopen
      rcases hnew dialler' hmem' with rfl | hmem'
      · exact absurd hclosed hopen
      · exact hb.known dialler' hmem' hopen
    · intro dialler' hmem' hother
      rcases hnew dialler' hmem' with rfl | hmem'
      · exact Or.inl hclosed
      rcases hnew dialler'.other hother with heq | hother
      · exact Or.inr (heq ▸ hclosed)
      · exact hb.single dialler' hmem' hother
  · rw [if_neg hknown] at hnetwork
    have hfirst : ∀ dialler', ⟨side, dialler'⟩ ∈ handled →
        socketOf dialler' ∈ a.network.closing := by
      intro dialler' hmem'
      by_contra hopen
      apply hknown
      rw [h.addr_eq peer hmem]
      exact networkHasPeer_of_mem (h.known dialler' hmem' hopen)
    refine ⟨?_, ?_, ?_, ?_, ?_⟩
    · rw [happlication]
      exact h.port_eq
    · intro peer' hpeer'
      rw [hnetwork, peerSetPort, List.mem_map] at hpeer'
      obtain ⟨peer'', hmem'', rfl⟩ := hpeer'
      split_ifs
      · exact h.addr_eq peer'' hmem''
      · exact h.addr_eq peer'' hmem''
    · rw [hnetwork]
      exact h.sent
    · intro dialler' hmem' hopen
      rcases hnew dialler' hmem' with rfl | hmem'
      · have hset := @mem_peerSetPort a.network (socketOf dialler') (port side.other) peer hmem
        rw [if_pos hsocket, ← hnetwork, hsocket, h.addr_eq peer hmem] at hset
        exact hset
      · rw [hnetwork] at hopen
        exact absurd (hfirst dialler' hmem') hopen
    · intro dialler' hmem' hother
      rw [hnetwork]
      rcases hnew dialler' hmem' with rfl | hmem'
      · rcases hnew dialler'.other hother with heq | hother
        · cases dialler' <;> cases heq
        · exact Or.inr (hfirst dialler'.other hother)
      · exact Or.inl (hfirst dialler' hmem')

theorem handshake_network {c : Config} (h : Inv addr port c) {e : End} {node : State}
    {peer : Peer} {message after : List UInt8}
    (hpeer : peerOf (c.node e.side) e.socket = .ok peer)
    (hsent : (c.node e.side.other).network.written.find? (fun write => write.1 = e.socket) =
      some (e.socket, message))
    (hrun : handleMessage (handlers S) e.socket (c.node e.side) (message ++ after)
      message.length = .ok node) :
    peer.addr = addr e.side.other ∧ node.application = (c.node e.side).application ∧
      node.network =
        if networkHasPeer (c.node e.side).network peer.addr (port e.side.other) then
          networkDisconnect (c.node e.side).network e.socket
        else peerSetPort (c.node e.side).network e.socket (port e.side.other) := by
  obtain rfl := (h e.side.other).sent _ _ hsent
  exact ⟨(h e.side).addr_eq peer (MalformedMessages.peerOf_mem hpeer).1,
    handshake_ok hpeer hrun⟩

theorem inv_step {c c' : Config} {event : Event} (h : Inv addr port c)
    (hstep : Step S addr raw c event c') : Inv addr port c' := by
  cases hstep with
  | connect hnew hrun => exact inv_set h (fun e he _ => he) (holds_connect (h _) hrun)
  | @handshake e node peer message after hconnected hnew hopen hpeer hsent hrun =>
      obtain ⟨-, happlication, hnetwork⟩ := handshake_network h hpeer hsent hrun
      refine inv_set h ?_ (holds_handshake (h _) hpeer happlication hnetwork)
      intro e' he' hne
      rcases List.mem_cons.mp he' with rfl | he'
      · exact absurd rfl hne
      · exact he'
  | eof hconnected hopen hclosed =>
      exact inv_set h (fun e he _ => he) (holds_closing (h _) rfl rfl)
  | removed hnew hclosed hrun =>
      exact inv_set h (fun e he _ => he) (holds_removed (h _) hclosed hrun)

theorem inv_start {event : Event} {c : Config} (h : Start addr port event c) :
    Inv addr port c := by
  intro side
  refine ⟨h.port_eq side, ?_, ?_, ?_, ?_⟩
  · intro peer hpeer
    rw [h.network_eq side] at hpeer
    cases hpeer
  · intro socket message hfound
    rw [h.network_eq side] at hfound
    cases hfound
  · intro dialler hmem
    rw [h.handled] at hmem
    cases hmem
  · intro dialler hmem
    rw [h.handled] at hmem
    cases hmem

theorem closed_set {c c' : Config} {side : Side} {node : State} {e : End}
    (hc' : c'.node = c.set side node) (hclosing : node.network.closing =
      (c.node side).network.closing) : c'.Closed e ↔ c.Closed e := by
  rw [Config.Closed, Config.Closed, hc', Config.set]
  rcases eq_or_ne e.side side with rfl | hne
  · rw [Function.update_self, hclosing]
  · rw [Function.update_of_ne hne]

theorem closed_disconnect {c c' : Config} {e e' : End} {node : State}
    (hc' : c'.node = c.set e.side node)
    (hnetwork : node.network = networkDisconnect (c.node e.side).network e.socket) :
    c'.Closed e' ↔ c.Closed e' ∨ e' = e := by
  obtain ⟨side', dialler'⟩ := e'
  rw [Config.Closed, Config.Closed, hc', Config.set]
  rcases eq_or_ne side' e.side with rfl | hne
  · rw [Function.update_self, hnetwork, networkDisconnect, List.mem_append, List.mem_singleton]
    apply or_congr_right
    rw [End.socket, End.socket, socketOf_inj]
    constructor
    · rintro rfl
      rfl
    · intro heq
      exact congrArg End.dialler heq
  · rw [Function.update_of_ne hne]
    constructor
    · exact Or.inl
    · rintro (hclosed | rfl)
      · exact hclosed
      · exact absurd rfl hne

theorem closed_step {c c' : Config} {event : Event} (h : Inv addr port c)
    (hstep : Step S addr raw c event c') (e : End) :
    c'.Closed e ↔ c.Closed e ∨ Refuses addr port c event e ∨
      event = .eof e ∧ c.Closed ⟨e.side.other, e.dialler⟩ := by
  cases hstep with
  | connect hnew hrun =>
      rw [closed_set rfl (onConnection_ok hrun).2.2.1]
      simp [Refuses]
  | @handshake e' node peer message after hconnected hnew hopen hpeer hsent hrun =>
      obtain ⟨haddr, -, hnetwork⟩ := handshake_network h hpeer hsent hrun
      rw [haddr] at hnetwork
      simp only [Refuses, Event.handshake.injEq, reduceCtorEq, false_and, or_false]
      split_ifs at hnetwork with hknown
      · rw [closed_disconnect rfl hnetwork]
        apply or_congr_right
        constructor
        · rintro rfl
          exact ⟨rfl, hknown⟩
        · rintro ⟨rfl, -⟩
          rfl
      · rw [closed_set rfl (by rw [hnetwork, peerSetPort])]
        constructor
        · exact Or.inl
        · rintro (hclosed | ⟨rfl, hrefused⟩)
          · exact hclosed
          · exact absurd hrefused hknown
  | @eof e' hconnected hopen hclosed =>
      rw [closed_disconnect rfl rfl]
      simp only [Refuses, reduceCtorEq, false_and, false_or, Event.eof.injEq]
      apply or_congr_right
      constructor
      · rintro rfl
        exact ⟨rfl, hclosed⟩
      · rintro ⟨rfl, -⟩
        rfl
  | removed hnew hclosed hrun =>
      rw [closed_set rfl (onSocketClosed_ok hrun).2.2.1]
      simp [Refuses]

theorem not_open_step {c c' : Config} {event : Event} (h : Inv addr port c)
    (hstep : Step S addr raw c event c') {dialler : Side} (hclosed : ¬ c.Open dialler) :
    ¬ c'.Open dialler := by
  intro hopen
  apply hclosed
  intro side hside
  exact hopen side ((closed_step h hstep _).mpr (Or.inl hside))

/-- As long as handshakes are refused only beside an open connection, one is open. -/
theorem exists_open_step {c c' : Config} {event : Event} (h : Inv addr port c)
    (hstep : Step S addr raw c event c') (hbeside : Beside addr port c event)
    (hopen : ∃ dialler, c.Open dialler) : ∃ dialler, c'.Open dialler := by
  by_cases hrefuses : ∃ e, Refuses addr port c event e
  · obtain ⟨e, hevent, hknown⟩ := hrefuses
    refine ⟨e.dialler.other, ?_⟩
    intro side hside
    rcases (closed_step h hstep _).mp hside with hclosed | hrefused | ⟨heof, -⟩
    · exact hbeside e ⟨hevent, hknown⟩ side hclosed
    · have heq := hevent.symm.trans hrefused.1
      cases e with
      | mk side' dialler => cases dialler <;> cases heq
    · rw [hevent] at heof
      cases heof
  · obtain ⟨dialler, hopen⟩ := hopen
    refine ⟨dialler, ?_⟩
    intro side hside
    rcases (closed_step h hstep _).mp hside with hclosed | hrefused | ⟨-, hclosed⟩
    · exact hopen side hclosed
    · exact hrefuses ⟨_, hrefused⟩
    · exact hopen side.other hclosed

theorem none_open_step {c c' : Config} {event : Event} (h : Inv addr port c)
    (hstep : Step S addr raw c event c') (hbeside : ¬ Beside addr port c event) (dialler : Side) :
    ¬ c'.Open dialler := by
  simp only [Beside, not_forall] at hbeside
  obtain ⟨e, hrefused, hclosed⟩ := hbeside
  rcases e.dialler.eq_or_eq_other dialler with rfl | rfl
  · intro hopen
    exact hopen e.side ((closed_step h hstep e).mpr (Or.inr (Or.inl hrefused)))
  · exact not_open_step h hstep hclosed

theorem exists_open_start {event : Event} {c : Config} (h : Start addr port event c) :
    ∃ dialler, c.Open dialler := by
  refine ⟨.left, ?_⟩
  intro side hclosed
  rw [Config.Closed, h.network_eq side] at hclosed
  cases hclosed

theorem inv_of_trace {event : Event} {c : Config} {earlier : List (Event × Config)}
    (h : Trace (Start addr port) (Step S addr raw) ((event, c) :: earlier)) : Inv addr port c :=
  h.invariant (fun _ _ => inv_start) (fun _ _ _ => inv_step)

/-- A connection is open in the last state of a run exactly when the run has been
guarded. -/
theorem exists_open_iff {event : Event} {c : Config} {earlier : List (Event × Config)}
    (h : Trace (Start addr port) (Step S addr raw) ((event, c) :: earlier)) :
    (∃ dialler, c.Open dialler) ↔ Guarded (Beside addr port) ((event, c) :: earlier) := by
  generalize htrace : (event, c) :: earlier = trace at h
  induction h generalizing event c earlier with
  | single hs =>
      cases htrace
      exact iff_of_true (exists_open_start hs) (List.isChain_singleton _)
  | @cons event' next c' c'' earlier' trace hstep ih =>
      cases htrace
      rw [Guarded, List.isChain_cons_cons, ← Guarded, ← ih rfl]
      have hinv := inv_of_trace trace
      constructor
      · rintro ⟨dialler, hopen⟩
        constructor
        · by_contra hbeside
          exact none_open_step hinv hstep hbeside dialler hopen
        · by_contra hnone
          exact not_open_step hinv hstep (fun hopen' => hnone ⟨dialler, hopen'⟩) hopen
      · rintro ⟨hbeside, hopen⟩
        exact exists_open_step hinv hstep hbeside hopen

theorem open_unique {c : Config} (h : Inv addr port c) (hquiescent : c.Quiescent)
    {dialler dialler' : Side} (hopen : c.Open dialler) (hopen' : c.Open dialler') :
    dialler' = dialler := by
  rcases dialler.eq_or_eq_other dialler' with heq | rfl
  · exact heq
  · have hhandled : ∀ d, c.Open d → (⟨.left, d⟩ : End) ∈ c.handled := by
      intro d hd
      exact (hquiescent.handled ⟨.left, d⟩).resolve_right (hd .left)
    rcases (h .left).single dialler (hhandled _ hopen) (hhandled _ hopen') with hclosed | hclosed
    · exact absurd hclosed (hopen .left)
    · exact absurd hclosed (hopen' .left)

/-- Simultaneous dialling leaves one link exactly when no node refuses a handshake
beside a connection that is closed already at one of its ends. -/
theorem one_open_iff {event : Event} {c : Config} {earlier : List (Event × Config)}
    (h : Trace (Start addr port) (Step S addr raw) ((event, c) :: earlier))
    (hquiescent : c.Quiescent) :
    (∃! dialler, c.Open dialler) ↔ Guarded (Beside addr port) ((event, c) :: earlier) := by
  rw [← exists_open_iff h]
  constructor
  · rintro ⟨dialler, hopen, -⟩
    exact ⟨dialler, hopen⟩
  · rintro ⟨dialler, hopen⟩
    refine ⟨dialler, hopen, ?_⟩
    intro dialler' hopen'
    exact open_unique (inv_of_trace h) hquiescent hopen hopen'

end Invariant

/-- As much of a configuration as decides what happens next. -/
structure View where
  network : Side → Network
  connected : List End
  handled : List End
  removed : List End

namespace View

def set (v : View) (side : Side) (network : Network) : Side → Network :=
  Function.update v.network side network

def start : View where
  network := fun _ => networkCreate
  connected := []
  handled := []
  removed := []

/-- The step on the networks alone, or nothing where it is not possible. -/
def step (v : View) : Event → Option View
  | .start => none
  | .connect e =>
      if e ∉ v.connected then
        some { v with
          network := v.set e.side (createPeerFromTcpSocket (v.network e.side) e.socket
            (addr e.side.other) (raw e))
          connected := e :: v.connected }
      else none
  | .handshake e =>
      if e ∈ v.connected ∧ e ∉ v.handled ∧ e.socket ∉ (v.network e.side).closing ∧
          ⟨e.side.other, e.dialler⟩ ∈ v.connected then
        match (v.network e.side).peers.find? fun peer => peer.socket = e.socket with
        | none => none
        | some peer =>
            some { v with
              network := v.set e.side
                (if networkHasPeer (v.network e.side) peer.addr (port e.side.other) then
                  networkDisconnect (v.network e.side) e.socket
                else peerSetPort (v.network e.side) e.socket (port e.side.other))
              handled := e :: v.handled }
      else none
  | .eof e =>
      if e ∈ v.connected ∧ e.socket ∉ (v.network e.side).closing ∧
          e.socket ∈ (v.network e.side.other).closing then
        some { v with network := v.set e.side (networkDisconnect (v.network e.side) e.socket) }
      else none
  | .removed e =>
      if e ∉ v.removed ∧ e.socket ∈ (v.network e.side).closing ∧
          ((v.network e.side).peers.find? fun peer => peer.socket = e.socket).isSome then
        some { v with
          network := v.set e.side { v.network e.side with
            peers := (v.network e.side).peers.eraseP fun peer => peer.socket = e.socket }
          removed := e :: v.removed }
      else none

end View

/-- A view of one node. Every end that has been made has written its handshake. -/
structure Sees (side : Side) (connected : List End) (node : State) (network : Network) :
    Prop where
  peers : node.network.peers = network.peers
  closing : node.network.closing = network.closing
  port_eq : node.application.port = port side
  sent : ∀ dialler, node.network.written.find? (fun write => write.1 = socketOf dialler) =
    if ⟨side, dialler⟩ ∈ connected then
      some (socketOf dialler, handshakeMessage (port side) versionString)
    else none

/-- The view agrees with the configuration. -/
structure Shows (c : Config) (v : View) : Prop where
  sees : ∀ side, Sees port side c.connected (c.node side) (v.network side)
  connected : c.connected = v.connected
  handled : c.handled = v.handled
  removed : c.removed = v.removed

section Views

variable {S addr port raw} {c : Config} {v v' : View}

theorem onConnection_returns (socket : Nat) (addr : List UInt8) (port : Int32) (node : State) :
    Returns (onConnection (handlers S) socket addr port node) := by
  have hbehaves := @MalformedMessages.onConnect_behaves
    { node with network := createPeerFromTcpSocket node.network socket addr port } socket
    ⟨[], 0, 0, []⟩
  exact hbehaves.returns_iff.mpr trivial

theorem sees_set {connected : List End} {side : Side} {node : State} {network : Network}
    (h : ∀ side, Sees port side c.connected (c.node side) (v.network side))
    (hconnected : ∀ e, e.side ≠ side → (e ∈ connected ↔ e ∈ c.connected))
    (hnode : Sees port side connected node network) (other : Side) :
    Sees port other connected (c.set side node other) (v.set side network other) := by
  rcases eq_or_ne other side with rfl | hne
  · rw [Config.set, View.set, Function.update_self, Function.update_self]
    exact hnode
  · rw [Config.set, View.set, Function.update_of_ne hne, Function.update_of_ne hne]
    refine ⟨(h other).peers, (h other).closing, (h other).port_eq, ?_⟩
    intro dialler
    rw [(h other).sent dialler]
    exact if_congr (hconnected ⟨other, dialler⟩ hne).symm rfl rfl

theorem networkHasPeer_congr {a b : Network} (h : a.peers = b.peers) (addr : List UInt8)
    (port : Int32) : networkHasPeer a addr port = networkHasPeer b addr port := by
  rw [networkHasPeer, networkHasPeer, h]

theorem sees_connect {side dialler : Side} {connected : List End} {a b : State}
    {network : Network} {rawPort : Int32} (h : Sees port side connected a network)
    (hnew : ⟨side, dialler⟩ ∉ connected)
    (hrun : onConnection (handlers S) (socketOf dialler) (addr side.other) rawPort a = .ok b) :
    Sees port side (⟨side, dialler⟩ :: connected) b
      (createPeerFromTcpSocket network (socketOf dialler) (addr side.other) rawPort) := by
  obtain ⟨happlication, hpeers, hclosing, more, hwritten, hmore⟩ := onConnection_ok hrun
  refine ⟨?_, hclosing.trans h.closing, ?_, ?_⟩
  · rw [hpeers, h.peers, createPeerFromTcpSocket]
  · rw [happlication]
    exact h.port_eq
  · intro dialler'
    rw [hwritten, List.find?_append, h.sent dialler']
    rcases eq_or_ne dialler' dialler with rfl | hne
    · rw [if_neg hnew, if_pos List.mem_cons_self, Option.none_or,
        List.find?_cons_of_pos (by simp), h.port_eq]
    · have hnone : ((socketOf dialler, handshakeMessage a.application.port versionString) ::
          more).find? (fun write => write.1 = socketOf dialler') = none := by
        rw [List.find?_eq_none]
        intro write hwrite
        have hsocket : write.1 = socketOf dialler := by
          rcases List.mem_cons.mp hwrite with rfl | hwrite
          · rfl
          · exact hmore write hwrite
        rw [hsocket, decide_eq_true_eq, socketOf_inj]
        exact hne.symm
      rw [hnone, Option.or_none]
      exact if_congr (by simp [hne]) rfl rfl

theorem connect_of_view {e : End} (h : Shows port c v)
    (hstep : v.step addr port raw (.connect e) = some v') :
    ∃ c', Step S addr raw c (.connect e) c' ∧ Shows port c' v' := by
    rw [View.step] at hstep
    split_ifs at hstep with hnew
    cases hstep
    rw [← h.connected] at hnew
    obtain ⟨node, hrun⟩ := @onConnection_returns S e.socket (addr e.side.other) (raw e)
      (c.node e.side)
    refine ⟨_, .connect hnew hrun, ?_, ?_, h.handled, h.removed⟩
    · refine sees_set h.sees ?_ (sees_connect (h.sees e.side) hnew hrun)
      intro e' hne
      rw [List.mem_cons, or_iff_right]
      rintro rfl
      exact hne rfl
    · simp only [h.connected]

theorem handshake_of_view {e : End} (h : Shows port c v)
    (hstep : v.step addr port raw (.handshake e) = some v') :
    ∃ c', Step S addr raw c (.handshake e) c' ∧ Shows port c' v' := by
    rw [View.step] at hstep
    split_ifs at hstep with hready
    obtain ⟨hconnected, hnew, hopen, hother⟩ := hready
    have hsees := h.sees e.side
    rw [← h.connected] at hconnected hother
    rw [← h.handled] at hnew
    rw [← hsees.closing] at hopen
    split at hstep
    · cases hstep
    rename_i peer hfind
    cases hstep
    have hpeer : peerOf (c.node e.side) e.socket = .ok peer := by
      rw [peerOf, hsees.peers, hfind]
    have hsent := (h.sees e.side.other).sent e.dialler
    rw [if_pos hother] at hsent
    have hrun := @handleMessage_handshake S _ _ _ (port e.side.other) versionString hpeer
      (by decide) (handshake_short _) []
    refine ⟨_, .handshake hconnected hnew hopen hpeer hsent hrun, ?_, h.connected, ?_,
      h.removed⟩
    · refine sees_set h.sees (fun e _ => Iff.rfl) ?_
      rw [afterHandshake, (MalformedMessages.peerOf_mem hpeer).2, if_neg (not_not.mpr rfl),
        networkHasPeer_congr hsees.peers]
      split_ifs
      · refine ⟨hsees.peers, ?_, hsees.port_eq, hsees.sent⟩
        simp only [networkDisconnect, hsees.closing]
      · refine ⟨?_, hsees.closing, hsees.port_eq, hsees.sent⟩
        simp only [peerSetPort, hsees.peers]
    · simp only [h.handled]

theorem eof_of_view {e : End} (h : Shows port c v)
    (hstep : v.step addr port raw (.eof e) = some v') :
    ∃ c', Step S addr raw c (.eof e) c' ∧ Shows port c' v' := by
    rw [View.step] at hstep
    split_ifs at hstep with hready
    obtain ⟨hconnected, hopen, hclosed⟩ := hready
    cases hstep
    have hsees := h.sees e.side
    rw [← h.connected] at hconnected
    rw [← hsees.closing] at hopen
    rw [← (h.sees e.side.other).closing] at hclosed
    refine ⟨_, .eof hconnected hopen hclosed, ?_, h.connected, h.handled, h.removed⟩
    refine sees_set h.sees (fun e _ => Iff.rfl) ⟨hsees.peers, ?_, hsees.port_eq, hsees.sent⟩
    simp only [networkDisconnect, hsees.closing]

theorem removed_of_view {e : End} (h : Shows port c v)
    (hstep : v.step addr port raw (.removed e) = some v') :
    ∃ c', Step S addr raw c (.removed e) c' ∧ Shows port c' v' := by
    rw [View.step] at hstep
    split_ifs at hstep with hready
    obtain ⟨hnew, hclosed, hfind⟩ := hready
    cases hstep
    have hsees := h.sees e.side
    rw [← h.removed] at hnew
    rw [← hsees.closing] at hclosed
    obtain ⟨peer, hfind⟩ := Option.isSome_iff_exists.mp hfind
    have hpeer : peerOf (c.node e.side) e.socket = .ok peer := by
      rw [peerOf, hsees.peers, hfind]
    have hhandler : handlers S 1 = some onDisconnect := rfl
    have hrun : onSocketClosed (handlers S) e.socket (c.node e.side) = .ok
        { c.node e.side with network := { (c.node e.side).network with
            peers := (c.node e.side).network.peers.eraseP
              fun peer => peer.socket = e.socket } } := by
      simp only [onSocketClosed, hhandler, onDisconnect, hpeer, ok_bind, pure_eq_ok]
    refine ⟨_, .removed hnew hclosed hrun, ?_, h.connected, h.handled, ?_⟩
    · refine sees_set h.sees (fun e _ => Iff.rfl) ⟨?_, hsees.closing,
        hsees.port_eq, hsees.sent⟩
      simp only [hsees.peers]
    · simp only [h.removed]

theorem step_of_view {event : Event} (h : Shows port c v)
    (hstep : v.step addr port raw event = some v') :
    ∃ c', Step S addr raw c event c' ∧ Shows port c' v' := by
  cases event with
  | start => cases hstep
  | connect e => exact connect_of_view h hstep
  | handshake e => exact handshake_of_view h hstep
  | eof e => exact eof_of_view h hstep
  | removed e => exact removed_of_view h hstep

theorem trace_of_view {events : List Event} {event : Event} {earlier : List (Event × Config)}
    (trace : Trace (Start addr port) (Step S addr raw) ((event, c) :: earlier))
    (h : Shows port c v) (hrun : events.foldlM (View.step addr port raw) v = some v') :
    ∃ event' c' earlier', Trace (Start addr port) (Step S addr raw) ((event', c') :: earlier') ∧
      Shows port c' v' := by
  induction events generalizing event c earlier v with
  | nil =>
      cases hrun
      exact ⟨event, c, earlier, trace, h⟩
  | cons next events ih =>
      rw [List.foldlM_cons, Option.bind_eq_bind, Option.bind_eq_some_iff] at hrun
      obtain ⟨v₁, hstep, hrun⟩ := hrun
      obtain ⟨c₁, hc₁, h₁⟩ := step_of_view h hstep
      exact ih (.cons trace hc₁) h₁ hrun

end Views

section Crossing

def host : Side → List UInt8
  | .left => [49]
  | .right => [50]

def listening : Side → Int32
  | .left => 1
  | .right => 2

def ends : List End :=
  [⟨.left, .left⟩, ⟨.right, .left⟩, ⟨.left, .right⟩, ⟨.right, .right⟩]

theorem mem_ends (e : End) : e ∈ ends := by
  obtain ⟨side, dialler⟩ := e
  cases side <;> cases dialler <;> decide

def View.Closed (v : View) (e : End) : Prop :=
  e.socket ∈ (v.network e.side).closing

instance (v : View) (e : End) : Decidable (v.Closed e) :=
  inferInstanceAs (Decidable (e.socket ∈ (v.network e.side).closing))

/-- Nothing is in flight, and these are the connections that are open. -/
def View.Rests (v : View) (links : List Side) : Prop :=
  ∀ e ∈ ends, e ∈ v.connected ∧ (e ∈ v.handled ∨ v.Closed e) ∧
    (v.Closed e ↔ e.dialler ∉ links) ∧
    (v.Closed e → e ∈ v.removed)

instance (v : View) (links : List Side) : Decidable (v.Rests links) :=
  inferInstanceAs (Decidable (∀ e ∈ ends, _))

def listeningNodes : Config where
  node := fun side =>
    { initialState Chains.minerKey Chains.minerSecret (listening side) (fun _ => 0)
        (fun _ => guidNull) with
      network := networkConnect networkCreate (host side.other) (listening side.other) }
  connected := []
  handled := []
  removed := []

theorem exists_resting {events : List Event} {links : List Side}
    (h : ((events.foldlM (View.step host listening fun _ => 0) View.start).any
      fun v => v.Rests links) = true) :
    ∃ event c earlier,
      Trace (Start host listening) (Step transparent host fun _ => 0) ((event, c) :: earlier) ∧
        c.Quiescent ∧ ∀ dialler, c.Open dialler ↔ dialler ∈ links := by
  obtain ⟨v, hrun, hrests⟩ := (Option.any_eq_true _ _).mp h
  have hstart : Start host listening .start listeningNodes :=
    ⟨rfl, fun _ => rfl, fun _ => rfl, rfl, rfl, rfl⟩
  have hshows : Shows listening listeningNodes View.start :=
    ⟨fun _ => ⟨rfl, rfl, rfl, fun _ => rfl⟩, rfl, rfl, rfl⟩
  obtain ⟨event, c, earlier, trace, hc⟩ := trace_of_view (.single hstart) hshows hrun
  have hclosed : ∀ e, c.Closed e ↔ v.Closed e := by
    intro e
    rw [Config.Closed, (hc.sees e.side).closing, View.Closed]
  have hall := fun e => of_decide_eq_true hrests e (mem_ends e)
  refine ⟨event, c, earlier, trace, ⟨?_, ?_, ?_, ?_⟩, ?_⟩
  · intro e
    rw [hc.connected]
    exact (hall e).1
  · intro e
    rw [hc.handled, hclosed]
    exact (hall e).2.1
  · intro side dialler
    rw [hclosed, hclosed, (hall ⟨side, dialler⟩).2.2.1, (hall ⟨side.other, dialler⟩).2.2.1]
    exact id
  · intro e
    rw [hclosed, hc.removed]
    exact (hall e).2.2.2
  · intro dialler
    constructor
    · intro hopen
      by_contra hnot
      exact hopen .left ((hclosed _).mpr ((hall ⟨.left, dialler⟩).2.2.1.mpr hnot))
    · intro hmem side hside
      exact (hall ⟨side, dialler⟩).2.2.1.mp ((hclosed _).mp hside) hmem

/-- Each node accepts the connection that it has dialled, and refuses the other one:
none is left. -/
theorem none_open : (∀ e : End, (0 : Int32) ≠ listening e.side.other) ∧
    ∃ event c earlier,
      Trace (Start host listening) (Step transparent host fun _ => 0) ((event, c) :: earlier) ∧
        c.Quiescent ∧ (∀ dialler, ¬ c.Open dialler) ∧ ¬ ∃! dialler, c.Open dialler := by
  constructor
  · rintro ⟨side, dialler⟩
    cases side <;> cases dialler <;> decide
  · obtain ⟨event, c, earlier, trace, hquiescent, hopen⟩ := @exists_resting
      (ends.map .connect ++ [.handshake ⟨.left, .left⟩, .handshake ⟨.right, .right⟩,
        .handshake ⟨.left, .right⟩, .handshake ⟨.right, .left⟩, .eof ⟨.left, .left⟩,
        .eof ⟨.right, .right⟩] ++ ends.map .removed) [] rfl
    have hnone : ∀ dialler, ¬ c.Open dialler := by
      intro dialler hdialler
      exact absurd ((hopen dialler).mp hdialler) List.not_mem_nil
    refine ⟨event, c, earlier, trace, hquiescent, hnone, ?_⟩
    rintro ⟨dialler, hdialler, -⟩
    exact hnone dialler hdialler

/-- Both nodes accept the connection of the left one: it is left. -/
theorem one_open : ∃ event c earlier,
    Trace (Start host listening) (Step transparent host fun _ => 0) ((event, c) :: earlier) ∧
      c.Quiescent ∧ c.Open .left ∧
      ((∃! dialler, c.Open dialler) ↔
        Guarded (Beside host listening) ((event, c) :: earlier)) := by
  obtain ⟨event, c, earlier, trace, hquiescent, hopen⟩ := @exists_resting
    (ends.map .connect ++ [.handshake ⟨.left, .left⟩, .handshake ⟨.right, .left⟩,
      .handshake ⟨.left, .right⟩, .eof ⟨.right, .right⟩, .removed ⟨.left, .right⟩,
      .removed ⟨.right, .right⟩]) [.left] rfl
  exact ⟨event, c, earlier, trace, hquiescent, (hopen .left).mpr (List.mem_singleton_self _),
    one_open_iff trace hquiescent⟩

end Crossing

end Whosecoin.SimultaneousDialling

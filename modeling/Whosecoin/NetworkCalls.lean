import Whosecoin.GossipWindow
import Whosecoin.NodeRuns

namespace Whosecoin.NetworkCalls

open Library.Outcomes
open Library.ByteStrings
open Cryptography
open TupleParser
open Accounts
open Messages
open Networks
open Handlers
open NodeRuns

/-- A call of one of the operations that `network.h` offers to a handler. -/
inductive Call where
  | broadcast (guid : Guid) (type : UInt32) (buffer : List UInt8)
  | send (event : UInt32) (buffer : List UInt8) (socket : Nat)
  | connect (addr : List UInt8) (port : Int32)
  | disconnect (socket : Nat)
  | setPort (socket : Nat) (port : Int32)

namespace Call

def run (self : Network) : Call → Outcome Network
  | .broadcast guid type buffer => networkBroadcast self guid type buffer
  | .send event buffer socket => networkSend self event buffer socket
  | .connect addr port => .ok (networkConnect self addr port)
  | .disconnect socket => .ok (networkDisconnect self socket)
  | .setPort socket port => .ok (peerSetPort self socket port)

/-- The guid that the call puts into the history. -/
def recorded : Call → Option Guid
  | .broadcast guid _ _ => some guid
  | .send _ _ _ => some guidNull
  | _ => none

/-- What the call writes, and to which sockets. -/
def written (sockets : List Nat) : Call → List (Nat × List UInt8)
  | .broadcast guid type buffer =>
      sockets.map fun socket => (socket, messageCreate guid type buffer)
  | .send event buffer socket => [(socket, messageCreate guidNull event buffer)]
  | _ => []

def closed : Call → Option Nat
  | .disconnect socket => some socket
  | _ => none

end Call

def runAll (self : Network) (calls : List Call) : Outcome Network :=
  calls.foldlM Call.run self

def sockets (self : Network) : List Nat :=
  self.peers.map Peer.socket

/-- What a sequence of calls does to the network. -/
structure Effects (a : Network) (calls : List Call) (b : Network) : Prop where
  sockets : sockets b = sockets a
  history : b.messageHistory = (calls.filterMap Call.recorded).foldl historyAdd a.messageHistory
  written : b.written = a.written ++ calls.flatMap (Call.written (NetworkCalls.sockets a))
  closing : b.closing = a.closing ++ calls.filterMap Call.closed

section Effects

variable {a b : Network}

theorem broadcastMessage_sockets {message : List UInt8} (h : broadcastMessage a message = .ok b) :
    b = { a with written := a.written ++ (sockets a).map fun socket => (socket, message) } := by
  rw [broadcastMessage_ok h, sockets, List.map_map]
  rfl

theorem sockets_peerSetPort (self : Network) (socket : Nat) (port : Int32) :
    sockets (peerSetPort self socket port) = sockets self := by
  rw [sockets, peerSetPort, List.map_map]
  apply List.map_congr_left
  intro peer _
  rw [Function.comp_apply]
  split_ifs <;> rfl

theorem effects_of_run {call : Call} (h : call.run a = .ok b) : Effects a [call] b := by
  cases call with
  | broadcast guid type buffer =>
      have hb := broadcastMessage_sockets h
      subst hb
      exact ⟨rfl, rfl, by rw [List.flatMap_singleton]; rfl, (List.append_nil _).symm⟩
  | send event buffer socket =>
      have hb := sendMessage_ok h
      subst hb
      exact ⟨rfl, rfl, by rw [List.flatMap_singleton]; rfl, (List.append_nil _).symm⟩
  | connect addr port =>
      cases h
      exact ⟨rfl, rfl, (List.append_nil _).symm, (List.append_nil _).symm⟩
  | disconnect socket =>
      cases h
      exact ⟨rfl, rfl, (List.append_nil _).symm, rfl⟩
  | setPort socket port =>
      cases h
      exact ⟨sockets_peerSetPort _ _ _, rfl, (List.append_nil _).symm, (List.append_nil _).symm⟩

theorem Effects.trans {c : Network} {calls more : List Call} (hab : Effects a calls b)
    (hbc : Effects b more c) : Effects a (calls ++ more) c where
  sockets := hbc.sockets.trans hab.sockets
  history := by rw [hbc.history, hab.history, List.filterMap_append, List.foldl_append]
  written := by
    rw [hbc.written, hab.written, hab.sockets, List.flatMap_append, List.append_assoc]
  closing := by rw [hbc.closing, hab.closing, List.filterMap_append, List.append_assoc]

theorem effects_of_runAll {calls : List Call} (h : runAll a calls = .ok b) :
    Effects a calls b := by
  induction calls generalizing a with
  | nil =>
      cases h
      exact ⟨rfl, rfl, (List.append_nil _).symm, (List.append_nil _).symm⟩
  | cons call calls ih =>
      rw [runAll, List.foldlM_cons, bind_eq_ok] at h
      obtain ⟨c, hc, hrest⟩ := h
      exact (effects_of_run hc).trans (ih hrest)

end Effects

/-- The handler goes from one state to the other by calls of the network that
disconnect these sockets. -/
def Makes {α : Type} (a : Node α) (closed : List Nat) (b : Node α) : Prop :=
  ∃ calls, runAll a.network calls = .ok b.network ∧ calls.filterMap Call.closed = closed

namespace Makes

variable {α : Type} {a b c : Node α}

theorem of_eq (h : b.network = a.network) : Makes a [] b :=
  ⟨[], by rw [h]; rfl, rfl⟩

theorem refl (a : Node α) : Makes a [] a :=
  of_eq rfl

theorem of_network {closed : List Nat} (hbc : Makes b closed c) (h : b.network = a.network) :
    Makes a closed c := by
  obtain ⟨calls, hcalls, hclosed⟩ := hbc
  exact ⟨calls, h ▸ hcalls, hclosed⟩

theorem single {call : Call} (h : call.run a.network = .ok b.network)
    (hclosed : call.closed = none) : Makes a [] b := by
  refine ⟨[call], ?_, by rw [List.filterMap_cons_none hclosed, List.filterMap_nil]⟩
  rw [runAll, List.foldlM_cons, h]
  rfl

theorem trans {closed more : List Nat} (hab : Makes a closed b) (hbc : Makes b more c) :
    Makes a (closed ++ more) c := by
  obtain ⟨calls, hcalls, rfl⟩ := hab
  obtain ⟨calls', hcalls', rfl⟩ := hbc
  refine ⟨calls ++ calls', ?_, List.filterMap_append⟩
  rw [runAll] at hcalls hcalls' ⊢
  rw [List.foldlM_append, hcalls, ok_bind, hcalls']

theorem foldlM {ι : Type} {body : Node α → ι → Outcome (Node α)}
    (hbody : ∀ a i b, body a i = .ok b → Makes a [] b) (items : List ι)
    (h : items.foldlM body a = .ok b) : Makes a [] b :=
  foldlM_invariant body (Makes a []) (fun s i s' hs hstep => hs.trans (hbody s i s' hstep))
    items a b (refl a) h

end Makes

section Handlers

variable {S : Sodium} {a b : State} {socket : Nat} {msg : Option Tuple}

theorem send_makes {event : UInt32} {buf : List UInt8} (h : send a event buf socket = .ok b) :
    Makes a [] b := by
  rw [send, bind_eq_ok] at h
  obtain ⟨network, hsend, h⟩ := h
  cases h
  exact @Makes.single _ a _ (.send event buf socket) hsend rfl

theorem broadcastBlock_makes {block : BlockPtr} (h : broadcastBlock a block = .ok b) :
    Makes a [] b := by
  simp only [broadcastBlock, bind_eq_ok] at h
  obtain ⟨-, -, buf, -, network, hbroadcast, h⟩ := h
  cases h
  exact @Makes.single _ a _ (.broadcast (a.application.guids 0) 9 buf) hbroadcast rfl

theorem forkAt_makes {prev : BlockPtr} (h : forkAt S a prev = .ok b) : Makes a [] b := by
  rw [forkAt] at h
  split at h
  · simp only [bind_eq_ok] at h
    obtain ⟨⟨next, c⟩, hcreate, h⟩ := h
    obtain ⟨-, rfl⟩ := createNext_spec hcreate
    simp only at h
    split at h
    · cases h
      exact .of_eq rfl
    · rw [bind_eq_ok] at h
      obtain ⟨⟨added, d⟩, hadd, h⟩ := h
      obtain ⟨bc, pool, -, rfl⟩ := addBlockToState_spec hadd
      simp only at h
      split at h
      · exact (broadcastBlock_makes h).of_network rfl
      · cases h
        exact .of_eq rfl
  · cases h
    exact .refl a

theorem receiveBlock_makes {tuple : Tuple} (h : receiveBlock S a tuple = .ok b) :
    Makes a [] b := by
  rw [receiveBlock, bind_eq_ok] at h
  obtain ⟨block, -, h⟩ := h
  split at h
  · cases h
    exact .refl a
  · rw [bind_eq_ok] at h
    obtain ⟨⟨added, c⟩, hadd, h⟩ := h
    obtain ⟨bc, pool, -, rfl⟩ := addBlockToState_spec hadd
    simp only at h
    split at h
    · exact (forkAt_makes h).of_network rfl
    · cases h
      exact .of_eq rfl

theorem receiveTransaction_makes {tuple : Tuple} (h : receiveTransaction S a tuple = .ok b) :
    Makes a [] b := by
  rw [receiveTransaction, bind_eq_ok] at h
  obtain ⟨result, -, h⟩ := h
  cases result with
  | none =>
      cases h
      exact .refl a
  | some txn =>
      cases h
      exact .of_eq rfl

theorem onConnect_makes (h : onConnect socket msg a = .ok b) : Makes a [] b := by
  simp only [onConnect, bind_eq_ok] at h
  obtain ⟨c, hhandshake, d, hpeers, h⟩ := h
  exact ((send_makes hhandshake).trans (send_makes hpeers)).trans (send_makes h)

theorem onDisconnect_makes (h : onDisconnect socket msg a = .ok b) : Makes a [] b := by
  simp only [onDisconnect, bind_eq_ok] at h
  obtain ⟨peer, -, h⟩ := h
  cases h
  exact .refl a

theorem onPeersRequest_makes (h : onPeersRequest socket msg a = .ok b) : Makes a [] b := by
  simp only [onPeersRequest, bind_eq_ok] at h
  obtain ⟨peer, -, h⟩ := h
  exact send_makes h

theorem onPeersResponse_makes (h : onPeersResponse socket msg a = .ok b) : Makes a [] b := by
  simp only [onPeersResponse, bind_eq_ok] at h
  obtain ⟨tuple, -, h⟩ := h
  refine .foldlM ?_ _ h
  intro s i s' hstep
  simp only [connectPeer, bind_eq_ok] at hstep
  obtain ⟨peerTuple, -, addr, -, port, -, hstep⟩ := hstep
  split at hstep
  · cases hstep
    exact .refl s
  · cases hstep
    exact @Makes.single _ s _ (.connect addr port) rfl rfl

theorem onBlocksRequest_makes (h : onBlocksRequest socket msg a = .ok b) : Makes a [] b := by
  simp only [onBlocksRequest, bind_eq_ok] at h
  obtain ⟨tuple, -, hash, -, hash', -, buf, -, h⟩ := h
  exact send_makes h

theorem onBlocksResponse_makes (h : onBlocksResponse S socket msg a = .ok b) :
    Makes a [] b := by
  simp only [onBlocksResponse, bind_eq_ok] at h
  obtain ⟨tuple, -, h⟩ := h
  refine .foldlM ?_ _ h
  intro s i s' hstep
  rw [bind_eq_ok] at hstep
  obtain ⟨blockTuple, -, hstep⟩ := hstep
  exact receiveBlock_makes hstep

theorem onPoolResponse_makes (h : onPoolResponse S socket msg a = .ok b) : Makes a [] b := by
  simp only [onPoolResponse, bind_eq_ok] at h
  obtain ⟨tuple, -, h⟩ := h
  refine .foldlM ?_ _ h
  intro s i s' hstep
  rw [bind_eq_ok] at hstep
  obtain ⟨txnTuple, -, hstep⟩ := hstep
  exact receiveTransaction_makes hstep

theorem onBlock_makes (h : onBlock S socket msg a = .ok b) : Makes a [] b := by
  simp only [onBlock, bind_eq_ok] at h
  obtain ⟨tuple, -, h⟩ := h
  exact receiveBlock_makes h

theorem onTransaction_makes (h : onTransaction S socket msg a = .ok b) : Makes a [] b := by
  simp only [onTransaction, bind_eq_ok] at h
  obtain ⟨tuple, -, h⟩ := h
  exact receiveTransaction_makes h

/-- The handshake names a peer that the node has already, or another version. -/
def Refused (socket : Nat) (tuple : Tuple) (node : State) : Prop :=
  ∃ peer port, peerOf node socket = .ok peer ∧ tupleGetI32 tuple 0 = .ok port ∧
    (networkHasPeer node.network peer.addr port = true ∨
      ∃ version, tupleGetString tuple 1 = .ok version ∧ version ≠ versionString)

theorem onHandshake_makes (h : onHandshake socket msg a = .ok b) :
    Makes a [] b ∨ ∃ tuple, msg = some tuple ∧ Refused socket tuple a ∧
      Makes a [socket] b := by
  simp only [onHandshake, bind_eq_ok] at h
  obtain ⟨peer, hpeer, tuple, hmsg, port, hport, h⟩ := h
  have hmsg : msg = some tuple := by
    cases msg with
    | none => cases hmsg
    | some tuple' =>
        cases hmsg
        rfl
  split at h
  · rename_i hknown
    cases h
    exact Or.inr ⟨tuple, hmsg, ⟨peer, port, hpeer, hport, Or.inl hknown⟩,
      [.disconnect socket], rfl, rfl⟩
  · rw [bind_eq_ok] at h
    obtain ⟨version, hversion, h⟩ := h
    cases h
    split_ifs with hsame
    · exact Or.inr ⟨tuple, hmsg,
        ⟨peer, port, hpeer, hport, Or.inr ⟨version, hversion, hsame⟩⟩,
        [.disconnect socket, .setPort socket port], rfl, rfl⟩
    · exact Or.inl ⟨[.setPort socket port], rfl, rfl⟩

theorem handlers_makes {type : UInt16} {handler : Handler Globals}
    (hhandler : handlers S type = some handler) (h : handler socket msg a = .ok b) :
    Makes a [] b ∨
      type = 2 ∧ ∃ tuple, msg = some tuple ∧ Refused socket tuple a ∧
        Makes a [socket] b := by
  rw [handlers] at hhandler
  split at hhandler <;> cases hhandler
  · exact Or.inl (onConnect_makes h)
  · exact Or.inl (onDisconnect_makes h)
  · rename_i htype
    exact (onHandshake_makes h).imp_right fun hrefused => ⟨UInt16.toNat_inj.mp htype, hrefused⟩
  · exact Or.inl (onPeersRequest_makes h)
  · exact Or.inl (onPeersResponse_makes h)
  · exact Or.inl (onBlocksRequest_makes h)
  · exact Or.inl (onBlocksResponse_makes h)
  · exact Or.inl (send_makes h)
  · exact Or.inl (onPoolResponse_makes h)
  · exact Or.inl (onBlock_makes h)
  · exact Or.inl (onTransaction_makes h)

end Handlers

end Whosecoin.NetworkCalls

import Whosecoin.MalformedMessages
import Whosecoin.ReadLoop

namespace Whosecoin.Handshakes

open Library.Outcomes
open Library.ByteStrings
open Cryptography
open TupleParser
open TupleFormat
open DynamicBuffers
open Messages
open Networks
open Handlers
open ReadLoop

variable {S : Sodium} {node : State} {socket : Nat} {peer : Peer} {port : Int32}
  {version : List UInt8}

/-- The buffer of a handshake, as `on_connect` writes it. -/
def handshake (port : Int32) (version : List UInt8) : List UInt8 :=
  tupleWriteEnd (tupleWriteString (tupleWriteI32 (tupleWriteStart []) port) version)

def handshakeMessage (port : Int32) (version : List UInt8) : List UInt8 :=
  messageCreate guidNull 2 (handshake port version)

def handshakeValues (port : Int32) (version : List UInt8) (hnul : 0 ∉ version) : List Value :=
  [.scalar .i32 ⟨toBigEndian 4 port.toUInt32.toNat, length_i32 port⟩, .string version hnul]

theorem handshake_eq (port : Int32) (hnul : 0 ∉ version) :
    handshake port version = (Value.tuple (handshakeValues port version hnul)).encode := by
  simp only [handshake, tupleWriteEnd, tupleWriteString, tupleWriteI32, tupleWriteScalar,
    tupleWriteStart, handshakeValues, Value.encode, encodeAll, List.nil_append, List.cons_append,
    List.append_assoc, List.append_nil]

theorem portOf_toBigEndian (port : Int32) :
    MalformedMessages.portOf ⟨toBigEndian 4 port.toUInt32.toNat, length_i32 port⟩ = port := by
  have hword := bigEndian_toBigEndian 4 port.toUInt32.toNat port.toUInt32.toNat_lt
  rw [MalformedMessages.portOf, hword, UInt32.ofNat_toNat]
  exact Int32.toInt32_toUInt32 port

/-- The outcome of `on_handshake` on the node's network. -/
def afterHandshake (self : Network) (peer : Peer) (port : Int32) (version : List UInt8) :
    Network :=
  if networkHasPeer self peer.addr port then networkDisconnect self peer.socket
  else
    peerSetPort
      (if version ≠ versionString then networkDisconnect self peer.socket else self)
      peer.socket port

theorem onHandshake_eq {tuple : Tuple} {hnul : 0 ∉ version}
    (hpeer : peerOf node socket = .ok peer)
    (h : Represents tuple (handshakeValues port version hnul)) :
    onHandshake socket (some tuple) node =
      .ok { node with network := afterHandshake node.network peer port version } := by
  have hport : tupleGetI32 tuple 0 = .ok port := by
    rw [tupleGetI32, h.tupleGetScalar_eq rfl, Except.map]
    exact congrArg Except.ok (portOf_toBigEndian port)
  have hversion : tupleGetString tuple 1 = .ok version := h.tupleGetString_eq rfl
  have hsocket := (MalformedMessages.peerOf_mem hpeer).2
  rw [onHandshake, hpeer, ok_bind, deref, ok_bind, hport, ok_bind, afterHandshake, hsocket]
  by_cases hknown : networkHasPeer node.network peer.addr port = true
  · rw [if_pos hknown, if_pos hknown]
    rfl
  · rw [if_neg hknown, if_neg hknown, hversion, ok_bind]
    rfl

theorem handleMessage_handshake (hpeer : peerOf node socket = .ok peer) (hnul : 0 ∉ version)
    (hlength : (handshake port version).length < 2 ^ 32) (after : List UInt8) :
    handleMessage (handlers S) socket node (handshakeMessage port version ++ after)
        (handshakeMessage port version).length =
      .ok { node with network := afterHandshake node.network peer port version } := by
  obtain ⟨tuple, hparse, hrep⟩ := @tupleParse_of_encode
    ⟨(handshake port version).length, handshake port version ++ after⟩
    (handshakeValues port version hnul) after (by rw [handshake_eq port hnul])
    (by rw [handshake_eq port hnul])
  rw [handshakeMessage, messageCreate_length,
    MalformedMessages.handleMessage_messageCreate guidNull 2 _ after hlength, if_pos (by decide),
    MalformedMessages.dispatch_eq hparse hrep (by decide) rfl]
  exact onHandshake_eq hpeer hrep

theorem nextMessage_of_framed {buf : DynamicBuffer} {message rest : List UInt8}
    (hlive : buf.live = message ++ rest) (hframed : Framing.Framed message) :
    ∃ shifted next after, nextMessage buf = .ok (shifted, some message.length) ∧
      shifted.data = message ++ after ∧ splice shifted message.length = .ok next ∧
      next.live = rest := by
  have hzeros : buf.live = List.replicate 0 0 ++ (message ++ rest) := hlive
  obtain ⟨shifted, next, hextracted⟩ := Framing.exists_extracted hzeros hframed
  obtain ⟨guid, hguid⟩ := hextracted.guid
  obtain ⟨type, htype⟩ := hextracted.type
  obtain ⟨length, hget, hsum⟩ := hextracted.length
  have hle := hextracted.length_le
  refine ⟨shifted, next, _, ?_, hextracted.data_eq, hextracted.take, hextracted.next_live⟩
  rw [nextMessage, hextracted.found, ok_bind]
  simp only [hextracted.shift, hguid, hget, htype, ok_bind]
  rw [if_neg (by omega), hsum]
  rfl

theorem framed_handshake (hlength : (handshake port version).length < 2 ^ 32) :
    Framing.Framed (handshakeMessage port version) :=
  Framing.framed_messageCreate guidNull 2 hlength

end Whosecoin.Handshakes

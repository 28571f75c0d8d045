import Whosecoin.DynamicBuffers
import Whosecoin.Messages

/-!
The state machine of `network.c`. What it asks of the event loop is recorded in the
state, and the callbacks of the event loop are functions.
-/

namespace Whosecoin.Networks

open Library.Outcomes
open Library.ByteStrings
open TupleParser
open DynamicBuffers
open Messages

/-- A `peer_t`, named by its socket. Its read buffer is an argument of `onRead`. -/
structure Peer where
  socket : Nat
  addr : List UInt8
  port : Int32
deriving DecidableEq

/-- A `network_t`, with what it has asked of the event loop: the buffers to be
written to each socket, the sockets to be closed and the addresses to connect to. -/
structure Network where
  peers : List Peer
  messageHistory : List Guid
  written : List (Nat × List UInt8)
  closing : List Nat
  connecting : List (List UInt8 × Int32)

def networkCreate : Network where
  peers := []
  messageHistory := []
  written := []
  closing := []
  connecting := []

/-- How many guids a node remembers. -/
def messageHistorySize : Nat :=
  1024

/-- The number of message types. -/
def eventCount : Nat :=
  11

section History

variable (self : Network)

/-- What `message_history_add` does to the list. -/
def historyAdd (history : List Guid) (guid : Guid) : List Guid :=
  (if messageHistorySize ≤ history.length then history.drop 1 else history) ++ [guid]

def messageHistoryAdd (guid : Guid) : Network :=
  { self with messageHistory := historyAdd self.messageHistory guid }

def messageHistoryHas (guid : Guid) : Bool :=
  self.messageHistory.findIdx (fun other => guidCompare other guid = 0) ≠
    self.messageHistory.length

end History

section Sending

variable (self : Network)

/-- The length is an `int`: one of 2^31 or more becomes negative, `malloc` gets
an enormous size and the copy goes to `NULL`. -/
def sharedBufferCreate (data : List UInt8) : Outcome (List UInt8) :=
  if data.length < 2 ^ 31 then .ok data else .error .nullPointer

def broadcastMessage (message : List UInt8) : Outcome Network := do
  let buf ← sharedBufferCreate message
  return { self with written := self.written ++ self.peers.map fun peer => (peer.socket, buf) }

def sendMessage (message : List UInt8) (socket : Nat) : Outcome Network := do
  let buf ← sharedBufferCreate message
  return { self with written := self.written ++ [(socket, buf)] }

/-- `network_broadcast`, where `guid` is the result of `guid_new`. -/
def networkBroadcast (guid : Guid) (type : UInt32) (buffer : List UInt8) : Outcome Network :=
  broadcastMessage (messageHistoryAdd self guid) (messageCreate guid type buffer)

/-- A message to one peer has the null guid. -/
def networkSend (event : UInt32) (buffer : List UInt8) (socket : Nat) : Outcome Network :=
  sendMessage (messageHistoryAdd self guidNull) (messageCreate guidNull event buffer) socket

end Sending

theorem broadcastMessage_ok {a b : Network} {message : List UInt8}
    (h : broadcastMessage a message = .ok b) :
    b = { a with written := a.written ++ a.peers.map fun peer => (peer.socket, message) } := by
  rw [broadcastMessage, sharedBufferCreate] at h
  split_ifs at h
  · cases h
    rfl
  · cases h

theorem sendMessage_ok {a b : Network} {message : List UInt8} {socket : Nat}
    (h : sendMessage a message socket = .ok b) :
    b = { a with written := a.written ++ [(socket, message)] } := by
  rw [sendMessage, sharedBufferCreate] at h
  split_ifs at h
  · cases h
    rfl
  · cases h

section Peers

variable (self : Network)

/-- Whether a peer has this address and listening port. -/
def networkHasPeer (addr : List UInt8) (port : Int32) : Bool :=
  self.peers.any fun peer => addr = peer.addr ∧ port = peer.port

/-- Ask the event loop to connect to the address. -/
def networkConnect (addr : List UInt8) (port : Int32) : Network :=
  { self with connecting := self.connecting ++ [(addr, port)] }

def networkDisconnect (socket : Nat) : Network :=
  { self with closing := self.closing ++ [socket] }

def peerSetPort (socket : Nat) (port : Int32) : Network :=
  { self with peers := self.peers.map fun peer =>
      if peer.socket = socket then { peer with port := port } else peer }

end Peers

/-- A node: its network and whatever the handlers work on. -/
structure Node (α : Type) where
  network : Network
  application : α

/-- An `event_handler_t`, called with the socket of the peer. -/
abbrev Handler (α : Type) :=
  Nat → Option Tuple → Node α → Outcome (Node α)

section Dispatch

variable {α : Type} (handlers : UInt16 → Option (Handler α))

/-- The block of `handle_message` that both of its branches contain. -/
def dispatch (socket : Nat) (type : UInt16) (buffer : Buffer) (node : Node α) :
    Outcome (Node α) :=
  match if type.toNat < eventCount then handlers type else none with
  | none => .ok node
  | some handler => do
      let tuple ← tupleParse buffer
      let node ← handler socket tuple node
      tupleDestroy tuple
      return node

/-- `message` is the memory from the first byte of the message on. -/
def handleMessage (socket : Nat) (node : Node α) (message : List UInt8) (len : Nat) :
    Outcome (Node α) := do
  let guid ← messageGetGuid message
  let length ← messageGetLength message
  let type ← messageGetType message
  let buffer : Buffer := ⟨length.toNat, message.drop messageHeaderSize⟩
  if guidIsNull guid then dispatch handlers socket type buffer node
  else if !messageHistoryHas node.network guid then
    let node ← dispatch handlers socket type buffer node
    let network ← broadcastMessage (messageHistoryAdd node.network guid) (message.take len)
    return { node with network := network }
  else return node

end Dispatch

/-- The loop of `find_message_start` from `i` on. A read past the data fails, so
that one round for each byte of it is enough. -/
def findMagic (data : List UInt8) (bound : Nat) : (fuel i : Nat) → Outcome (Option Nat)
  | 0, _ => .error .diverges
  | fuel + 1, i =>
      if i < bound then do
        let magic ← messageGetMagic (data.drop i)
        if magic = messageMagicNumber then return some i
        findMagic data bound fuel (i + 1)
      else .ok none

/-- The offset of the next message. The bound of the loop is of type `size_t`, and
wraps when the buffer is shorter than a header. -/
def findMessageStart (buf : DynamicBuffer) : Outcome (Option Nat) :=
  findMagic buf.data ((buf.length + 2 ^ 64 - messageHeaderSize + 1) % 2 ^ 64)
    (buf.data.length + 1) 0

section Reading

variable {σ : Type} (handleMessage : σ → List UInt8 → Nat → Outcome σ)

/-- The loop of `on_read`. Every round but the last takes a message out of the
buffer, so that one round for each byte of it is enough. -/
def readLoop : (fuel : Nat) → (buf : DynamicBuffer) → σ → Outcome (DynamicBuffer × σ)
  | 0, _, _ => .error .diverges
  | fuel + 1, buf, s => do
      match ← findMessageStart buf with
      | none => return (buf, s)
      | some padding =>
          let buf ← splice buf padding
          let _guid ← messageGetGuid buf.data
          let length ← messageGetLength buf.data
          let _type ← messageGetType buf.data
          let messageLength := messageHeaderSize + length.toNat
          if buf.length < messageLength then return (buf, s)
          let s ← handleMessage s buf.data messageLength
          let buf ← splice buf messageLength
          readLoop fuel buf s

/-- `on_read` on the `base` and `len` of its `uv_buf_t`, the list `base`. -/
def onRead (disconnect : σ → σ) (nread : Int) (base : List UInt8)
    (buf : DynamicBuffer) (s : σ) :
    Outcome (DynamicBuffer × σ) :=
  if nread < 0 then .ok (buf, disconnect s)
  else do
    let buf ← dynamicBufferWrite base buf
    readLoop handleMessage (buf.length + 1) buf s

end Reading

/-- The read buffer of a peer that `create_peer_from_tcp_socket` makes. -/
def peerBuffer : DynamicBuffer :=
  dynamicBufferCreate 32

/-- `create_peer_from_tcp_socket`, with what `uv_tcp_getpeername` says of the socket. -/
def createPeerFromTcpSocket (self : Network) (socket : Nat) (addr : List UInt8) (port : Int32) :
    Network :=
  { self with peers := self.peers ++ [⟨socket, addr, port⟩] }

section Connections

variable {α : Type} (handlers : UInt16 → Option (Handler α))

/-- `on_outgoing_connection`, and `on_incoming_connection`, when they succeed. -/
def onConnection (socket : Nat) (addr : List UInt8) (port : Int32) (node : Node α) :
    Outcome (Node α) :=
  let node := { node with network := createPeerFromTcpSocket node.network socket addr port }
  match handlers 0 with
  | none => .ok node
  | some handler => handler socket none node

/-- The handler is called before the peer is dropped. -/
def onSocketClosed (socket : Nat) (node : Node α) : Outcome (Node α) := do
  let node ← match handlers 1 with
    | none => .ok node
    | some handler => handler socket none node
  let peers := node.network.peers.eraseP fun peer => peer.socket = socket
  return { node with network := { node.network with peers := peers } }

end Connections

end Whosecoin.Networks

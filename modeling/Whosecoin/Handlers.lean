import Whosecoin.Networks
import Whosecoin.Pools

namespace Whosecoin.Handlers

open Library.Outcomes
open Cryptography
open TupleParser
open Transactions
open Accounts
open Blocks
open Blockchains
open Pools
open Messages
open Networks

/-- The global variables of `main.c`, with what `time` will return at each creation
of a block and `guid_new` at each broadcast. -/
structure Globals where
  blockchain : Blockchain
  pool : Pool
  publicKey : PublicKey
  secretKey : SecretKey
  port : Int32
  times : Nat → UInt64
  guids : Nat → Guid

abbrev State := Node Globals

/-- `VERSION_STRING`. -/
def versionString : List UInt8 :=
  "1.0.0-alpha".toList.map fun c => UInt8.ofNat c.toNat

section Sending

variable (state : State)

def send (event : UInt32) (buf : List UInt8) (socket : Nat) : Outcome State := do
  let network ← networkSend state.network event buf socket
  return { state with network := network }

/-- The `peer_t *` that a handler is called with. -/
def peerOf (socket : Nat) : Outcome Peer :=
  match state.network.peers.find? fun peer => peer.socket = socket with
  | some peer => .ok peer
  | none => .error .nullPointer

/-- Send the block to all peers, under a new guid. -/
def broadcastBlock (block : BlockPtr) : Outcome State := do
  require (block ≠ []) .assertion
  let buf ← blockWrite [] block
  let network ← networkBroadcast state.network (state.application.guids 0) 9 buf
  return { network := network
           application := { state.application with
             guids := fun n => state.application.guids (n + 1) } }

/-- Ask the peer for the blocks that follow this one. -/
def synchronizeBlockchain (socket : Nat) (block : BlockPtr) : Outcome State :=
  let buf := tupleWriteStart []
  let buf := tupleWriteBinary buf (blockGetHash block).toList
  let buf := tupleWriteEnd buf
  send state 5 buf socket

/-- Ask the peer for its peers. -/
def synchronizePeers (socket : Nat) : Outcome State :=
  let buf := tupleWriteStart []
  let buf := tupleWriteEnd buf
  send state 3 buf socket

end Sending

section Peers

/-- A `tuple_t *` read by an accessor without an assertion of its own. -/
def deref : Option Tuple → Outcome Tuple
  | some tuple => .ok tuple
  | none => .error .nullPointer

/-- A `tuple_t *` that is asserted not to be `NULL`. -/
def derefAsserted : Option Tuple → Outcome Tuple
  | some tuple => .ok tuple
  | none => .error .assertion

/-- A new peer is sent a handshake. -/
def onConnect : Handler Globals := fun socket _ state => do
  let buf := tupleWriteStart []
  let buf := tupleWriteI32 buf state.application.port
  let buf := tupleWriteString buf versionString
  let buf := tupleWriteEnd buf
  let state ← send state 2 buf socket
  let state ← synchronizePeers state socket
  synchronizeBlockchain state socket state.application.blockchain.principal

/-- A second connection to the same listening port is closed. -/
def onHandshake : Handler Globals := fun socket msg state => do
  let peer ← peerOf state socket
  let msg ← deref msg
  let port ← tupleGetI32 msg 0
  if networkHasPeer state.network peer.addr port then
    return { state with network := networkDisconnect state.network socket }
  let version ← tupleGetString msg 1
  let network :=
    if version ≠ versionString then networkDisconnect state.network socket else state.network
  return { state with network := peerSetPort network socket port }

def onDisconnect : Handler Globals := fun socket _ state => do
  let _peer ← peerOf state socket
  return state

/-- One iteration of the loop of `on_peers_request`. -/
def writePeer (peer : Peer) (buf : List UInt8) (p : Peer) : List UInt8 :=
  if p.port ≤ 0 then buf
  else if peer.addr ≠ p.addr ∨ p.port ≠ peer.port then
    let buf := tupleWriteStart buf
    let buf := tupleWriteString buf p.addr
    let buf := tupleWriteI32 buf p.port
    tupleWriteEnd buf
  else buf

/-- The listening peers, without the one that asks. -/
def onPeersRequest : Handler Globals := fun socket _ state => do
  let peer ← peerOf state socket
  let buf := tupleWriteStart []
  let buf := state.network.peers.foldl (writePeer peer) buf
  let buf := tupleWriteEnd buf
  send state 4 buf socket

/-- One iteration of the loop of `on_peers_response`. -/
def connectPeer (msg : Tuple) (state : State) (i : Nat) : Outcome State := do
  let peerTuple ← tupleGetTuple msg i
  let addr ← tupleGetString peerTuple 0
  let port ← tupleGetI32 peerTuple 1
  if networkHasPeer state.network addr port then return state
  return { state with network := networkConnect state.network addr port }

/-- Connect to every peer of the list that is not connected yet. -/
def onPeersResponse : Handler Globals := fun _ msg state => do
  let msg ← derefAsserted msg
  (List.range (tupleSize msg)).foldlM (connectPeer msg) state

end Peers

section Blocks

variable (S : Sodium)

/-- The first child of the block that this key has created. -/
def blockGetChildWithPublicKey (bc : Blockchain) (block : BlockPtr) (pk : PublicKey) :
    BlockPtr :=
  ((bc.children block).find? fun child => child.head?.map Block.publicKey = some pk).getD []

/-- `blockchain_add_block` on the global blockchain. -/
def addBlockToState (state : State) (block : BlockPtr) : Outcome (Bool × State) := do
  let (added, bc, pool) ← addBlock state.application.blockchain state.application.pool block
  return (added, { state with
    application := { state.application with blockchain := bc, pool := pool } })

/-- The block that a handler creates on top of `prev` with all pending transactions. -/
def createNext (state : State) (prev : BlockPtr) : Outcome (BlockPtr × State) := do
  let globals := state.application
  let (txns, pool) ← drainPool (poolSize globals.pool + 1) [] globals.pool
  let next ← blockCreate S (globals.times 0) globals.publicKey globals.secretKey prev txns
  return (next, { state with
    application := { globals with pool := pool, times := fun n => globals.times (n + 1) } })

/-- The end of `on_block` and of each iteration of `on_blocks_response`. -/
def forkAt (state : State) (prev : BlockPtr) : Outcome State := do
  let globals := state.application
  if prev ≠ [] ∧ blockGetChildWithPublicKey globals.blockchain prev globals.publicKey = [] then
    let (next, state) ← createNext S state prev
    if next = [] then return state
    let (added, state) ← addBlockToState state next
    if added then broadcastBlock state next else return state
  else return state

/-- The body of `on_block` and of the loop of `on_blocks_response`. -/
def receiveBlock (state : State) (tuple : Tuple) : Outcome State := do
  let block ← blockCreateFromTuple S tuple (blockchainGetBlock state.application.blockchain)
  if block = [] then return state
  let (added, state) ← addBlockToState state block
  if added then forkAt S state block.tail else return state

def onBlock : Handler Globals := fun _ msg state => do
  let msg ← derefAsserted msg
  receiveBlock S state msg

/-- The blocks are read from the last one to the first one. -/
def onBlocksResponse : Handler Globals := fun _ msg state => do
  let msg ← derefAsserted msg
  (List.range (tupleSize msg)).reverse.foldlM
    (fun state i => do receiveBlock S state (← tupleGetTuple msg i)) state

/-- The loop of `on_blocks_request`. -/
def writeBranch (block : BlockPtr) : (iter : BlockPtr) → (buf : List UInt8) →
    Outcome (List UInt8)
  | [], buf => .ok buf
  | data :: prev, buf =>
      if data :: prev = block then .ok buf
      else do
        let buf ← blockWrite buf (data :: prev)
        writeBranch block prev buf

/-- Answer with the principal chain down to the block that the request names. -/
def onBlocksRequest : Handler Globals := fun socket msg state => do
  let msg ← deref msg
  let hash ← tupleGetBinary msg 0
  let hash ← memcpy generichashBytes hash.data generichashBytes
  let block := blockchainGetBlock state.application.blockchain hash
  let buf := tupleWriteStart []
  let buf ← writeBranch block state.application.blockchain.principal buf
  let buf := tupleWriteEnd buf
  send state 6 buf socket

/-- Put a block of the node on the principal block, unless it has one there already. -/
def onTimer (state : State) : Outcome State := do
  let globals := state.application
  let block := globals.blockchain.principal
  if block ≠ [] ∧
      blockGetChildWithPublicKey globals.blockchain block globals.publicKey = [] then
    let (next, state) ← createNext S state block
    if next = [] then return state
    let (_, state) ← addBlockToState state next
    broadcastBlock state next
  else return state

/-- The genesis block that `main` creates. -/
def createGenesis (state : State) : Outcome State := do
  let globals := state.application
  let block ← blockCreate S (globals.times 0) globals.publicKey globals.secretKey [] []
  let state := { state with
    application := { globals with times := fun n => globals.times (n + 1) } }
  if block = [] then return state
  let (_, state) ← addBlockToState state block
  broadcastBlock state block

end Blocks

section Transactions

variable (S : Sodium)

def addPending (state : State) (txn : Transaction) : State :=
  { state with
    application := { state.application with pool := poolAdd state.application.pool txn } }

def onPoolRequest : Handler Globals := fun socket _ state =>
  let buf := tupleWriteStart []
  let buf := state.application.pool.list.foldl transactionWrite buf
  let buf := tupleWriteEnd buf
  send state 8 buf socket

/-- The body of `on_transaction` and of the loop of `on_pool_response`. -/
def receiveTransaction (state : State) (tuple : Tuple) : Outcome State := do
  match ← transactionCreateFromTuple S tuple with
  | none => return state
  | some txn => return addPending state txn

/-- The transactions in the order of the message. -/
def onPoolResponse : Handler Globals := fun _ msg state => do
  let msg ← derefAsserted msg
  (List.range (tupleSize msg)).foldlM
    (fun state i => do receiveTransaction S state (← tupleGetTuple msg i)) state

def onTransaction : Handler Globals := fun _ msg state => do
  let msg ← derefAsserted msg
  receiveTransaction S state msg

/-- `handle_send_command`, on the value and the recipient of a well-formed command. -/
def handleSendCommand (state : State) (value : UInt64) (recipient : PublicKey) : State :=
  addPending state (transactionCreate S state.application.publicKey state.application.secretKey
    recipient value 0)

end Transactions

/-- The handlers that `main` registers. -/
def handlers (S : Sodium) (type : UInt16) : Option (Handler Globals) :=
  match type.toNat with
  | 0 => some onConnect
  | 1 => some onDisconnect
  | 2 => some onHandshake
  | 3 => some onPeersRequest
  | 4 => some onPeersResponse
  | 5 => some onBlocksRequest
  | 6 => some (onBlocksResponse S)
  | 7 => some onPoolRequest
  | 8 => some (onPoolResponse S)
  | 9 => some (onBlock S)
  | 10 => some (onTransaction S)
  | _ => none

/-- A node before `main` creates the genesis block. -/
def initialState (publicKey : PublicKey) (secretKey : SecretKey) (port : Int32)
    (times : Nat → UInt64) (guids : Nat → Guid) : State where
  network := networkCreate
  application :=
    { blockchain := blockchainCreate
      pool := poolCreate
      publicKey := publicKey
      secretKey := secretKey
      port := port
      times := times
      guids := guids }

end Whosecoin.Handlers

import Whosecoin.HonestNodes
import Whosecoin.Provenance

namespace Whosecoin.Exchanges

open Library.Outcomes
open Library.ByteStrings
open Cryptography
open TupleParser
open TupleFormat
open Transactions
open TransactionSchema
open Pools
open Messages
open Networks
open Handlers
open NodeRuns
open MalformedMessages
open HonestNodes (Entry)

variable {S : Sodium} {a b : State} {socket : Nat}

section Loops

theorem foldlM_elements {α σ : Type} {xs : List α} {body : σ → Nat → Outcome σ}
    {next : σ → α → σ}
    (hbody : ∀ i x, xs[i]? = some x → ∀ s, body s i = .ok (next s x)) (s : σ) :
    (List.range xs.length).foldlM body s = .ok (xs.foldl next s) := by
  induction xs using List.reverseRecOn with
  | nil => rfl
  | append_singleton xs x ih =>
      have hinit : ∀ i y, xs[i]? = some y → ∀ s, body s i = .ok (next s y) := by
        intro i y hi
        apply hbody
        rw [List.getElem?_append_left (List.getElem?_eq_some_iff.mp hi).1, hi]
      have hlast := hbody xs.length x (by simp) (xs.foldl next s)
      rw [List.length_append, List.length_singleton, List.range_succ,
        List.foldlM_append, ih hinit, ok_bind, List.foldlM_cons, hlast, List.foldl_append]
      rfl

theorem handleMessage_sent {event : UInt32} {vs : List Value} {handler : Handler Globals}
    (hfits : Fits (Value.tuple vs).encode) (hevent : event.toUInt16.toNat < eventCount)
    (hhandler : handlers S event.toUInt16 = some handler) (after : List UInt8) :
    ∃ tuple, Represents tuple vs ∧
      ∀ a, handleMessage (handlers S) socket a
          (messageCreate guidNull event (Value.tuple vs).encode ++ after)
          (messageCreate guidNull event (Value.tuple vs).encode).length =
        handler socket (some tuple) a := by
  obtain ⟨tuple, hparse, hrep⟩ := @tupleParse_of_encode
    ⟨(Value.tuple vs).encode.length, (Value.tuple vs).encode ++ after⟩ vs after rfl le_rfl
  refine ⟨tuple, hrep, ?_⟩
  intro a
  rw [Fits, messageHeaderSize] at hfits
  rw [messageCreate_length, handleMessage_messageCreate guidNull event _ after (by omega),
    if_pos (by decide), dispatch_eq hparse hrep hevent hhandler]

/-- The state in which a message has been sent. -/
def sent (state : State) (socket : Nat) (message : List UInt8) : State :=
  { state with network := { messageHistoryAdd state.network guidNull with
    written := state.network.written ++ [(socket, message)] } }

theorem send_eq {event : UInt32} {buf : List UInt8} (hfits : Fits buf) :
    send a event buf socket = .ok (sent a socket (messageCreate guidNull event buf)) := by
  rw [Fits, ← messageCreate_length guidNull event] at hfits
  simp only [send, networkSend, sendMessage, sharedBufferCreate, if_pos hfits,
    ok_bind, pure_eq_ok]
  rfl

end Loops

section Pools

/-- The signature is that of the sender. -/
def verified (S : Sodium) (txn : Transaction) : Bool :=
  S.signVerifyDetached txn.signature txn.hash.toList txn.sender

def poolValues (txns : List Transaction) : List Value :=
  txns.map fun txn => .tuple (TransactionMessage.ofTransaction txn).values

theorem transactionWrites_eq (txns : List Transaction) (buf : List UInt8) :
    txns.foldl transactionWrite buf = buf ++ encodeAll (poolValues txns) := by
  induction txns generalizing buf with
  | nil => exact (List.append_nil buf).symm
  | cons txn txns ih =>
      rw [List.foldl_cons, ih, transactionWrite_eq, List.append_assoc]
      rfl

theorem poolAnswer_eq (a : State) :
    poolAnswer a = (Value.tuple (poolValues a.application.pool.list)).encode := by
  rw [poolAnswer, transactionWrites_eq, tupleWriteStart, tupleWriteEnd, Value.encode]
  simp

theorem poolAdd_of_mem {pool : Pool} {txn : Transaction} (h : txn.hash ∈ pool.hashes) :
    poolAdd pool txn = pool := by
  rw [poolAdd, dif_pos]
  rw [Ne, poolFind_eq_size_iff, not_not]
  exact h

theorem poolAdd_of_not_mem {pool : Pool} {txn : Transaction} (h : txn.hash ∉ pool.hashes) :
    (poolAdd pool txn).list = pool.list ++ [txn] := by
  rw [poolAdd, dif_neg]
  rw [Ne, poolFind_eq_size_iff, not_not]
  exact h

theorem list_foldl_poolAdd (pool : Pool) {txns : List Transaction}
    (hnodup : (txns.map Transaction.hash).Nodup) :
    (txns.foldl poolAdd pool).list =
      pool.list ++ txns.filter fun txn => txn.hash ∉ pool.hashes := by
  induction txns generalizing pool with
  | nil => exact (List.append_nil _).symm
  | cons txn txns ih =>
      rw [List.map_cons, List.nodup_cons] at hnodup
      obtain ⟨hfresh, hnodup⟩ := hnodup
      have hrest : txns.filter (fun other => other.hash ∉ (poolAdd pool txn).hashes) =
          txns.filter fun other => other.hash ∉ pool.hashes := by
        apply List.filter_congr
        intro other hother
        have hne : other.hash ≠ txn.hash := by
          intro heq
          exact hfresh (heq ▸ List.mem_map_of_mem hother)
        rw [decide_eq_decide, mem_hashes_poolAdd, or_iff_left hne]
      rw [List.foldl_cons, ih _ hnodup, hrest]
      by_cases hknown : txn.hash ∈ pool.hashes
      · rw [poolAdd_of_mem hknown, List.filter_cons_of_neg (by simpa using hknown)]
      · rw [poolAdd_of_not_mem hknown, List.filter_cons_of_pos (by simpa using hknown),
          List.append_assoc]
        rfl

/-- The node has taken the transactions into its pool. -/
def withPending (state : State) (txns : List Transaction) : State :=
  { state with application := { state.application with
    pool := txns.foldl poolAdd state.application.pool } }

theorem foldl_receive (txns : List Transaction) (a : State) :
    txns.foldl (fun s txn => if verified S txn then addPending s txn else s) a =
      withPending a (txns.filter (verified S)) := by
  induction txns generalizing a with
  | nil => rfl
  | cons txn txns ih =>
      rw [List.foldl_cons, ih]
      by_cases hverified : verified S txn = true
      · rw [if_pos hverified, List.filter_cons_of_pos hverified]
        rfl
      · rw [if_neg hverified, List.filter_cons_of_neg hverified]

theorem onPoolResponse_eq {tuple : Tuple} {txns : List Transaction}
    (hrep : Represents tuple (poolValues txns))
    (hhash : ∀ txn ∈ txns, txn.hash = S.generichash (transactionHashInput txn)) :
    onPoolResponse S socket (some tuple) a = .ok (withPending a (txns.filter (verified S))) := by
  have hsize : tupleSize tuple = txns.length := by
    rw [hrep.tupleSize_eq, poolValues, List.length_map]
  rw [onPoolResponse, derefAsserted, ok_bind, hsize, ← foldl_receive]
  apply foldlM_elements
  intro i txn hi s
  have hvalue : (poolValues txns)[i]? =
      some (.tuple (TransactionMessage.ofTransaction txn).values) := by
    rw [poolValues, List.getElem?_map, hi]
    rfl
  obtain ⟨sub, hget, hsub⟩ := hrep.tupleGetTuple_eq hvalue
  have hsame := transaction_ofTransaction (hhash txn (List.mem_of_getElem? hi))
  have hiff : (TransactionMessage.ofTransaction txn).Verifies S ↔ verified S txn = true := by
    rw [TransactionMessage.Verifies, hsame]
    rfl
  rw [hget, ok_bind, receiveTransaction, transactionCreateFromTuple_eq hsub, ok_bind, hsame]
  by_cases hverified : verified S txn = true
  · rw [if_pos (hiff.mpr hverified), if_pos hverified]
    rfl
  · rw [if_neg (hiff.not.mpr hverified), if_neg hverified]
    rfl

theorem withPending_list (a : State) {txns : List Transaction}
    (hnodup : (txns.map Transaction.hash).Nodup) :
    (withPending a txns).application.pool.list = a.application.pool.list ++
      txns.filter fun txn => txn.hash ∉ a.application.pool.hashes :=
  list_foldl_poolAdd a.application.pool hnodup

theorem withPending_again (a : State) (txns : List Transaction) :
    withPending (withPending a txns) txns = withPending a txns := by
  have hall :
      ∀ (pool : Pool) (rest : List Transaction), (∀ txn ∈ rest, txn.hash ∈ pool.hashes) →
      rest.foldl poolAdd pool = pool := by
    intro pool rest hrest
    induction rest with
    | nil => rfl
    | cons txn rest ih =>
        rw [List.forall_mem_cons] at hrest
        rw [List.foldl_cons, poolAdd_of_mem hrest.1, ih hrest.2]
  have hpool := hall (txns.foldl poolAdd a.application.pool) txns fun txn htxn =>
    (mem_hashes_foldl _ _ _).mpr (Or.inr ⟨txn, htxn, rfl⟩)
  simp only [withPending, hpool]

/-- A node that has asked another one for its pool has the pending transactions of both
whose signatures are right, and asking again changes nothing. -/
theorem pool_exchange (hb : Reachable S b) (hfits : Fits (poolAnswer b)) (socket : Nat)
    (msg : Option Tuple) :
    ∃ message, onPoolRequest socket msg b = .ok (sent b socket message) ∧
      ∀ (peer : Nat) (a : State) (after : List UInt8), ∃ pool : Pool,
        let next := { a with application := { a.application with pool := pool } }
        handleMessage (handlers S) peer a (message ++ after) message.length = .ok next ∧
          handleMessage (handlers S) peer next (message ++ after) message.length = .ok next ∧
          pool.list = a.application.pool.list ++ b.application.pool.list.filter fun txn =>
            verified S txn && decide (txn.hash ∉ a.application.pool.hashes) := by
  have hanswer := poolAnswer_eq b
  refine ⟨messageCreate guidNull 8 (poolAnswer b), send_eq hfits, ?_⟩
  intro peer a after
  rw [hanswer] at hfits ⊢
  obtain ⟨tuple, hrep, hread⟩ := @handleMessage_sent S peer 8 _ _ hfits (by decide) rfl after
  have hhash : ∀ txn ∈ b.application.pool.list,
      txn.hash = S.generichash (transactionHashInput txn) := by
    intro txn htxn
    exact HistoryBinding.Genuine.hash_eq ((Provenance.traced_of_reachable hb).pool txn htxn)
  have hhandle : ∀ a, onPoolResponse S peer (some tuple) a =
      .ok (withPending a (b.application.pool.list.filter (verified S))) :=
    fun a => onPoolResponse_eq hrep hhash
  have hnodup : ((b.application.pool.list.filter (verified S)).map Transaction.hash).Nodup :=
    b.application.pool.nodup.sublist (List.filter_sublist.map _)
  refine ⟨_, (hread a).trans (hhandle a), ?_, ?_⟩
  · exact (hread _).trans ((hhandle _).trans (congrArg Except.ok (withPending_again a _)))
  · refine (withPending_list a hnodup).trans ?_
    rw [List.filter_filter]
    congr 1
    apply List.filter_congr
    intro txn _
    exact Bool.and_comm _ _

theorem poolAnswer_fits {b : State} {txn : Transaction} (h : b.application.pool.list = [txn]) :
    Fits (poolAnswer b) := by
  apply fits_of_short
  rw [poolAnswer, h]
  simp only [List.foldl_cons, List.foldl_nil, transactionWrite, tupleWriteStart, tupleWriteBinary,
    tupleWriteU64, tupleWriteU32, tupleWriteScalar, tupleWriteEnd, List.length_append,
    List.length_cons, List.length_nil, toLittleEndian_length, toBigEndian_length, Bytes.length_eq]
  decide

/-- The node that is asked has been told to send money. -/
theorem pool_exchange_command : ∃ (b : State) (message : List UInt8),
    b.application.pool.list ≠ [] ∧ onPoolRequest 1 none b = .ok (sent b 1 message) ∧
      ∃ next, handleMessage (handlers transparent) 1 b (message ++ []) message.length =
        .ok next := by
  obtain ⟨first, second, h⟩ := PendingTransactions.exists_spent
  obtain ⟨bytes, hwrite, hsize⟩ := h.sizes [first] (by simp)
  obtain ⟨network, hgenesis⟩ :=
    @createGenesis_ok transparent Chains.minerKey Chains.minerSecret 0
    (fun n => UInt64.ofNat (n + 1)) (fun _ => guidNull) _ _ h.create_first hwrite hsize
  have hnode := (Reachable.start hgenesis).command 2048 Chains.payeeKey
  have hpool := @poolAdd_of_not_mem poolCreate PendingTransactions.allMoney
    (by simp [Pool.hashes, poolCreate])
  obtain ⟨message, hsent, hread⟩ := pool_exchange hnode (poolAnswer_fits hpool) 1 none
  obtain ⟨pool, hmessage, -⟩ := hread 1 _ []
  exact ⟨_, message, ne_of_eq_of_ne hpool (List.cons_ne_nil _ _), hsent, _, hmessage⟩

end Pools

section Peers

/-- The node tells the peer `self` about another one, which has to listen. -/
def told (self peer : Peer) : Bool :=
  decide (0 < peer.port) && decide (self.addr ≠ peer.addr ∨ peer.port ≠ self.port)

/-- Where a peer listens. -/
def addressOf (peer : Peer) : List UInt8 × Int32 :=
  (peer.addr, peer.port)

def entriesValues (entries : List Entry) : List Value :=
  entries.map fun entry => .tuple entry.values

theorem writePeer_told (self : Peer) (buf : List UInt8) {peer : Peer}
    (htold : told self peer = true)
    (hnul : 0 ∉ peer.addr) :
    writePeer self buf peer =
      buf ++ (Value.tuple (Entry.values ⟨peer.addr, hnul, peer.port⟩)).encode := by
  rw [told, Bool.and_eq_true, decide_eq_true_eq, decide_eq_true_eq] at htold
  obtain ⟨hport, hother⟩ := htold
  rw [writePeer, if_neg (by rw [Int32.not_le]; exact hport), if_pos hother]
  simp only [tupleWriteStart, tupleWriteString, tupleWriteI32, tupleWriteScalar, tupleWriteEnd,
    Entry.values, Value.encode, encodeAll, List.append_assoc, List.cons_append, List.nil_append,
    List.append_nil]

theorem writePeer_not_told (self : Peer) (buf : List UInt8) {peer : Peer}
    (htold : ¬ told self peer = true) : writePeer self buf peer = buf := by
  rw [told, Bool.and_eq_true, decide_eq_true_eq, decide_eq_true_eq] at htold
  rw [writePeer]
  split_ifs with hport hother
  · rfl
  · exact absurd ⟨Int32.not_le.mp hport, hother⟩ htold
  · rfl

theorem writePeers_told (self : Peer) {peers : List Peer}
    (hpeers : ∀ peer ∈ peers, 0 ∉ peer.addr)
    (buf : List UInt8) : ∃ entries : List Entry,
      peers.foldl (writePeer self) buf = buf ++ encodeAll (entriesValues entries) ∧
        (entries.map fun entry => (entry.addr, entry.port)) =
          (peers.filter (told self)).map addressOf := by
  induction peers generalizing buf with
  | nil => exact ⟨[], (List.append_nil buf).symm, rfl⟩
  | cons peer peers ih =>
      rw [List.forall_mem_cons] at hpeers
      obtain ⟨hnul, hpeers⟩ := hpeers
      rw [List.foldl_cons]
      by_cases htold : told self peer = true
      · obtain ⟨entries, hentries, haddresses⟩ := ih hpeers (writePeer self buf peer)
        refine ⟨⟨peer.addr, hnul, peer.port⟩ :: entries, ?_, ?_⟩
        · rw [hentries, writePeer_told self buf htold hnul, List.append_assoc]
          rfl
        · rw [List.filter_cons_of_pos htold, List.map_cons, List.map_cons, haddresses]
          rfl
      · rw [writePeer_not_told self buf htold, List.filter_cons_of_neg htold]
        exact ih hpeers buf

theorem peersAnswer_told (self : Peer) (hpeers : ∀ peer ∈ b.network.peers, 0 ∉ peer.addr) :
    ∃ entries : List Entry, peersAnswer b self = (Value.tuple (entriesValues entries)).encode ∧
      (entries.map fun entry => (entry.addr, entry.port)) =
        (b.network.peers.filter (told self)).map addressOf := by
  obtain ⟨entries, hentries, haddresses⟩ := writePeers_told self hpeers (tupleWriteStart [])
  refine ⟨entries, ?_, haddresses⟩
  rw [peersAnswer, hentries, tupleWriteStart, tupleWriteEnd, Value.encode]
  simp

/-- The node dials the addresses. -/
def dialling (state : State) (addresses : List (List UInt8 × Int32)) : State :=
  { state with network := { state.network with
    connecting := state.network.connecting ++ addresses } }

/-- What a new address in the list of peers makes the node do. -/
def connectTo (state : State) (address : List UInt8 × Int32) : State :=
  if networkHasPeer state.network address.1 address.2 then state else dialling state [address]

/-- Dialling does not change the peers, so that the order of the addresses is kept. -/
theorem foldl_connectTo (addresses : List (List UInt8 × Int32)) (a : State) :
    addresses.foldl connectTo a =
      dialling a (addresses.filter fun c => !networkHasPeer a.network c.1 c.2) := by
  induction addresses generalizing a with
  | nil =>
      rw [List.filter_nil, dialling, List.append_nil]
      rfl
  | cons address addresses ih =>
      rw [List.foldl_cons, ih, connectTo]
      by_cases hknown : networkHasPeer a.network address.1 address.2 = true
      · rw [if_pos hknown, List.filter_cons_of_neg (by simp [hknown])]
      · rw [if_neg hknown, List.filter_cons_of_pos (by simp [hknown])]
        simp only [dialling, List.append_assoc]
        rfl

theorem onPeersResponse_eq {tuple : Tuple} {entries : List Entry}
    (hrep : Represents tuple (entriesValues entries)) :
    onPeersResponse socket (some tuple) a =
      .ok ((entries.map fun entry => (entry.addr, entry.port)).foldl connectTo a) := by
  have hsize : tupleSize tuple = entries.length := by
    rw [hrep.tupleSize_eq, entriesValues, List.length_map]
  rw [onPeersResponse, derefAsserted, ok_bind, hsize, List.foldl_map]
  apply foldlM_elements
  intro i entry hi s
  have hvalue : (entriesValues entries)[i]? = some (.tuple entry.values) := by
    rw [entriesValues, List.getElem?_map, hi]
    rfl
  obtain ⟨sub, hget, hsub⟩ := hrep.tupleGetTuple_eq hvalue
  have haddr : tupleGetString sub 0 = .ok entry.addr := hsub.tupleGetString_eq rfl
  have hport : tupleGetI32 sub 1 = .ok entry.port := by
    rw [tupleGetI32, hsub.tupleGetScalar_eq rfl, Except.map]
    exact congrArg Except.ok (Handshakes.portOf_toBigEndian entry.port)
  rw [connectPeer, hget, ok_bind, haddr, ok_bind, hport, ok_bind, connectTo]
  split_ifs with hknown
  · rfl
  · rfl

/-- A node that asks another one for its peers dials those that listen, in their order,
unless it has them already; the other node leaves out the asking one as it knows it. -/
theorem peers_exchange {self : Peer} (hself : peerOf b socket = .ok self)
    (hpeers : ∀ peer ∈ b.network.peers, 0 ∉ peer.addr) (hfits : Fits (peersAnswer b self))
    (msg : Option Tuple) :
    ∃ message, onPeersRequest socket msg b = .ok (sent b socket message) ∧
      ∀ (peer : Nat) (a : State) (after : List UInt8),
        handleMessage (handlers S) peer a (message ++ after) message.length =
          .ok (dialling a (((b.network.peers.filter (told self)).map addressOf).filter fun c =>
            !networkHasPeer a.network c.1 c.2)) := by
  obtain ⟨entries, hanswer, haddresses⟩ := peersAnswer_told self hpeers
  refine ⟨messageCreate guidNull 4 (peersAnswer b self), ?_, ?_⟩
  · rw [onPeersRequest, hself, ok_bind]
    exact send_eq hfits
  · intro peer a after
    rw [hanswer] at hfits ⊢
    obtain ⟨tuple, hrep, hread⟩ := @handleMessage_sent S peer 4 _ _ hfits (by decide) rfl after
    rw [hread, onPeersResponse_eq hrep, haddresses, foldl_connectTo]

/-- A node with two peers is asked by one of them. -/
def askedNode : State :=
  { initialState Chains.minerKey Chains.minerSecret 7 (fun _ => 0) (fun _ => guidNull) with
    network := { networkCreate with peers := [⟨1, [49], 5⟩, ⟨2, [50], 6⟩] } }

theorem peers_exchange_pair : ∃ message,
    onPeersRequest 1 none askedNode = .ok (sent askedNode 1 message) ∧
      ∀ (peer : Nat) (a : State) (after : List UInt8),
        handleMessage (handlers transparent) peer a (message ++ after) message.length =
          .ok (dialling a
            (((askedNode.network.peers.filter (told ⟨1, [49], 5⟩)).map addressOf).filter
              fun c => !networkHasPeer a.network c.1 c.2)) :=
  peers_exchange rfl (by decide) (fits_of_short (by decide)) none

end Peers

end Whosecoin.Exchanges

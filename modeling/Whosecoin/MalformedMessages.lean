import Whosecoin.BlockReception
import Whosecoin.BlockRelay
import Whosecoin.PendingTransactions

/-!
Handler by handler, when a message from anyone is handled to its end and when it leaves
the node as it was.
-/

namespace Whosecoin.MalformedMessages

open Library.Outcomes
open Library.ByteStrings
open Cryptography
open TupleParser
open TupleFormat
open Transactions
open TransactionSchema
open Accounts
open Blocks
open BlockSchema
open Blockchains
open Pools
open Messages
open Networks
open Handlers
open MalformedTuples
open NodeRuns
open BlockReception

variable {S : Sodium}

section Destruction

mutual

theorem destroyElements_eq (data : List UInt8) :
    ∀ (vs : List Value) (offset : Nat), At data offset (encodeAll vs) →
      destroyElements data (layoutAll offset vs) = .ok ()
  | [], _, _ => rfl
  | v :: vs, offset, hat => by
      rw [encodeAll, at_append] at hat
      rw [layoutAll, destroyElements, destroyElement_eq data v offset hat.1, ok_bind]
      exact destroyElements_eq data vs _ hat.2

theorem destroyElement_eq (data : List UInt8) :
    ∀ (v : Value) (offset : Nat), At data offset v.encode →
      destroyElement data (v.layout offset) = .ok ()
  | .tuple values, offset, hat => by
      rw [Value.encode, at_cons, at_append] at hat
      rw [Value.layout, destroyElement]
      exact destroyElements_eq data values _ hat.2.1
  | .scalar kind payload, offset, hat => by
      rw [Value.encode, at_cons] at hat
      have hne : (Tag.scalar kind).byte ≠ Tag.tupleStart.byte :=
        fun h => nomatch Tag.byte_injective h
      simp only [Value.layout, destroyElement, hat.1, if_neg hne]
  | .string chars nulFree, offset, hat => by
      rw [Value.encode, at_cons] at hat
      have hne : Tag.string.byte ≠ Tag.tupleStart.byte := by decide
      simp only [Value.layout, destroyElement, hat.1, if_neg hne]
  | .binary bytes fits, offset, hat => by
      rw [Value.encode, at_cons] at hat
      have hne : Tag.binary.byte ≠ Tag.tupleStart.byte := by decide
      simp only [Value.layout, destroyElement, hat.1, if_neg hne]

end

theorem tupleDestroy_eq {tuple : Tuple} {vs : List Value} (h : Represents tuple vs) :
    tupleDestroy (some tuple) = .ok () := by
  have hat := h.at_start
  rw [Value.encode, at_cons, at_append] at hat
  rw [tupleDestroy, h.elements_eq]
  exact destroyElements_eq tuple.data vs _ hat.2.1

end Destruction

section Accessors

variable {tuple : Tuple} {vs : List Value} {i : Nat} {α : Type}

/-- The port that four bytes encode. -/
def portOf (payload : Bytes Scalar.i32.width) : Int32 :=
  (UInt32.ofNat (bigEndian payload.toList)).toInt32

theorem returns_getI32 (h : Represents tuple vs) (rest : Int32 → Outcome α) :
    Returns (tupleGetI32 tuple i >>= rest) ↔
      ∃ payload, vs[i]? = some (.scalar .i32 payload) ∧ Returns (rest (portOf payload)) := by
  rcases eq_or_ne (vs[i]?.map Value.tag) (some (.scalar .i32)) with htag | htag
  · obtain ⟨v, hi, htag⟩ := Option.map_eq_some_iff.mp htag
    obtain ⟨payload, rfl⟩ := exists_scalar_of_tag htag
    rw [tupleGetI32, h.tupleGetScalar_eq hi, Except.map, ok_bind, hi]
    constructor
    · intro hrest
      exact ⟨payload, rfl, hrest⟩
    · rintro ⟨payload', ⟨⟩, hrest⟩
      exact hrest
  · rw [tupleGetI32, h.tupleGetScalar_error htag, Except.map, error_bind]
    constructor
    · exact fun hfails => absurd hfails (not_returns_error _)
    · rintro ⟨payload, hi, -⟩
      exact absurd (by rw [hi]; rfl) htag

theorem returns_getString (h : Represents tuple vs) (rest : List UInt8 → Outcome α) :
    Returns (tupleGetString tuple i >>= rest) ↔
      ∃ chars nulFree, vs[i]? = some (.string chars nulFree) ∧ Returns (rest chars) := by
  rcases eq_or_ne (vs[i]?.map Value.tag) (some .string) with htag | htag
  · obtain ⟨v, hi, htag⟩ := Option.map_eq_some_iff.mp htag
    cases v with
    | string chars nulFree =>
        rw [h.tupleGetString_eq hi, ok_bind, hi]
        constructor
        · intro hrest
          exact ⟨chars, nulFree, rfl, hrest⟩
        · rintro ⟨chars', nulFree', ⟨⟩, hrest⟩
          exact hrest
    | _ => cases htag
  · rw [h.tupleGetString_error htag, error_bind]
    constructor
    · exact fun hfails => absurd hfails (not_returns_error _)
    · rintro ⟨chars, nulFree, hi, -⟩
      exact absurd (by rw [hi]; rfl) htag

theorem tupleGetBinary_zero (h : Represents tuple vs) {bytes : List UInt8}
    {fits : bytes.length < 2 ^ 32} (hi : vs[0]? = some (.binary bytes fits)) :
    tupleGetBinary tuple 0 = .ok ⟨bytes.length, tuple.data.drop (tuple.start + 6)⟩ := by
  obtain ⟨rest, rfl⟩ : ∃ rest, vs = .binary bytes fits :: rest := by
    rcases vs with _ | ⟨v, rest⟩
    · cases hi
    · cases hi
      exact ⟨rest, rfl⟩
  have hat := h.at_start
  rw [Value.encode, at_cons, encodeAll, Value.encode, List.cons_append, List.cons_append, at_cons,
    List.append_assoc, List.append_assoc, at_append] at hat
  have hread := readBytes_eq_ok.mpr ⟨toLittleEndian_length 4 bytes.length, hat.2.2.1⟩
  have hfirst : listGet tuple.elements 0 = .ok (.pointer (tuple.start + 1)) := by
    rw [listGet, h.elements_eq]
    rfl
  simp only [tupleGetBinary, h.tupleGetType_eq hi, ok_bind, Value.tag, require_true, hfirst,
    hread, pure_eq_ok, littleEndian_toLittleEndian 4 bytes.length fits]

end Accessors

/-- The blockchain, the pool and the peer table are the same. -/
structure Unchanged (a b : State) : Prop where
  blockchain : b.application.blockchain = a.application.blockchain
  pool : b.application.pool = a.application.pool
  peers : b.network.peers = a.network.peers

theorem Unchanged.refl (a : State) : Unchanged a a :=
  ⟨rfl, rfl, rfl⟩

theorem Unchanged.trans {a b c : State} (hab : Unchanged a b) (hbc : Unchanged b c) :
    Unchanged a c :=
  ⟨hbc.blockchain.trans hab.blockchain, hbc.pool.trans hab.pool, hbc.peers.trans hab.peers⟩

/-- When a handler returns, and when it then leaves the three tables alone. -/
structure Behaves (handler : Handler Globals) (socket : Nat) (tuple : Tuple) (node : State)
    (runs spares : Prop) : Prop where
  returns_iff : Returns (handler socket (some tuple) node) ↔ runs
  unchanged_iff : ∀ node', handler socket (some tuple) node = .ok node' →
    (Unchanged node node' ↔ spares)

section Answers

variable {a b : State} {socket : Nat} {tuple : Tuple} {vs : List Value}

/-- An answer is sent with a header in front of it. -/
def Fits (buf : List UInt8) : Prop :=
  messageHeaderSize + buf.length < 2 ^ 31

theorem send_returns_iff (event : UInt32) (buf : List UInt8) :
    Returns (send a event buf socket) ↔ Fits buf := by
  simp only [send, networkSend, sendMessage, sharedBufferCreate, messageCreate_length, Fits]
  split_ifs with hfits
  · exact ⟨fun _ => hfits, fun _ => returns_ok _⟩
  · exact ⟨fun h => absurd h (not_returns_error _), fun h => absurd h hfits⟩

theorem send_unchanged {event : UInt32} {buf : List UInt8} (h : send a event buf socket = .ok b) :
    Unchanged a b := by
  simp only [send, networkSend, sendMessage, bind_eq_ok] at h
  obtain ⟨network, ⟨shared, -, hnetwork⟩, h⟩ := h
  cases hnetwork
  cases h
  exact ⟨rfl, rfl, rfl⟩

theorem fits_of_short {buf : List UInt8} (h : buf.length < 2 ^ 30) : Fits buf := by
  rw [Fits, messageHeaderSize]
  omega

theorem onConnect_behaves : Behaves onConnect socket tuple a True True where
  returns_iff := by
    refine iff_of_true ?_ trivial
    have hhandshake : Fits (tupleWriteEnd (tupleWriteString (tupleWriteI32 (tupleWriteStart [])
        a.application.port) versionString)) := by
      refine fits_of_short ?_
      simp only [tupleWriteEnd, tupleWriteString, tupleWriteI32, tupleWriteScalar,
        tupleWriteStart, List.length_append, List.length_cons, List.length_nil,
        toBigEndian_length]
      decide
    obtain ⟨b, hb⟩ := (@send_returns_iff a socket 2 _).mpr hhandshake
    obtain ⟨c, hc⟩ := (@send_returns_iff b socket 3
      (tupleWriteEnd (tupleWriteStart []))).mpr (fits_of_short (by decide))
    have hrequest : Fits (tupleWriteEnd (tupleWriteBinary (tupleWriteStart [])
        (blockGetHash c.application.blockchain.principal).toList)) := by
      refine fits_of_short ?_
      simp only [tupleWriteEnd, tupleWriteBinary, tupleWriteStart, List.length_append,
        List.length_cons, List.length_nil, toLittleEndian_length, Bytes.length_eq]
      decide
    obtain ⟨d, hd⟩ := (@send_returns_iff c socket 5 _).mpr hrequest
    refine ⟨d, ?_⟩
    simp only [onConnect, bind_eq_ok]
    exact ⟨b, hb, c, hc, hd⟩
  unchanged_iff := by
    intro node' h
    simp only [onConnect, bind_eq_ok] at h
    obtain ⟨b, hb, c, hc, hd⟩ := h
    exact iff_of_true (((send_unchanged hb).trans (send_unchanged hc)).trans (send_unchanged hd))
      trivial

theorem onDisconnect_behaves {peer : Peer} (hpeer : peerOf a socket = .ok peer) :
    Behaves onDisconnect socket tuple a True True where
  returns_iff := by
    rw [onDisconnect, hpeer]
    exact iff_of_true (returns_ok a) trivial
  unchanged_iff := by
    intro node' h
    rw [onDisconnect, hpeer] at h
    cases h
    exact iff_of_true (.refl a) trivial

/-- What `on_peers_request` answers. -/
def peersAnswer (node : State) (peer : Peer) : List UInt8 :=
  tupleWriteEnd (node.network.peers.foldl (writePeer peer) (tupleWriteStart []))

theorem onPeersRequest_behaves {peer : Peer} (hpeer : peerOf a socket = .ok peer) :
    Behaves onPeersRequest socket tuple a (Fits (peersAnswer a peer)) True where
  returns_iff := by
    rw [onPeersRequest, hpeer, ok_bind]
    exact send_returns_iff 4 _
  unchanged_iff := by
    intro node' h
    rw [onPeersRequest, hpeer, ok_bind] at h
    exact iff_of_true (send_unchanged h) trivial

/-- What `on_pool_request` answers. -/
def poolAnswer (node : State) : List UInt8 :=
  tupleWriteEnd (node.application.pool.list.foldl transactionWrite (tupleWriteStart []))

theorem onPoolRequest_behaves :
    Behaves onPoolRequest socket tuple a (Fits (poolAnswer a)) True where
  returns_iff := send_returns_iff 8 _
  unchanged_iff := fun _ h => iff_of_true (send_unchanged h) trivial

theorem writeBranch_returns (block iter : BlockPtr) (buf : List UInt8) :
    Returns (writeBranch block iter buf) := by
  induction iter generalizing buf with
  | nil => exact returns_ok buf
  | cons data prev ih =>
      rw [writeBranch]
      split_ifs with hstop
      · exact returns_ok buf
      · obtain ⟨bytes, hwrite⟩ := blockWrite_returns (List.cons_ne_nil data prev) buf
        rw [hwrite, ok_bind]
        exact ih bytes

/-- What `on_blocks_request` answers to a hash fits into a message. -/
def BranchFits (node : State) (hash : Hash) : Prop :=
  ∀ buf, writeBranch (blockchainGetBlock node.application.blockchain hash)
      node.application.blockchain.principal (tupleWriteStart []) = .ok buf →
    Fits (tupleWriteEnd buf)

/-- The request begins with a binary of whatever length, and the hash is read from
where its bytes begin. -/
def BranchRuns (node : State) (memory : List UInt8) (vs : List Value) : Prop :=
  ∃ (bytes : List UInt8) (fits : bytes.length < 2 ^ 32) (hash : Hash),
    vs[0]? = some (.binary bytes fits) ∧
      memcpy generichashBytes (memory.drop 6) generichashBytes = .ok hash ∧ BranchFits node hash

theorem onBlocksRequest_behaves (h : Represents tuple vs) (hstart : tuple.start = 0) :
    Behaves onBlocksRequest socket tuple a (BranchRuns a tuple.data vs) True where
  returns_iff := by
    have hread : onBlocksRequest socket (some tuple) a =
        tupleGetBinary tuple 0 >>= fun hash =>
          memcpy generichashBytes hash.data generichashBytes >>=
          fun hash => writeBranch (blockchainGetBlock a.application.blockchain hash)
            a.application.blockchain.principal (tupleWriteStart []) >>= fun buf =>
              send a 6 (tupleWriteEnd buf) socket := rfl
    rw [hread, returns_bind]
    constructor
    · rintro ⟨buf, hget, hrest⟩
      obtain ⟨bytes, fits, hi, -⟩ := exists_binary_of_get h hget
      rw [tupleGetBinary_zero h hi, hstart, Except.ok.injEq] at hget
      subst hget
      rw [returns_bind] at hrest
      obtain ⟨hash, hcopy, hrest⟩ := hrest
      refine ⟨bytes, fits, hash, hi, by simpa using hcopy, ?_⟩
      intro answer hanswer
      rw [hanswer, ok_bind, send_returns_iff] at hrest
      exact hrest
    · rintro ⟨bytes, fits, hash, hi, hcopy, hfits⟩
      refine ⟨_, tupleGetBinary_zero h hi, ?_⟩
      obtain ⟨answer, hanswer⟩ := writeBranch_returns
        (blockchainGetBlock a.application.blockchain hash) a.application.blockchain.principal
        (tupleWriteStart [])
      simp only [hstart, Nat.zero_add]
      rw [hcopy, ok_bind, hanswer, ok_bind, send_returns_iff]
      exact hfits answer hanswer
  unchanged_iff := by
    intro node' hrun
    simp only [onBlocksRequest, bind_eq_ok] at hrun
    obtain ⟨msg, -, request, -, hash, -, buf, -, hsend⟩ := hrun
    exact iff_of_true (send_unchanged hsend) trivial

end Answers

section Peers

variable {a b : State} {socket : Nat} {tuple : Tuple} {vs : List Value}

/-- A handshake names a port, and a version unless the peer is known already. -/
def HandshakeRuns (node : State) (peer : Peer) (vs : List Value) : Prop :=
  ∃ payload, vs[0]? = some (.scalar .i32 payload) ∧
    (networkHasPeer node.network peer.addr (portOf payload) = true ∨
      ∃ chars nulFree, vs[1]? = some (.string chars nulFree))

/-- The listening port is that of a peer that is connected already. -/
def HandshakeKnown (node : State) (peer : Peer) (vs : List Value) : Prop :=
  ∃ payload, vs[0]? = some (.scalar .i32 payload) ∧
    networkHasPeer node.network peer.addr (portOf payload) = true

theorem peerOf_mem {peer : Peer} (h : peerOf a socket = .ok peer) :
    peer ∈ a.network.peers ∧ peer.socket = socket := by
  rw [peerOf] at h
  split at h
  · rename_i found hfind
    cases h
    exact ⟨List.mem_of_find?_eq_some hfind, by simpa using List.find?_some hfind⟩
  · cases h

theorem peerSetPort_ne {peer : Peer} (hpeer : peerOf a socket = .ok peer) {port : Int32}
    (hnew : networkHasPeer a.network peer.addr port ≠ true) {network : Network}
    (hpeers : network.peers = a.network.peers) :
    (peerSetPort network socket port).peers ≠ a.network.peers := by
  obtain ⟨hmem, hsocket⟩ := peerOf_mem hpeer
  intro hsame
  obtain ⟨i, hlt, hi⟩ := List.getElem_of_mem hmem
  have hget := congrArg (fun peers : List Peer => peers[i]?) hsame
  have hpeer' : a.network.peers[i]? = some peer := by rw [List.getElem?_eq_getElem hlt, hi]
  simp only [peerSetPort, hpeers, List.getElem?_map, hpeer', Option.map_some, hsocket, if_true,
    Option.some.injEq] at hget
  apply hnew
  rw [networkHasPeer, List.any_eq_true]
  refine ⟨peer, hmem, ?_⟩
  rw [decide_eq_true_eq]
  exact ⟨rfl, congrArg Peer.port hget⟩

theorem onHandshake_behaves (h : Represents tuple vs) {peer : Peer}
    (hpeer : peerOf a socket = .ok peer) :
    Behaves onHandshake socket tuple a (HandshakeRuns a peer vs) (HandshakeKnown a peer vs) where
  returns_iff := by
    rw [onHandshake, hpeer, ok_bind, deref, ok_bind, returns_getI32 h]
    refine exists_congr fun payload => and_congr_right fun _ => ?_
    split_ifs with hknown
    · exact iff_of_true (returns_ok _) (Or.inl hknown)
    · rw [returns_getString h, or_iff_right hknown]
      constructor
      · rintro ⟨chars, nulFree, hi, -⟩
        exact ⟨chars, nulFree, hi⟩
      · rintro ⟨chars, nulFree, hi⟩
        exact ⟨chars, nulFree, hi, returns_ok _⟩
  unchanged_iff := by
    intro node' hrun
    have hreturns : Returns (tupleGetI32 tuple 0 >>= fun port =>
        (.ok (networkHasPeer a.network peer.addr port) : Outcome Bool)) := by
      simp only [onHandshake, bind_eq_ok] at hrun
      obtain ⟨peer', -, msg, ⟨⟩, port, hport, -⟩ := hrun
      rw [hport, ok_bind]
      exact returns_ok _
    obtain ⟨payload, hi, -⟩ := (returns_getI32 h _).mp hreturns
    have hport : tupleGetI32 tuple 0 = .ok (portOf payload) := by
      rw [tupleGetI32, h.tupleGetScalar_eq hi]
      rfl
    have hknown : HandshakeKnown a peer vs ↔
        networkHasPeer a.network peer.addr (portOf payload) = true := by
      constructor
      · rintro ⟨payload', hi', hhas⟩
        rw [hi, Option.some.injEq] at hi'
        cases hi'
        exact hhas
      · intro hhas
        exact ⟨payload, hi, hhas⟩
    rw [hknown]
    rw [onHandshake, hpeer, ok_bind, deref, ok_bind, hport, ok_bind] at hrun
    split_ifs at hrun with hhas
    · cases hrun
      exact iff_of_true ⟨rfl, rfl, rfl⟩ hhas
    · rw [bind_eq_ok] at hrun
      obtain ⟨version, -, hrun⟩ := hrun
      cases hrun
      refine iff_of_false (fun hsame => peerSetPort_ne hpeer hhas ?_ hsame.peers) hhas
      split_ifs <;> rfl

/-- An entry of a peer list begins with an address and a port. -/
def PeerEntry (v : Value) : Prop :=
  ∃ ws, v = .tuple ws ∧ (∃ chars nulFree, ws[0]? = some (.string chars nulFree)) ∧
    ∃ payload, ws[1]? = some (.scalar .i32 payload)

theorem connectPeer_returns_iff (h : Represents tuple vs) (state : State) (i : Nat) :
    Returns (connectPeer tuple state i) ↔ ∃ v, vs[i]? = some v ∧ PeerEntry v := by
  rw [connectPeer, returns_subTuple h]
  constructor
  · rintro ⟨sub, ws, -, hi, hsub, hrest⟩
    rw [returns_getString hsub] at hrest
    obtain ⟨chars, nulFree, haddr, hrest⟩ := hrest
    rw [returns_getI32 hsub] at hrest
    obtain ⟨payload, hport, -⟩ := hrest
    exact ⟨_, hi, ws, rfl, ⟨chars, nulFree, haddr⟩, payload, hport⟩
  · rintro ⟨v, hi, ws, rfl, ⟨chars, nulFree, haddr⟩, payload, hport⟩
    obtain ⟨sub, hget, hsub⟩ := h.tupleGetTuple_eq hi
    refine ⟨sub, ws, hget, hi, hsub, ?_⟩
    rw [returns_getString hsub]
    refine ⟨chars, nulFree, haddr, ?_⟩
    rw [returns_getI32 hsub]
    refine ⟨payload, hport, ?_⟩
    split_ifs
    · exact returns_ok _
    · exact returns_ok _

theorem connectPeer_unchanged {i : Nat} (h : connectPeer tuple a i = .ok b) : Unchanged a b := by
  simp only [connectPeer, bind_eq_ok] at h
  obtain ⟨entry, -, addr, -, port, -, h⟩ := h
  split_ifs at h
  · cases h
    exact .refl a
  · cases h
    exact ⟨rfl, rfl, rfl⟩

theorem forall_range_iff {P : Value → Prop} :
    (∀ i ∈ List.range vs.length, ∃ v, vs[i]? = some v ∧ P v) ↔ ∀ v ∈ vs, P v := by
  constructor
  · intro hall v hv
    obtain ⟨i, hlt, hi⟩ := List.getElem_of_mem hv
    obtain ⟨w, hw, hP⟩ := hall i (List.mem_range.mpr hlt)
    rw [List.getElem?_eq_getElem hlt, hi, Option.some.injEq] at hw
    exact hw ▸ hP
  · intro hall i hi
    have hlt := List.mem_range.mp hi
    exact ⟨vs[i], List.getElem?_eq_getElem hlt, hall _ (List.getElem_mem hlt)⟩

theorem onPeersResponse_behaves (h : Represents tuple vs) :
    Behaves onPeersResponse socket tuple a (∀ v ∈ vs, PeerEntry v) True where
  returns_iff := by
    rw [onPeersResponse, derefAsserted, ok_bind, h.tupleSize_eq,
      returns_foldlM _ _ (fun s i _ => connectPeer_returns_iff h s i), forall_range_iff]
  unchanged_iff := by
    intro node' hrun
    rw [onPeersResponse, derefAsserted, ok_bind] at hrun
    refine iff_of_true ?_ trivial
    exact foldlM_invariant (connectPeer tuple) (Unchanged a)
      (fun s i s' hs hstep => hs.trans (connectPeer_unchanged hstep)) _ a node' (.refl a) hrun

end Peers

section Pending

variable {a b : State} {socket : Nat} {tuple : Tuple} {vs ws : List Value}

/-- The node adds a transaction that is not pending yet. -/
def TransactionTaken (S : Sodium) (state : State) (ws : List Value) : Prop :=
  ∃ m : TransactionMessage, ws = m.values ∧ m.Verifies S ∧
    (m.transaction S).hash ∉ state.application.pool.hashes

theorem receiveTransaction_returns_iff (h : Represents tuple ws) :
    Returns (receiveTransaction S a tuple) ↔ ¬ CutShort ws := by
  rw [← transactionCreateFromTuple_returns_iff h S, receiveTransaction, returns_bind]
  constructor
  · rintro ⟨result, hresult, -⟩
    exact ⟨result, hresult⟩
  · rintro ⟨result, hresult⟩
    refine ⟨result, hresult, ?_⟩
    cases result with
    | none => exact returns_ok _
    | some txn => exact returns_ok _

theorem receiveTransaction_of_not_taken (h : Represents tuple ws)
    (hnot : ¬ TransactionTaken S a ws) (hrun : receiveTransaction S a tuple = .ok b) : b = a := by
  rw [receiveTransaction, bind_eq_ok] at hrun
  obtain ⟨result, hresult, hrun⟩ := hrun
  cases result with
  | none => exact (Except.ok.inj hrun).symm
  | some txn =>
      obtain ⟨m, rfl, hverifies, rfl⟩ := transactionCreateFromTuple_some h hresult
      have hpending : (m.transaction S).hash ∈ a.application.pool.hashes := by
        by_contra hnew
        exact hnot ⟨m, rfl, hverifies, hnew⟩
      have hfound := (poolFind_eq_size_iff a.application.pool (m.transaction S)).not.mpr
        (not_not.mpr hpending)
      cases hrun
      rw [addPending, poolAdd, dif_pos hfound]

theorem receiveTransaction_of_taken (h : Represents tuple ws) (htaken : TransactionTaken S a ws)
    (hrun : receiveTransaction S a tuple = .ok b) :
    ∃ hash, hash ∉ a.application.pool.hashes ∧ hash ∈ b.application.pool.hashes := by
  obtain ⟨m, rfl, hverifies, hnew⟩ := htaken
  rw [receiveTransaction, transactionCreateFromTuple_eq h, if_pos hverifies] at hrun
  cases hrun
  refine ⟨_, hnew, ?_⟩
  rw [addPending, mem_hashes_poolAdd]
  exact Or.inr rfl

theorem receiveTransaction_kept {hash : Hash} (hmem : hash ∈ a.application.pool.hashes)
    (hrun : receiveTransaction S a tuple = .ok b) : hash ∈ b.application.pool.hashes := by
  rw [receiveTransaction, bind_eq_ok] at hrun
  obtain ⟨result, -, hrun⟩ := hrun
  cases result with
  | none =>
      cases hrun
      exact hmem
  | some txn =>
      cases hrun
      rw [addPending, mem_hashes_poolAdd]
      exact Or.inl hmem

theorem onTransaction_behaves (h : Represents tuple vs) :
    Behaves (onTransaction S) socket tuple a (¬ CutShort vs) (¬ TransactionTaken S a vs) where
  returns_iff := receiveTransaction_returns_iff h
  unchanged_iff := by
    intro node' hrun
    constructor
    · rintro hsame htaken
      obtain ⟨hash, hnew, hmem⟩ := receiveTransaction_of_taken h htaken hrun
      rw [hsame.pool] at hmem
      exact hnew hmem
    · intro hnot
      rw [receiveTransaction_of_not_taken h hnot hrun]
      exact .refl a

theorem poolStep_eq_ok (h : Represents tuple vs) {state state' : State} {i : Nat}
    (hstep : (tupleGetTuple tuple i >>= receiveTransaction S state) = .ok state') :
    ∃ sub ws, vs[i]? = some (.tuple ws) ∧ Represents sub ws ∧
      receiveTransaction S state sub = .ok state' := by
  rw [subTuple_iff h] at hstep
  obtain ⟨sub, ws, -, hi, hsub, hstep⟩ := hstep
  exact ⟨sub, ws, hi, hsub, hstep⟩

theorem poolStep_returns_iff (h : Represents tuple vs) (state : State) (i : Nat) :
    Returns (tupleGetTuple tuple i >>= receiveTransaction S state) ↔
      ∃ v, vs[i]? = some v ∧ ∃ ws, v = .tuple ws ∧ ¬ CutShort ws := by
  rw [returns_subTuple h]
  constructor
  · rintro ⟨sub, ws, -, hi, hsub, hrun⟩
    exact ⟨_, hi, ws, rfl, (receiveTransaction_returns_iff hsub).mp hrun⟩
  · rintro ⟨v, hi, ws, rfl, hcut⟩
    obtain ⟨sub, hget, hsub⟩ := h.tupleGetTuple_eq hi
    exact ⟨sub, ws, hget, hi, hsub, (receiveTransaction_returns_iff hsub).mpr hcut⟩

theorem exists_place_iff {P : List Value → Prop} {places : List Nat}
    (hplaces : ∀ i, i ∈ places ↔ i < vs.length) :
    (∃ i ∈ places, ∃ ws, vs[i]? = some (.tuple ws) ∧ P ws) ↔
      ∃ ws, .tuple ws ∈ vs ∧ P ws := by
  constructor
  · rintro ⟨i, -, ws, hi, hP⟩
    exact ⟨ws, List.mem_of_getElem? hi, hP⟩
  · rintro ⟨ws, hmem, hP⟩
    obtain ⟨i, hi⟩ := List.getElem?_of_mem hmem
    exact ⟨i, (hplaces i).mpr (List.getElem?_eq_some_iff.mp hi).1, ws, hi, hP⟩

theorem onPoolResponse_behaves (h : Represents tuple vs) :
    Behaves (onPoolResponse S) socket tuple a
      (∀ v ∈ vs, ∃ ws, v = .tuple ws ∧ ¬ CutShort ws)
      (¬ ∃ ws, .tuple ws ∈ vs ∧ TransactionTaken S a ws) where
  returns_iff := by
    rw [onPoolResponse, derefAsserted, ok_bind, h.tupleSize_eq,
      returns_foldlM _ _ (fun s i _ => poolStep_returns_iff h s i), forall_range_iff]
  unchanged_iff := by
    intro node' hrun
    rw [onPoolResponse, derefAsserted, ok_bind, h.tupleSize_eq] at hrun
    have hmarks :=
      foldlM_marks (fun state i => tupleGetTuple tuple i >>= receiveTransaction S state)
      (fun _ => True) (fun state i => ∃ ws, vs[i]? = some (.tuple ws) ∧
        TransactionTaken S state ws)
      (fun (state : State) (hash : Hash) => hash ∈ state.application.pool.hashes) _ ?_ ?_ ?_
      trivial hrun
    · rw [← exists_place_iff (fun i => List.mem_range)]
      rcases hmarks with ⟨hnone, hsame⟩ | ⟨hsome, hash, hnew, hmem⟩
      · rw [hsame]
        refine iff_of_true (.refl a) ?_
        rintro ⟨i, hi, htaken⟩
        exact hnone i hi htaken
      · refine iff_of_false ?_ (not_not.mpr hsome)
        intro hsame
        rw [hsame.pool] at hmem
        exact hnew hmem
    · intro state i _ state' _ hnot hstep
      obtain ⟨sub, ws, hi, hsub, hstep⟩ := poolStep_eq_ok h hstep
      exact receiveTransaction_of_not_taken hsub (fun htaken => hnot ⟨ws, hi, htaken⟩) hstep
    · rintro state i - state' - ⟨ws', hi', htaken⟩ hstep
      obtain ⟨sub, ws, hi, hsub, hstep⟩ := poolStep_eq_ok h hstep
      rw [hi, Option.some.injEq, Value.tuple.injEq] at hi'
      subst hi'
      exact receiveTransaction_of_taken hsub htaken hstep
    · intro state i state' hash hmem hstep
      obtain ⟨sub, ws, -, -, hstep⟩ := poolStep_eq_ok h hstep
      exact receiveTransaction_kept hmem hstep

end Pending

section Blocks

variable {a b : State} {socket : Nat} {tuple : Tuple} {vs ws : List Value}

theorem onBlock_behaves (h : Represents tuple vs)
    (run : Representation.NodeRun S a.application.blockchain) :
    Behaves (onBlock S) socket tuple a (BlockFine S a vs) (¬ Taken S a vs) where
  returns_iff := receiveBlock_returns_iff h run
  unchanged_iff := by
    intro node' hrun
    constructor
    · intro hsame htaken
      obtain ⟨block, hnew, hstored⟩ := receiveBlock_of_taken h run htaken hrun
      rw [hsame.blockchain] at hstored
      exact hnew hstored
    · intro hnot
      rw [receiveBlock_of_not_taken h hnot hrun]
      exact .refl a

/-- Each block of an answer is fine in the state that it finds. -/
def BlocksFine (S : Sodium) : List Value → State → Prop
  | [], _ => True
  | v :: vs, state => ∃ ws, v = .tuple ws ∧ BlockFine S state ws ∧
      ∀ tuple state', Represents tuple ws → receiveBlock S state tuple = .ok state' →
        BlocksFine S vs state'

theorem blockStep_eq_ok (h : Represents tuple vs) {state state' : State} {i : Nat}
    (hstep : (tupleGetTuple tuple i >>= receiveBlock S state) = .ok state') :
    ∃ sub ws, tupleGetTuple tuple i = .ok sub ∧ vs[i]? = some (.tuple ws) ∧
      Represents sub ws ∧
      receiveBlock S state sub = .ok state' :=
  (subTuple_iff h _ _).mp hstep

theorem nodeRun_of_running {state : State}
    (h : ∃ events, Run S state.application.publicKey state.application.secretKey events
      (storeOf state)) : Representation.NodeRun S state.application.blockchain := by
  obtain ⟨events, run⟩ := h
  exact run.nodeRun

theorem blocks_returns_iff (h : Represents tuple vs) {places : List Nat} {values : List Value}
    (hplaces : List.Forall₂ (fun i v => vs[i]? = some v) places values) {state : State}
    (running : ∃ events, Run S state.application.publicKey state.application.secretKey events
      (storeOf state)) :
    Returns
      (places.foldlM (fun state i => tupleGetTuple tuple i >>= receiveBlock S state) state) ↔
      BlocksFine S values state := by
  induction hplaces generalizing state with
  | nil => exact iff_of_true (returns_ok state) trivial
  | @cons i v places values hi hplaces ih =>
      rw [List.foldlM_cons, returns_bind, BlocksFine]
      have hrun := nodeRun_of_running running
      constructor
      · rintro ⟨next, hstep, hrest⟩
        obtain ⟨sub, ws, hget, hi', hsub, hnext⟩ := blockStep_eq_ok h hstep
        obtain rfl := Option.some.inj (hi.symm.trans hi')
        refine ⟨ws, rfl, (receiveBlock_returns_iff hsub hrun).mp ⟨next, hnext⟩, ?_⟩
        intro other state' hother hreceived
        obtain rfl := receiveBlock_unique hsub hother hnext hreceived
        exact (ih ((receiveBlock_continues hnext).running running)).mp hrest
      · rintro ⟨ws, rfl, hfine, hrest⟩
        obtain ⟨sub, hget, hsub⟩ := h.tupleGetTuple_eq hi
        obtain ⟨next, hnext⟩ := (receiveBlock_returns_iff hsub hrun).mpr hfine
        refine ⟨next, by rw [hget, ok_bind, hnext], ?_⟩
        exact (ih ((receiveBlock_continues hnext).running running)).mpr
          (hrest sub next hsub hnext)

theorem forall₂_places (vs : List Value) :
    List.Forall₂ (fun i v => vs[i]? = some v) (List.range vs.length).reverse vs.reverse := by
  rw [List.forall₂_reverse_iff, List.forall₂_iff_get]
  refine ⟨List.length_range, ?_⟩
  intro i hi hlt
  simp

theorem onBlocksResponse_behaves (h : Represents tuple vs)
    (running : ∃ events, Run S a.application.publicKey a.application.secretKey events
      (storeOf a)) :
    Behaves (onBlocksResponse S) socket tuple a (BlocksFine S vs.reverse a)
      (¬ ∃ ws, .tuple ws ∈ vs ∧ Taken S a ws) where
  returns_iff := by
    rw [onBlocksResponse, derefAsserted, ok_bind, h.tupleSize_eq]
    exact blocks_returns_iff h (forall₂_places vs) running
  unchanged_iff := by
    intro node' hrun
    rw [onBlocksResponse, derefAsserted, ok_bind, h.tupleSize_eq] at hrun
    have hmarks := foldlM_marks (fun state i => tupleGetTuple tuple i >>= receiveBlock S state)
      (fun state => Representation.NodeRun S state.application.blockchain)
      (fun state i => ∃ ws, vs[i]? = some (.tuple ws) ∧ Taken S state ws)
      (fun (state : State) block => Representation.Stored state.application.blockchain block) _
      ?_ ?_ ?_ (nodeRun_of_running running) hrun
    · have hplaces : ∀ i, i ∈ (List.range vs.length).reverse ↔ i < vs.length := by
        intro i
        rw [List.mem_reverse, List.mem_range]
      rw [← exists_place_iff hplaces]
      rcases hmarks with ⟨hnone, hsame⟩ | ⟨hsome, block, hnew, hstored⟩
      · rw [hsame]
        refine iff_of_true (.refl a) ?_
        rintro ⟨i, hi, htaken⟩
        exact hnone i hi htaken
      · refine iff_of_false ?_ (not_not.mpr hsome)
        intro hsame
        rw [hsame.blockchain] at hstored
        exact hnew hstored
    · intro state i _ state' _ hnot hstep
      obtain ⟨sub, ws, -, hi, hsub, hstep⟩ := blockStep_eq_ok h hstep
      exact receiveBlock_of_not_taken hsub (fun htaken => hnot ⟨ws, hi, htaken⟩) hstep
    · rintro state i - state' hstate ⟨ws', hi', htaken⟩ hstep
      obtain ⟨sub, ws, -, hi, hsub, hstep⟩ := blockStep_eq_ok h hstep
      rw [hi, Option.some.injEq, Value.tuple.injEq] at hi'
      subst hi'
      exact receiveBlock_of_taken hsub hstate htaken hstep
    · intro state i state' block hstored hstep
      obtain ⟨sub, ws, -, -, -, hstep⟩ := blockStep_eq_ok h hstep
      exact receiveBlock_stored hstep hstored

end Blocks

section Messages

variable {node : State} {socket : Nat} {peer : Peer} {tuple : Tuple} {vs : List Value}

/-- A transaction with four fields. -/
def TransactionShape (ws : List Value) : Prop :=
  ∃ m : TransactionMessage, ws = m.values ∧ m.fields.length = 4

/-- A block whose transactions have four fields each. -/
def BlockShape (ws : List Value) : Prop :=
  ∃ m : BlockMessage, ws = m.values ∧ BlockRelay.Exact m

/-- The documented shape of the messages of a type. -/
def Shaped (vs : List Value) : Nat → Prop
  | 2 => ∃ payload chars nulFree, vs = [.scalar .i32 payload, .string chars nulFree]
  | 3 => vs = []
  | 4 => ∀ v ∈ vs, ∃ chars nulFree payload,
      v = .tuple [.string chars nulFree, .scalar .i32 payload]
  | 5 => ∃ hash : Hash, vs = [ofBytes generichashBytes_lt hash]
  | 6 => ∀ v ∈ vs, ∃ ws, v = .tuple ws ∧ BlockShape ws
  | 7 => vs = []
  | 8 => ∀ v ∈ vs, ∃ ws, v = .tuple ws ∧ TransactionShape ws
  | 9 => BlockShape vs
  | 10 => TransactionShape vs
  | _ => False

/-- What the handler of a type needs of a message to come to its end. -/
def Runs (S : Sodium) (node : State) (peer : Peer) (memory : List UInt8) (vs : List Value) :
    Nat → Prop
  | 2 => HandshakeRuns node peer vs
  | 3 => Fits (peersAnswer node peer)
  | 4 => ∀ v ∈ vs, PeerEntry v
  | 5 => BranchRuns node memory vs
  | 6 => BlocksFine S vs.reverse node
  | 7 => Fits (poolAnswer node)
  | 8 => ∀ v ∈ vs, ∃ ws, v = .tuple ws ∧ ¬ CutShort ws
  | 9 => BlockFine S node vs
  | 10 => ¬ CutShort vs
  | _ => True

/-- The message has nothing that the handler of its type would take. -/
def Spares (S : Sodium) (node : State) (peer : Peer) (vs : List Value) : Nat → Prop
  | 2 => HandshakeKnown node peer vs
  | 6 => ¬ ∃ ws, .tuple ws ∈ vs ∧ Taken S node ws
  | 8 => ¬ ∃ ws, .tuple ws ∈ vs ∧ TransactionTaken S node ws
  | 9 => ¬ Taken S node vs
  | 10 => ¬ TransactionTaken S node vs
  | _ => True

theorem handlers_behaves (h : Represents tuple vs) (hstart : tuple.start = 0)
    (hpeer : peerOf node socket = .ok peer)
    (running : ∃ events, Run S node.application.publicKey node.application.secretKey events
      (storeOf node)) {type : UInt16} (htype : type.toNat < eventCount) :
    ∃ handler, handlers S type = some handler ∧ Behaves handler socket tuple node
      (Runs S node peer tuple.data vs type.toNat) (Spares S node peer vs type.toNat) := by
  rw [eventCount] at htype
  rw [handlers]
  generalize type.toNat = n at *
  interval_cases n
  · exact ⟨_, rfl, onConnect_behaves⟩
  · exact ⟨_, rfl, onDisconnect_behaves hpeer⟩
  · exact ⟨_, rfl, onHandshake_behaves h hpeer⟩
  · exact ⟨_, rfl, onPeersRequest_behaves hpeer⟩
  · exact ⟨_, rfl, onPeersResponse_behaves h⟩
  · exact ⟨_, rfl, onBlocksRequest_behaves h hstart⟩
  · exact ⟨_, rfl, onBlocksResponse_behaves h running⟩
  · exact ⟨_, rfl, onPoolRequest_behaves⟩
  · exact ⟨_, rfl, onPoolResponse_behaves h⟩
  · exact ⟨_, rfl, onBlock_behaves h (nodeRun_of_running running)⟩
  · exact ⟨_, rfl, onTransaction_behaves h⟩

/-- A message is handled to its end, and changes nothing unless it has its
documented shape. -/
def Harmless (S : Sodium) (node : State) (socket : Nat) (message : List UInt8) (len : Nat)
    (type : Nat) (msg : Option Tuple) : Prop :=
  ∃ node', handleMessage (handlers S) socket node message len = .ok node' ∧
    (¬ (∃ tuple vs, msg = some tuple ∧ Represents tuple vs ∧ Shaped vs type) →
      Unchanged node node')

theorem dispatch_null {buffer : Buffer} (hparse : tupleParse buffer = .ok none) {type : UInt16}
    {handler : Handler Globals} (htype : type.toNat < eventCount)
    (hhandler : handlers S type = some handler) :
    ¬ Returns (dispatch (handlers S) socket type buffer node) := by
  rw [dispatch, if_pos htype, hhandler]
  simp only [hparse, ok_bind, tupleDestroy, returns_bind]
  rintro ⟨node', -, _, hdestroy, -⟩
  cases hdestroy

theorem dispatch_eq {buffer : Buffer} (hparse : tupleParse buffer = .ok (some tuple))
    (h : Represents tuple vs) {type : UInt16} {handler : Handler Globals}
    (htype : type.toNat < eventCount) (hhandler : handlers S type = some handler) :
    dispatch (handlers S) socket type buffer node = handler socket (some tuple) node := by
  rw [dispatch, if_pos htype, hhandler]
  simp only [hparse, ok_bind, tupleDestroy_eq h]
  cases handler socket (some tuple) node with
  | error e => rfl
  | ok node' => rfl

theorem exists_dispatch_iff (hpeer : peerOf node socket = .ok peer)
    (running : ∃ events, Run S node.application.publicKey node.application.secretKey events
      (storeOf node)) {type : UInt16} (htype : type.toNat < eventCount) {buffer : Buffer}
    {msg : Option Tuple} (hparse : tupleParse buffer = .ok msg) :
    (∃ node', dispatch (handlers S) socket type buffer node = .ok node' ∧
        (¬ (∃ tuple vs, msg = some tuple ∧ Represents tuple vs ∧ Shaped vs type.toNat) →
          Unchanged node node')) ↔
      ∃ tuple vs, msg = some tuple ∧ Represents tuple vs ∧
        Runs S node peer buffer.data vs type.toNat ∧
          (Shaped vs type.toNat ∨ Spares S node peer vs type.toNat) := by
  cases msg with
  | none =>
      have hhandler : ∃ handler, handlers S type = some handler := by
        rw [eventCount] at htype
        rw [handlers]
        generalize type.toNat = n at *
        interval_cases n <;> exact ⟨_, rfl⟩
      obtain ⟨handler, hhandler⟩ := hhandler
      refine iff_of_false ?_ ?_
      · rintro ⟨node', hrun, -⟩
        exact dispatch_null hparse htype hhandler ⟨node', hrun⟩
      · rintro ⟨tuple, vs, hnone, -⟩
        cases hnone
  | some tuple =>
      obtain ⟨vs, h, -⟩ := represents_of_tupleParse hparse
      obtain ⟨hstart, hdata⟩ := parsed_at_start hparse
      obtain ⟨handler, hhandler, hbehaves⟩ := handlers_behaves h hstart hpeer running htype
      have hvs : ∀ {P : List Value → Prop},
          (∃ tuple' vs', some tuple = some tuple' ∧ Represents tuple' vs' ∧ P vs') ↔
            P vs := by
        intro P
        constructor
        · rintro ⟨tuple', vs', ⟨⟩, h', hP⟩
          rw [h.unique h']
          exact hP
        · intro hP
          exact ⟨tuple, vs, rfl, h, hP⟩
      rw [hvs, hvs, dispatch_eq hparse h htype hhandler, ← hdata, ← hbehaves.returns_iff]
      constructor
      · rintro ⟨node', hrun, hunchanged⟩
        refine ⟨⟨node', hrun⟩, ?_⟩
        rw [← hbehaves.unchanged_iff node' hrun]
        exact or_iff_not_imp_left.mpr hunchanged
      · rintro ⟨⟨node', hrun⟩, hspares⟩
        refine ⟨node', hrun, ?_⟩
        rw [hbehaves.unchanged_iff node' hrun]
        exact or_iff_not_imp_left.mp hspares

theorem handleMessage_messageCreate (guid : Guid) (event : UInt32) (payload after : List UInt8)
    (hlength : payload.length < 2 ^ 32) :
    handleMessage (handlers S) socket node (messageCreate guid event payload ++ after)
        (messageHeaderSize + payload.length) =
      if guidIsNull guid then
        dispatch (handlers S) socket event.toUInt16 ⟨payload.length, payload ++ after⟩ node
      else if !messageHistoryHas node.network guid then
        dispatch (handlers S) socket event.toUInt16 ⟨payload.length, payload ++ after⟩ node >>=
          fun node' => broadcastMessage (messageHistoryAdd node'.network guid)
              (messageCreate guid event payload) >>= fun network =>
            .ok { node' with network := network }
      else .ok node := by
  obtain ⟨hguid, hlen, htype⟩ := fields_of_header (at_messageCreate guid event payload after)
  have hdrop : (messageCreate guid event payload ++ after).drop messageHeaderSize =
      payload ++ after := by
    rw [messageCreate_eq, List.append_assoc, List.drop_left' (header_length _ _ _)]
  have htake : (messageCreate guid event payload ++ after).take
      (messageHeaderSize + payload.length) = messageCreate guid event payload :=
    List.take_left' (messageCreate_length _ _ _)
  have hnat : (UInt32.ofNat payload.length).toNat = payload.length :=
    UInt32.toNat_ofNat_of_lt' hlength
  rw [handleMessage, hguid, ok_bind, hlen, ok_bind, htype, ok_bind, hdrop, htake, hnat]
  rfl

theorem broadcastMessage_eq (network : Network) (message : List UInt8) :
    (message.length < 2 ^ 31 ∧ ∃ network', broadcastMessage network message = .ok network' ∧
      network'.peers = network.peers) ∨
    (¬ message.length < 2 ^ 31 ∧ broadcastMessage network message = .error .nullPointer) := by
  rw [broadcastMessage, sharedBufferCreate]
  split_ifs with hshort
  · exact Or.inl ⟨hshort, _, rfl, rfl⟩
  · exact Or.inr ⟨hshort, rfl⟩

/-- A message is harmless exactly when its guid is known already or its handler runs to
its end, and a message with a guid can be passed on. -/
theorem harmless_iff_runs (reachable : Reachable S node) (hpeer : peerOf node socket = .ok peer)
    (guid : Guid) {event : UInt32} (hevent : event.toUInt16.toNat < eventCount)
    {payload after : List UInt8} (hlength : payload.length < 2 ^ 32) {msg : Option Tuple}
    (hparse : tupleParse ⟨payload.length, payload ++ after⟩ = .ok msg) :
    Harmless S node socket (messageCreate guid event payload ++ after)
        (messageHeaderSize + payload.length) event.toUInt16.toNat msg ↔
      (guid ≠ guidNull ∧ messageHistoryHas node.network guid = true) ∨
        (guid ≠ guidNull → messageHeaderSize + payload.length < 2 ^ 31) ∧
          ∃ tuple vs, msg = some tuple ∧ Represents tuple vs ∧
            Runs S node peer (payload ++ after) vs event.toUInt16.toNat ∧
              (Shaped vs event.toUInt16.toNat ∨
                Spares S node peer vs event.toUInt16.toNat) := by
  have hdispatch := exists_dispatch_iff hpeer reachable.run hevent hparse
  rw [Harmless, handleMessage_messageCreate guid event payload after hlength, ← hdispatch]
  by_cases hnull : guid = guidNull
  · rw [if_pos ((guidIsNull_iff guid).mpr hnull)]
    simp [hnull]
  rw [if_neg (by rw [guidIsNull_iff]; exact hnull)]
  by_cases hknown : messageHistoryHas node.network guid = true
  · rw [if_neg (by simp [hknown])]
    exact iff_of_true ⟨node, rfl, fun _ => .refl node⟩ (Or.inl ⟨hnull, hknown⟩)
  rw [if_pos (by simp [hknown]), or_iff_right (fun h => hknown h.2),
    ← messageCreate_length guid event]
  simp only [bind_eq_ok, Except.ok.injEq]
  constructor
  · rintro ⟨node', ⟨next, hnext, network, hbroadcast, rfl⟩, hunchanged⟩
    rcases broadcastMessage_eq (messageHistoryAdd next.network guid)
      (messageCreate guid event payload)
        with ⟨hshort, network', hsent, hpeers⟩ | ⟨-, hfails⟩
    · rw [hsent, Except.ok.injEq] at hbroadcast
      refine ⟨fun _ => hshort, next, hnext, fun hshape => ?_⟩
      have hsame := hunchanged hshape
      exact ⟨hsame.blockchain, hsame.pool, by rw [← hsame.peers, ← hbroadcast, hpeers]; rfl⟩
    · rw [hfails] at hbroadcast
      cases hbroadcast
  · rintro ⟨hshort, next, hnext, hunchanged⟩
    rcases broadcastMessage_eq (messageHistoryAdd next.network guid)
      (messageCreate guid event payload) with ⟨-, network', hsent, hpeers⟩ | ⟨hlong, -⟩
    · refine ⟨_, ⟨next, hnext, network', hsent, rfl⟩, fun hshape => ?_⟩
      have hsame := hunchanged hshape
      exact ⟨hsame.blockchain, hsame.pool, hpeers.trans hsame.peers⟩
    · exact absurd (hshort hnull) hlong

end Messages

end Whosecoin.MalformedMessages

import Whosecoin.Flooding
import Whosecoin.HonestNodes
import Whosecoin.SimultaneousDialling

/-!
Networks in which every node runs this program, under any interleaving.
-/

namespace Whosecoin.HonestNetworks

open Library.Outcomes
open Cryptography
open TupleParser
open Transactions
open Messages
open Networks
open Handlers
open NodeRuns
open HonestNodes

/-- Nodes that all run the program, and the messages on their way from each of their
sockets. -/
structure Config (ι : Type) where
  node : ι → State
  channel : ι → Nat → List (List UInt8)

variable {ι : Type} [DecidableEq ι]

namespace Config

variable (c : Config ι) (i : ι)

/-- The node is in this state now, and what it has written since is on its way. -/
def put (state : State) : Config ι where
  node := Function.update c.node i state
  channel := Function.update c.channel i fun s => c.channel i s ++
    Flooding.sentTo (state.network.written.drop (c.node i).network.written.length) s

def setChannel (s : Nat) (messages : List (List UInt8)) : Config ι :=
  { c with channel := Function.update c.channel i (Function.update (c.channel i) s messages) }

end Config

variable (S : Sodium)

/-- A node ticks, is told to send money, gets or loses a connection, or reads the next
message of a socket, with whatever stands behind it. Messages may be lost. -/
inductive Step (c : Config ι) : Config ι → Prop where
  | timer {i : ι} {state : State} (h : onTimer S (c.node i) = .ok state) : Step c (c.put i state)
  | command (i : ι) (value : UInt64) (recipient : PublicKey) :
      Step c (c.put i (handleSendCommand S (c.node i) value recipient))
  | connect {i : ι} {socket : Nat} {addr : List UInt8} {port : Int32} {state : State}
      (hnul : 0 ∉ addr) (h : onConnection (handlers S) socket addr port (c.node i) = .ok state) :
      Step c (c.put i state)
  | close {i : ι} {socket : Nat} {state : State}
      (h : onSocketClosed (handlers S) socket (c.node i) = .ok state) : Step c (c.put i state)
  | lose {i : ι} {s : Nat} {messages : List (List UInt8)}
      (h : messages.Sublist (c.channel i s)) : Step c (c.setChannel i s messages)
  | deliver {i j : ι} {s t : Nat} {message after : List UInt8} {rest : List (List UInt8)}
      {state : State} (hhead : c.channel i s = message :: rest)
      (h : handleMessage (handlers S) t (c.node j) (message ++ after) message.length =
        .ok state) :
      Step c ((c.setChannel i s rest).put j state)

/-- Every node has created its genesis block, and nobody has met anybody. -/
structure Start (KeyPair : PublicKey → SecretKey → Prop) (c : Config ι) : Prop where
  node : ∀ i, ∃ pk sk port times guids, KeyPair pk sk ∧
    createGenesis S (initialState pk sk port times guids) = .ok (c.node i)
  channel : ∀ i s, c.channel i s = []

/-- All nodes are honest, and the messages on their way are letters. -/
structure Orderly (KeyPair : PublicKey → SecretKey → Prop) (c : Config ι) : Prop where
  reachable : ∀ i, Reachable S (c.node i)
  honest : ∀ i, Honest S KeyPair (c.node i)
  posted : ∀ i s, ∀ message ∈ c.channel i s, Posted S KeyPair message

variable {S} {KeyPair : PublicKey → SecretKey → Prop} {c c' : Config ι}

section Steps

theorem node_put (c : Config ι) (i j : ι) (state : State) :
    (c.put i state).node j = if j = i then state else c.node j := by
  change Function.update c.node i state j = _
  split_ifs with heq
  · rw [heq, Function.update_self]
  · rw [Function.update_of_ne heq]

theorem channel_put {i j : ι} {state : State} {writes : List (Nat × List UInt8)} {s : Nat}
    (hwritten : state.network.written = (c.node i).network.written ++ writes) :
    (c.put i state).channel j s =
      c.channel j s ++ if j = i then Flooding.sentTo writes s else [] := by
  change Function.update c.channel i (fun s => c.channel i s ++
    Flooding.sentTo (state.network.written.drop (c.node i).network.written.length) s) j s = _
  rw [hwritten, List.drop_left]
  split_ifs with heq
  · rw [heq, Function.update_self]
  · rw [Function.update_of_ne heq, List.append_nil]

theorem channel_setChannel (c : Config ι) (i j : ι) (s t : Nat) (messages : List (List UInt8)) :
    (c.setChannel i s messages).channel j t =
      if j = i ∧ t = s then messages else c.channel j t := by
  change Function.update c.channel i (Function.update (c.channel i) s messages) j t = _
  split_ifs with heq
  · rw [heq.1, heq.2, Function.update_self, Function.update_self]
  · rcases eq_or_ne j i with rfl | hne
    · rw [Function.update_self, Function.update_of_ne (fun ht => heq ⟨rfl, ht⟩)]
    · rw [Function.update_of_ne hne]

omit [DecidableEq ι] in
theorem orderly_start (hS : S.Complete KeyPair) (h : Start S KeyPair c) :
    Orderly S KeyPair c where
  reachable := by
    intro i
    obtain ⟨pk, sk, port, times, guids, -, hgenesis⟩ := h.node i
    exact .start hgenesis
  honest := by
    intro i
    obtain ⟨pk, sk, port, times, guids, hkeys, hgenesis⟩ := h.node i
    exact honest_genesis hS hkeys hgenesis
  posted := by
    intro i s message hmessage
    rw [h.channel] at hmessage
    cases hmessage

theorem Orderly.put (h : Orderly S KeyPair c) {i : ι} {state : State}
    (hreachable : Reachable S state) (hkeeps : Keeps S KeyPair (c.node i) state) :
    Orderly S KeyPair (c.put i state) where
  reachable := by
    intro j
    rw [node_put]
    split_ifs
    · exact hreachable
    · exact h.reachable j
  honest := by
    intro j
    rw [node_put]
    split_ifs
    · exact hkeeps.honest
    · exact h.honest j
  posted := by
    obtain ⟨writes, hwritten, hall⟩ := hkeeps.writes
    intro j s message hmessage
    rw [channel_put hwritten] at hmessage
    rcases List.mem_append.mp hmessage with hold | hnew
    · exact h.posted j s message hold
    · split_ifs at hnew
      · rw [Flooding.mem_sentTo_iff] at hnew
        exact hall _ hnew
      · cases hnew

theorem Orderly.setChannel (h : Orderly S KeyPair c) {i : ι} {s : Nat}
    {messages : List (List UInt8)} (hmessages : messages ⊆ c.channel i s) :
    Orderly S KeyPair (c.setChannel i s messages) where
  reachable := h.reachable
  honest := h.honest
  posted := by
    intro j t message hmessage
    rw [channel_setChannel] at hmessage
    split_ifs at hmessage with heq
    · exact h.posted i s message (hmessages hmessage)
    · exact h.posted j t message hmessage

theorem keeps_onConnection {a b : State} (ha : Honest S KeyPair a) {socket : Nat}
    {addr : List UInt8} {port : Int32} (hnul : 0 ∉ addr)
    (h : onConnection (handlers S) socket addr port a = .ok b) :
    Keeps S KeyPair a b ∧ b.application = a.application := by
  have hpeers : ∀ peer ∈ a.network.peers ++ [⟨socket, addr, port⟩], 0 ∉ peer.addr := by
    intro peer hpeer
    rcases List.mem_append.mp hpeer with hold | hnew
    · exact ha.peers peer hold
    · rw [List.mem_singleton.mp hnew]
      exact hnul
  have hadded : Keeps S KeyPair a
      { a with network := createPeerFromTcpSocket a.network socket addr port } :=
    ⟨ha.of_eq rfl hpeers, .of_network rfl⟩
  have hconnect : onConnect socket none
      { a with network := createPeerFromTcpSocket a.network socket addr port } = .ok b := h
  have happlication := onConnect_application hconnect
  have hkeeps := hadded.honest.onConnect hconnect
  exact ⟨hadded.trans hkeeps, happlication⟩

theorem keeps_onSocketClosed {a b : State} (ha : Honest S KeyPair a) {socket : Nat}
    (h : onSocketClosed (handlers S) socket a = .ok b) :
    Keeps S KeyPair a b ∧ b.application = a.application := by
  have hhandler : handlers S 1 = some onDisconnect := rfl
  simp only [onSocketClosed, hhandler, bind_eq_ok] at h
  obtain ⟨node, hnode, h⟩ := h
  have hkeeps := ha.onDisconnect hnode
  have happlication := onDisconnect_application hnode
  cases h
  refine ⟨hkeeps.trans ⟨hkeeps.honest.of_eq rfl ?_, .of_network rfl⟩, happlication⟩
  intro peer hpeer
  exact hkeeps.honest.peers peer (List.mem_of_mem_eraseP hpeer)

theorem reachable_of_application {a b : State} (ha : Reachable S a)
    (h : b.application = a.application) : Reachable S b := by
  have hnetwork := ha.network b.network
  rw [← h] at hnetwork
  exact hnetwork

theorem orderly_step (hS : S.Complete KeyPair) (h : Orderly S KeyPair c) (hstep : Step S c c') :
    Orderly S KeyPair c' := by
  cases hstep with
  | @timer i state htimer =>
      exact h.put ((h.reachable i).timer htimer) ((h.honest i).timer hS htimer)
  | command i value recipient =>
      exact h.put ((h.reachable i).command value recipient) ((h.honest i).command value recipient)
  | @connect i socket addr port state hnul hconnect =>
      obtain ⟨hkeeps, happlication⟩ := keeps_onConnection (h.honest i) hnul hconnect
      exact h.put (reachable_of_application (h.reachable i) happlication) hkeeps
  | @close i socket state hclose =>
      obtain ⟨hkeeps, happlication⟩ := keeps_onSocketClosed (h.honest i) hclose
      exact h.put (reachable_of_application (h.reachable i) happlication) hkeeps
  | lose hsublist => exact h.setChannel hsublist.subset
  | @deliver i j s t message after rest state hhead hmessage =>
      have hposted : Posted S KeyPair message := h.posted i s message (hhead ▸ List.mem_cons_self)
      have htaken : Orderly S KeyPair (c.setChannel i s rest) :=
        h.setChannel (hhead ▸ List.subset_cons_self message rest)
      exact htaken.put ((h.reachable j).receive hmessage)
        ((h.honest j).handleMessage hS hposted hmessage)

/-- Whatever happens, and in whatever order, the network stays orderly. -/
theorem orderly_run (hS : S.Complete KeyPair) {c₀ : Config ι} (hstart : Start S KeyPair c₀)
    (hrun : Relation.ReflTransGen (Step S) c₀ c) : Orderly S KeyPair c := by
  induction hrun with
  | refl => exact orderly_start hS hstart
  | tail _ hstep ih => exact orderly_step hS ih hstep

end Steps

section Pair

/-- Two nodes that have created the same genesis block. -/
def pairOf (state : State) : Config Bool where
  node := fun _ => state
  channel := fun _ _ => []

theorem exists_pair : ∃ state, Start transparent TransparentKeyPair (pairOf state) := by
  obtain ⟨first, second, h⟩ := PendingTransactions.exists_spent
  obtain ⟨bytes, hwrite, hsize⟩ := h.sizes [first] (by simp)
  obtain ⟨network, hgenesis⟩ :=
    @createGenesis_ok transparent Chains.minerKey Chains.minerSecret 0
    (fun n => UInt64.ofNat (n + 1)) (fun _ => guidNull) _ _ h.create_first hwrite hsize
  exact ⟨_, fun _ => ⟨_, _, _, _, _, BlockRelay.minerKeys, hgenesis⟩, fun _ _ => rfl⟩

theorem exists_connection (state : State) (socket : Nat) : ∃ state',
    onConnection (handlers transparent) socket [] 0 state = .ok state' ∧
      (∃ peer, peerOf state' socket = .ok peer) ∧
      ∃ message more, state'.network.written =
        state.network.written ++ (socket, message) :: more := by
  have hconnect : Returns (onConnect socket none
      { state with network := createPeerFromTcpSocket state.network socket [] 0 }) :=
    (@MalformedMessages.onConnect_behaves _ socket ⟨[], 0, 0, []⟩).returns_iff.mpr trivial
  obtain ⟨state', hstate'⟩ := hconnect
  have hconnection : onConnection (handlers transparent) socket [] 0 state = .ok state' := hstate'
  obtain ⟨-, hpeers, -, more, hwritten, -⟩ := SimultaneousDialling.onConnection_ok hconnection
  refine ⟨state', hconnection, ?_, _, more, hwritten⟩
  have hfound : (state'.network.peers.find? fun peer => peer.socket = socket).isSome := by
    rw [List.find?_isSome, hpeers]
    exact ⟨⟨socket, [], 0⟩, List.mem_append_right _ (List.mem_singleton_self _), by simp⟩
  obtain ⟨peer, hpeer⟩ := Option.isSome_iff_exists.mp hfound
  exact ⟨peer, by rw [peerOf, hpeer]⟩

theorem exists_connected (state : State) :
    ∃ (c : Config Bool) (peer : Peer) (message : List UInt8),
    Relation.ReflTransGen (Step transparent) (pairOf state) c ∧
      peerOf (c.node true) 1 = .ok peer ∧
      message ∈ c.channel false 1 := by
  obtain ⟨state', hconnection, ⟨peer, hpeer⟩, message, more, hwritten⟩ :=
    exists_connection state 1
  let first := (pairOf state).put false state'
  have hsecond : onConnection (handlers transparent) 1 [] 0 (first.node true) = .ok state' :=
    hconnection
  have hrun : Relation.ReflTransGen (Step transparent) (pairOf state) (first.put true state') :=
    .tail (.single (.connect List.not_mem_nil hconnection)) (.connect List.not_mem_nil hsecond)
  refine ⟨first.put true state', peer, message, hrun, ?_, ?_⟩
  · rw [node_put, if_pos rfl]
    exact hpeer
  · rw [channel_put (i := true) hwritten, if_neg Bool.false_ne_true, List.append_nil,
      channel_put hwritten, if_pos rfl]
    exact List.mem_append_right _ (Flooding.mem_sentTo_iff.mpr List.mem_cons_self)

end Pair

/-- In a network of nodes that run the program every message on its way is a letter,
and the node that reads it next comes to its end exactly when it knows the letter
already or its own answer fits into messages. -/
theorem delivery_returns_iff (hS : S.Complete KeyPair) {c₀ : Config ι}
    (hstart : Start S KeyPair c₀) (hrun : Relation.ReflTransGen (Step S) c₀ c)
    {i j : ι} {s t : Nat}
    {message : List UInt8} (hmessage : message ∈ c.channel i s) {peer : Peer}
    (hpeer : peerOf (c.node j) t = .ok peer) (after : List UInt8) :
    ∃ (letter : Letter) (guid : Guid), message = letter.wire guid ∧
      ((∃ state, handleMessage (handlers S) t (c.node j) (message ++ after) message.length =
          .ok state) ↔
        (guid ≠ guidNull ∧ messageHistoryHas (c.node j).network guid = true) ∨
          AnswerFits S (c.node j) peer letter) := by
  have horderly := orderly_run hS hstart hrun
  obtain ⟨letter, guid, rfl, hlength, hblocks⟩ := horderly.posted i s message hmessage
  exact ⟨letter, guid, rfl,
    handleMessage_returns_iff hpeer (horderly.reachable j).run hlength hblocks after⟩

theorem delivery_returns_iff_pair : ∃ (c : Config Bool) (peer : Peer) (message : List UInt8),
    message ∈ c.channel false 1 ∧ ∃ (letter : Letter) (guid : Guid),
    message = letter.wire guid ∧
      ((∃ state,
        handleMessage (handlers transparent) 1 (c.node true) (message ++ []) message.length =
          .ok state) ↔
        (guid ≠ guidNull ∧ messageHistoryHas (c.node true).network guid = true) ∨
          AnswerFits transparent (c.node true) peer letter) := by
  obtain ⟨state, hstart⟩ := exists_pair
  obtain ⟨c, peer, message, hrun, hpeer, hmessage⟩ := exists_connected state
  exact ⟨c, peer, message, hmessage,
    delivery_returns_iff transparent_complete hstart hrun hmessage hpeer []⟩

/-- Pending transactions do not spread: whatever is pending at a node has been made
there or comes from a block that the node has stored. -/
theorem pending_local (hS : S.Complete KeyPair) {c₀ : Config ι} (hstart : Start S KeyPair c₀)
    (hrun : Relation.ReflTransGen (Step S) c₀ c) (i : ι) {txn : Transaction}
    (htxn : txn ∈ (c.node i).application.pool.list) :
    Own S (c.node i) txn ∨ Included (c.node i).application.blockchain txn :=
  ((orderly_run hS hstart hrun).honest i).pool txn htxn

/-- One of two nodes is told to send money. -/
theorem pending_local_command : ∃ (c : Config Bool) (txn : Transaction),
    txn ∈ (c.node false).application.pool.list ∧
      (Own transparent (c.node false) txn ∨
        Included (c.node false).application.blockchain txn) := by
  obtain ⟨state, hstart⟩ := exists_pair
  have hrun := Relation.ReflTransGen.single
    (@Step.command Bool _ transparent (pairOf state) false 100 Chains.payeeKey)
  have hpending := (Pools.mem_hashes_poolAdd state.application.pool
    (transactionCreate transparent state.application.publicKey state.application.secretKey
      Chains.payeeKey 100 0) _).mpr (Or.inr rfl)
  obtain ⟨txn, htxn, -⟩ := List.mem_map.mp hpending
  have hnode : txn ∈ (((pairOf state).put false (handleSendCommand transparent state 100
      Chains.payeeKey)).node false).application.pool.list := by
    rw [node_put, if_pos rfl]
    exact htxn
  exact ⟨_, txn, hnode, pending_local transparent_complete hstart hrun false hnode⟩

section Authors

/-- The key pairs of the nodes. -/
def Keys (c : Config ι) (pk : PublicKey) (sk : SecretKey) : Prop :=
  ∃ i, (c.node i).application.publicKey = pk ∧ (c.node i).application.secretKey = sk

theorem createGenesis_keys {pk : PublicKey} {sk : SecretKey} {port : Int32}
    {times : Nat → UInt64} {guids : Nat → Guid} {state : State}
    (h : createGenesis S (initialState pk sk port times guids) = .ok state) :
    state.application.publicKey = pk ∧ state.application.secretKey = sk := by
  simp only [createGenesis, bind_eq_ok] at h
  obtain ⟨block, hblock, h⟩ := h
  rw [if_neg (genesis_ne_nil hblock), bind_eq_ok] at h
  obtain ⟨⟨added, c⟩, hadd, h⟩ := h
  obtain ⟨bc, pool, hstored, rfl⟩ := addBlockToState_spec hadd
  have hcontinues := @broadcastBlock_continues S _ _ _ h
  exact ⟨hcontinues.publicKey, hcontinues.secretKey⟩

omit [DecidableEq ι] in
theorem start_keys {c₀ : Config ι} (hS : S.Complete KeyPair) (hstart : Start S KeyPair c₀) :
    S.Complete (Keys c₀) ∧ Start S (Keys c₀) c₀ := by
  have hkeys : ∀ pk sk, Keys c₀ pk sk → KeyPair pk sk := by
    rintro pk sk ⟨i, rfl, rfl⟩
    obtain ⟨pk, sk, port, times, guids, hkeys, hgenesis⟩ := hstart.node i
    obtain ⟨hpk, hsk⟩ := createGenesis_keys hgenesis
    rw [hpk, hsk]
    exact hkeys
  refine ⟨⟨fun pk sk m h => hS.sign_verifies pk sk m (hkeys pk sk h),
    fun pk sk m h => hS.vrf_verifies pk sk m (hkeys pk sk h)⟩, ?_, hstart.channel⟩
  intro i
  obtain ⟨pk, sk, port, times, guids, -, hgenesis⟩ := hstart.node i
  exact ⟨pk, sk, port, times, guids, ⟨i, createGenesis_keys hgenesis⟩, hgenesis⟩

/-- In a network of nodes that run the program nobody spends the money of others: whatever
is pending or stored anywhere has been made with the keys of a node. -/
theorem made_by_nodes (hS : S.Complete KeyPair) {c₀ : Config ι} (hstart : Start S KeyPair c₀)
    (hrun : Relation.ReflTransGen (Step S) c₀ c) (i : ι) :
    (∀ txn ∈ (c.node i).application.pool.list, Paid S (Keys c₀) txn) ∧
      ∀ block data prev, Representation.Stored (c.node i).application.blockchain block →
        data :: prev <:+ block → Authored S (Keys c₀) (BlockSchema.messageOf data prev) ∧
          ∀ txn ∈ data.transactions, Paid S (Keys c₀) txn := by
  obtain ⟨hcomplete, hstart'⟩ := start_keys hS hstart
  have hnode := (orderly_run hcomplete hstart' hrun).honest i
  refine ⟨fun txn htxn => hnode.paid htxn, ?_⟩
  intro block data prev hblock hsuffix
  have hdelivered := hnode.blocks block hblock data prev hsuffix
  exact ⟨hdelivered.authored, hdelivered.paid⟩

theorem exists_stored_pair : ∃ (state : State) (genesis : Accounts.Block),
    Start transparent TransparentKeyPair (pairOf state) ∧
      Representation.Stored state.application.blockchain [genesis] := by
  obtain ⟨first, second, h⟩ := PendingTransactions.exists_spent
  obtain ⟨bytes, hwrite, hsize⟩ := h.sizes [first] (by simp)
  obtain ⟨network, hgenesis⟩ :=
    @createGenesis_ok transparent Chains.minerKey Chains.minerSecret 0
    (fun n => UInt64.ofNat (n + 1)) (fun _ => guidNull) _ _ h.create_first hwrite hsize
  exact ⟨_, first,
    ⟨fun _ => ⟨_, _, _, _, _, BlockRelay.minerKeys, hgenesis⟩, fun _ _ => rfl⟩,
    List.mem_singleton_self _⟩

/-- Two nodes with the same genesis block, one of which is told to send money. -/
theorem made_by_nodes_command : ∃ (c₀ c : Config Bool) (genesis : Accounts.Block)
    (txn : Transaction), Start transparent TransparentKeyPair c₀ ∧
      Relation.ReflTransGen (Step transparent) c₀ c ∧
      txn ∈ (c.node false).application.pool.list ∧
      Representation.Stored (c.node false).application.blockchain [genesis] ∧
      Paid transparent (Keys c₀) txn ∧
      Authored transparent (Keys c₀) (BlockSchema.messageOf genesis []) := by
  obtain ⟨state, genesis, hstart, hstored⟩ := exists_stored_pair
  let told := (pairOf state).put false (handleSendCommand transparent state 100 Chains.payeeKey)
  have hrun : Relation.ReflTransGen (Step transparent) (pairOf state) told :=
    .single (.command false 100 Chains.payeeKey)
  have hnode : told.node false = handleSendCommand transparent state 100 Chains.payeeKey := by
    rw [node_put, if_pos rfl]
  have hpending := (Pools.mem_hashes_poolAdd state.application.pool
    (transactionCreate transparent state.application.publicKey state.application.secretKey
      Chains.payeeKey 100 0) _).mpr (Or.inr rfl)
  obtain ⟨txn, htxn, -⟩ := List.mem_map.mp hpending
  have htold : txn ∈ (told.node false).application.pool.list := by
    rw [hnode]
    exact htxn
  have hkept : Representation.Stored (told.node false).application.blockchain [genesis] := by
    rw [hnode]
    exact hstored
  obtain ⟨hpool, hblocks⟩ := made_by_nodes transparent_complete hstart hrun false
  exact ⟨pairOf state, told, genesis, txn, hstart, hrun, htold, hkept, hpool txn htold,
    (hblocks [genesis] genesis [] hkept (List.suffix_refl _)).1⟩

end Authors

end Whosecoin.HonestNetworks

import Whosecoin.Handshakes
import Whosecoin.Synchronisation

/-!
What a node sends to others that run the same program, and what becomes of it there.
-/

namespace Whosecoin.HonestNodes

open Library.Outcomes
open Library.ByteStrings
open Cryptography
open TupleParser
open TupleFormat
open Transactions
open TransactionSchema
open Accounts
open Blocks
open BlockSchema
open Blockchains
open Pools
open Messages
open Networks
open Handlers
open BlockDelivery
open BlockRelay
open NodeRuns
open Synchronisation
open MalformedMessages

/-- An address and a port, as one node tells them to another. -/
structure Entry where
  addr : List UInt8
  nulFree : 0 ∉ addr
  port : Int32

def Entry.values (entry : Entry) : List Value :=
  [.string entry.addr entry.nulFree,
    .scalar .i32 ⟨toBigEndian 4 entry.port.toUInt32.toNat, length_i32 entry.port⟩]

theorem versionString_nulFree : 0 ∉ versionString := by
  decide

/-- What a message of the program says. Requests for the pending transactions and
messages with transactions are never sent. -/
inductive Letter where
  | handshake (port : Int32)
  | peersRequest
  | peersResponse (entries : List Entry)
  | blocksRequest (hash : Hash)
  | blocksResponse (blocks : List BlockMessage)
  | block (message : BlockMessage)

namespace Letter

def event : Letter → UInt32
  | handshake _ => 2
  | peersRequest => 3
  | peersResponse _ => 4
  | blocksRequest _ => 5
  | blocksResponse _ => 6
  | block _ => 9

def values : Letter → List Value
  | handshake port => Handshakes.handshakeValues port versionString versionString_nulFree
  | peersRequest => []
  | peersResponse entries => entries.map fun entry => .tuple entry.values
  | blocksRequest hash => requestValues hash
  | blocksResponse blocks => answerValues blocks
  | block message => message.values

/-- The blocks that the letter carries. -/
def blocks : Letter → List BlockMessage
  | blocksResponse blocks => blocks
  | block message => [message]
  | _ => []

def payload (letter : Letter) : List UInt8 :=
  (Value.tuple letter.values).encode

/-- The letter as it is sent. -/
def wire (letter : Letter) (guid : Guid) : List UInt8 :=
  messageCreate guid letter.event letter.payload

end Letter

/-- The message of a block that names another parent. -/
def withParent (m : BlockMessage) (hash : Hash) : BlockMessage :=
  { m with header := { m.header with prevHash := hash } }

section Senders

variable (S : Sodium) (KeyPair : PublicKey → SecretKey → Prop)

/-- Somebody with a key pair has made the transaction. -/
def Paid (txn : Transaction) : Prop :=
  ∃ pk sk recipient value, KeyPair pk sk ∧ txn = transactionCreate S pk sk recipient value 0

/-- Somebody with a key pair has made the block of the message out of such transactions,
for some parent. -/
def Authored (m : BlockMessage) : Prop :=
  ∃ now pk sk prev txns data hash, KeyPair pk sk ∧
    blockCreate S now pk sk prev txns = .ok (data :: prev) ∧
      (∀ txn ∈ txns, Paid S KeyPair txn) ∧
    m = withParent (messageOf data prev) hash

/-- A block that was accepted somewhere, without elements that the program would not
write itself. -/
structure Wholesome (m : BlockMessage) : Prop where
  sound : Sound S m
  exact : Exact m
  authored : Authored S KeyPair m

/-- A message that can be sent, of blocks that every node can handle. -/
def Posted (message : List UInt8) : Prop :=
  ∃ (letter : Letter) (guid : Guid), message = letter.wire guid ∧ message.length < 2 ^ 31 ∧
    ∀ m ∈ letter.blocks, Wholesome S KeyPair m

/-- The transactions of the block are signed, and what the program writes for it is
wholesome if its size fits into the header of a message. -/
structure Delivered (data : Block) (prev : BlockPtr) : Prop where
  signed : ∀ txn ∈ data.transactions, Signed S txn
  paid : ∀ txn ∈ data.transactions, Paid S KeyPair txn
  authored : Authored S KeyPair (messageOf data prev)
  wholesome : (Value.tuple (messageOf data prev).values).encode.length < 2 ^ 32 →
    Wholesome S KeyPair (messageOf data prev)

/-- The block and its ancestors can be delivered. -/
def Deliverable (block : BlockPtr) : Prop :=
  ∀ data prev, data :: prev <:+ block → Delivered S KeyPair data prev

end Senders

/-- The transaction is one that `transaction_create` makes with the keys of the node. -/
def Own (S : Sodium) (state : State) (txn : Transaction) : Prop :=
  ∃ recipient value, txn = transactionCreate S state.application.publicKey
    state.application.secretKey recipient value 0

/-- A stored block or an ancestor of one has the transaction. -/
def Included (bc : Blockchain) (txn : Transaction) : Prop :=
  ∃ block data prev, Representation.Stored bc block ∧ data :: prev <:+ block ∧
    txn ∈ data.transactions

/-- What holds at a node that runs the program among others that run it. -/
structure Honest (S : Sodium) (KeyPair : PublicKey → SecretKey → Prop) (state : State) :
    Prop where
  keys : KeyPair state.application.publicKey state.application.secretKey
  blocks : ∀ block, Representation.Stored state.application.blockchain block →
    Deliverable S KeyPair block
  principal : state.application.blockchain.principal = [] ∨
    Representation.Stored state.application.blockchain state.application.blockchain.principal
  pool : ∀ txn ∈ state.application.pool.list,
    Own S state txn ∨ Included state.application.blockchain txn
  peers : ∀ peer ∈ state.network.peers, 0 ∉ peer.addr

/-- What the node has written from one state to the other. -/
def Writes (S : Sodium) (KeyPair : PublicKey → SecretKey → Prop) (a b : State) : Prop :=
  ∃ writes, b.network.written = a.network.written ++ writes ∧
    ∀ write ∈ writes, Posted S KeyPair write.2

variable {S : Sodium} {KeyPair : PublicKey → SecretKey → Prop} {a b c : State}

section Writing

theorem Writes.refl (a : State) : Writes S KeyPair a a :=
  ⟨[], (List.append_nil _).symm, List.forall_mem_nil _⟩

theorem Writes.trans (hab : Writes S KeyPair a b) (hbc : Writes S KeyPair b c) :
    Writes S KeyPair a c := by
  obtain ⟨writes, hb, hall⟩ := hab
  obtain ⟨more, hc, hmore⟩ := hbc
  exact ⟨writes ++ more, by rw [hc, hb, List.append_assoc],
    List.forall_mem_append.mpr ⟨hall, hmore⟩⟩

theorem Writes.of_network (h : b.network.written = a.network.written) : Writes S KeyPair a b :=
  ⟨[], by rw [h, List.append_nil], List.forall_mem_nil _⟩

theorem send_letter {letter : Letter} {socket : Nat}
    (h : send a letter.event letter.payload socket = .ok b)
    (hblocks : (letter.wire guidNull).length < 2 ^ 31 →
      ∀ m ∈ letter.blocks, Wholesome S KeyPair m) :
    Writes S KeyPair a b ∧ b.application = a.application ∧
      b.network.peers = a.network.peers := by
  simp only [send, networkSend, sendMessage, sharedBufferCreate, bind_eq_ok] at h
  obtain ⟨network, ⟨message, hmessage, hnetwork⟩, h⟩ := h
  split at hmessage
  · rename_i hshort
    cases hmessage
    cases hnetwork
    cases h
    refine ⟨⟨_, rfl, ?_⟩, rfl, rfl⟩
    intro write hwrite
    rw [List.mem_singleton.mp hwrite]
    exact ⟨letter, guidNull, rfl, hshort, hblocks hshort⟩
  · cases hmessage

theorem broadcast_posted {network network' : Network} {message : List UInt8}
    (h : broadcastMessage network message = .ok network') (hposted : Posted S KeyPair message) :
    ∃ writes, network'.written = network.written ++ writes ∧
      (∀ write ∈ writes, Posted S KeyPair write.2) ∧ network'.peers = network.peers := by
  rw [broadcastMessage_ok h]
  refine ⟨_, rfl, ?_, rfl⟩
  intro write hwrite
  obtain ⟨peer, -, rfl⟩ := List.mem_map.mp hwrite
  exact hposted

end Writing

section Store

theorem deliverable_nil : Deliverable S KeyPair [] :=
  fun _ _ h => absurd (List.suffix_nil.mp h) (List.cons_ne_nil _ _)

theorem Deliverable.cons {data : Block} {prev : BlockPtr} (h : Deliverable S KeyPair prev)
    (hdata : Delivered S KeyPair data prev) : Deliverable S KeyPair (data :: prev) := by
  intro d p hsuffix
  rcases List.suffix_cons_iff.mp hsuffix with heq | hprev
  · cases heq
    exact hdata
  · exact h d p hprev

theorem mem_onExtended {block prev : BlockPtr} {pool pool' : Pool}
    (h : onExtended block prev pool = .ok pool') {txn : Transaction} (htxn : txn ∈ pool'.list) :
    txn ∈ pool.list ∨ ∃ data earlier, data :: earlier <:+ prev ∧
      txn ∈ data.transactions := by
  induction prev generalizing pool with
  | nil =>
      rw [onExtended] at h
      split at h
      · cases h
        exact Or.inl htxn
      · cases h
  | cons data earlier ih =>
      rw [onExtended] at h
      split at h
      · cases h
        exact Or.inl htxn
      · rcases ih h with hpool | ⟨d, e, hsuffix, hmem⟩
        · rcases Provenance.mem_foldl_poolAdd hpool with hold | hnew
          · exact Or.inl hold
          · exact Or.inr ⟨data, earlier, List.suffix_refl _, hnew⟩
        · exact Or.inr ⟨d, e, hsuffix.trans (List.suffix_cons data earlier), hmem⟩

theorem Included.mono {bc bc' : Blockchain} {txn : Transaction} (h : Included bc txn)
    (hstored : ∀ block, Representation.Stored bc block → Representation.Stored bc' block) :
    Included bc' txn := by
  obtain ⟨block, data, prev, hblock, hsuffix, htxn⟩ := h
  exact ⟨block, data, prev, hstored block hblock, hsuffix, htxn⟩

theorem Honest.signed (ha : Honest S KeyPair a) (hS : S.Complete KeyPair) {txn : Transaction}
    (htxn : txn ∈ a.application.pool.list) : Signed S txn := by
  rcases ha.pool txn htxn with ⟨recipient, value, rfl⟩ |
    ⟨block, data, prev, hblock, hsuffix, hmem⟩
  · exact (Genuine.created ha.keys recipient value 0).signed hS
  · exact (ha.blocks block hblock data prev hsuffix).signed txn hmem

theorem Honest.paid (ha : Honest S KeyPair a) {txn : Transaction}
    (htxn : txn ∈ a.application.pool.list) : Paid S KeyPair txn := by
  rcases ha.pool txn htxn with ⟨recipient, value, rfl⟩ |
    ⟨block, data, prev, hblock, hsuffix, hmem⟩
  · exact ⟨_, _, recipient, value, ha.keys, rfl⟩
  · exact (ha.blocks block hblock data prev hsuffix).paid txn hmem

/-- Adding a block that can be delivered brings into the pool only transactions of
the branch that is left. -/
theorem Honest.add (ha : Honest S KeyPair a) {block : BlockPtr} {added : Bool}
    (hblock : Deliverable S KeyPair block) (h : addBlockToState a block = .ok (added, b)) :
    Honest S KeyPair b ∧ b.network = a.network := by
  obtain ⟨bc, pool, hadd, rfl⟩ := addBlockToState_spec h
  refine ⟨⟨ha.keys, ?_, ?_, ?_, ha.peers⟩, rfl⟩
  · intro other hother
    rcases (stored_addBlock_iff hadd other).mp hother with hold | ⟨-, rfl⟩
    · exact ha.blocks other hold
    · exact hblock
  · obtain ⟨r, hr, rfl, rfl⟩ := addBlock_ok hadd
    rcases extended_cases hr with ⟨-, hsame⟩ | ⟨hone, hnew⟩
    · rw [hsame]
      exact ha.principal.imp_right fun hold => (stored_addBlock_iff hadd _).mpr (Or.inl hold)
    · rcases blockchainAddBlock_cases hr with ⟨-, hrefused⟩ | ⟨data, prev, -, -, hstored⟩
      · rw [hrefused] at hone
        cases hone
      · refine Or.inr ((stored_addBlock_iff hadd _).mpr (Or.inr ⟨hstored.added, hnew⟩))
  · have hkept : ∀ other, Representation.Stored a.application.blockchain other →
        Representation.Stored bc other :=
      fun other hother => (stored_addBlock_iff hadd other).mpr (Or.inl hother)
    intro txn htxn
    have hold : txn ∈ a.application.pool.list → Own S a txn ∨ Included bc txn :=
      fun hmem => (ha.pool txn hmem).imp_right fun hincluded => hincluded.mono hkept
    obtain ⟨r, hr, rfl, rfl⟩ := addBlock_ok hadd
    rw [addBlock, hr, ok_bind, bind_eq_ok] at hadd
    obtain ⟨pool', hpool, hadd⟩ := hadd
    cases hadd
    rcases extended_cases hr with ⟨hnone, -⟩ | ⟨hone, -⟩
    · rw [hnone] at hpool
      cases hpool
      exact hold htxn
    · rw [hone, List.foldlM_cons, bind_eq_ok] at hpool
      obtain ⟨next, hnext, hpool⟩ := hpool
      cases hpool
      rcases mem_onExtended hnext htxn with hmem | ⟨data, earlier, hsuffix, hmem⟩
      · exact hold hmem
      · rcases ha.principal with hnull | hstored
        · rw [hnull] at hsuffix
          exact absurd (List.suffix_nil.mp hsuffix) (List.cons_ne_nil _ _)
        · exact Or.inr ⟨_, data, earlier, hkept _ hstored, hsuffix, hmem⟩

theorem Paid.hash_eq {txn : Transaction} (h : Paid S KeyPair txn) :
    txn.hash = S.generichash (transactionHashInput txn) := by
  obtain ⟨pk, sk, recipient, value, -, rfl⟩ := h
  rfl

theorem Authored.rewritten {m : BlockMessage} (h : Authored S KeyPair m) (prev : BlockPtr) :
    Authored S KeyPair (BlockRelay.rewritten m prev) := by
  obtain ⟨now, pk, sk, parent, txns, data, hash, hkeys, hcreate, hpaid, rfl⟩ := h
  refine ⟨now, pk, sk, parent, txns, data, blockGetHash prev, hkeys, hcreate, hpaid, ?_⟩
  have hcanonical : ∀ txn : Transaction, canonical (TransactionMessage.ofTransaction txn) =
      TransactionMessage.ofTransaction txn := fun _ => rfl
  have htxns : (data.transactions.map TransactionMessage.ofTransaction).map canonical =
      data.transactions.map TransactionMessage.ofTransaction := by
    rw [List.map_map]
    exact List.map_congr_left fun txn _ => hcanonical txn
  simp only [BlockRelay.rewritten, withParent, messageOf, headerOf, htxns, Bytes.ofList_self]

theorem Authored.paid {m : BlockMessage} (h : Authored S KeyPair m) :
    ∀ txn ∈ m.txns S, Paid S KeyPair txn := by
  obtain ⟨now, pk, sk, parent, txns, data, hash, hkeys, hcreate, hpaid, rfl⟩ := h
  obtain ⟨-, -, -, accounts, -, rfl⟩ := blockCreate_spec hcreate
  intro txn htxn
  obtain ⟨t, ht, rfl⟩ := List.mem_map.mp htxn
  obtain ⟨txn, hmem, rfl⟩ := List.mem_map.mp ht
  rw [transaction_ofTransaction (hpaid txn hmem).hash_eq]
  exact hpaid txn hmem

theorem delivered_of_accept {m : BlockMessage} {data : Block} {prev : BlockPtr} {prev' : BlockPtr}
    (hm : Wholesome S KeyPair m) (h : m.accept S prev = .ok (data :: prev')) :
    Delivered S KeyPair data prev' := by
  obtain ⟨⟨hconsistent, -⟩, hexact, hauthored⟩ := hm
  obtain ⟨rfl, sortitionHash, accounts, hchecks, -, rfl⟩ := (accept_eq_ok_iff _ S _ _ _).mp h
  have hrewritten := hauthored.rewritten prev'
  constructor
  · intro txn htxn
    obtain ⟨t, ht, rfl⟩ := List.mem_map.mp htxn
    exact ⟨rfl, hchecks.transactions t ht⟩
  · exact hauthored.paid
  · rw [messageOf_block hconsistent]
    exact hrewritten
  · intro _
    rw [messageOf_block hconsistent]
    refine ⟨⟨consistent_of_exact hconsistent hexact, prev', sortitionHash, ?_⟩,
      ?_, hrewritten⟩
    · refine ⟨(Bytes.length_eq _).le, hchecks.staking, hchecks.sortition,
        hchecks.delegate, ?_, ?_⟩
      · intro t ht
        obtain ⟨t', ht', rfl⟩ := List.mem_map.mp ht
        rw [canonical_eq_of_length (hexact t' ht')]
        exact hchecks.transactions t' ht'
      · rw [hash_rewritten prev' rfl]
        change S.signVerifyDetached
          (Bytes.ofList signBytes (Bytes.ofList signBytes _).toList) _ _ = _
        rw [Bytes.ofList_self]
        exact hchecks.signature
    · intro t ht
      obtain ⟨t', -, rfl⟩ := List.mem_map.mp ht
      rfl

theorem delivered_of_create (hS : S.Complete KeyPair) {now : UInt64} {pk : PublicKey}
    {sk : SecretKey} (hkeys : KeyPair pk sk) {prev prev' : BlockPtr} {txns : List Transaction}
    (hsigned : ∀ txn ∈ txns, Signed S txn) (hpaid : ∀ txn ∈ txns, Paid S KeyPair txn)
    {data : Block} (h : blockCreate S now pk sk prev txns = .ok (data :: prev')) :
    Delivered S KeyPair data prev' := by
  obtain ⟨hprev, -, -, accounts, -, hdata⟩ := blockCreate_spec h
  subst hprev
  have hauthored : Authored S KeyPair (messageOf data prev') :=
    ⟨now, pk, sk, prev', txns, data, blockGetHash prev', hkeys, h, hpaid, rfl⟩
  refine ⟨?_, ?_, hauthored, ?_⟩
  · rw [hdata]
    exact hsigned
  · rw [hdata]
    exact hpaid
  · intro hsize
    obtain ⟨hconsistent, haccept⟩ := accept_of_blockCreate hS hkeys hsigned h hsize
    obtain ⟨-, sortitionHash, -, hchecks, -⟩ := (accept_eq_ok_iff _ S _ _ _).mp haccept
    refine ⟨⟨hconsistent, prev', sortitionHash, hchecks⟩, ?_, hauthored⟩
    intro t ht
    obtain ⟨txn, -, rfl⟩ := List.mem_map.mp ht
    rfl

end Store

section Creation

theorem Honest.of_eq (ha : Honest S KeyPair a) (happlication : b.application = a.application)
    (hpeers : ∀ peer ∈ b.network.peers, 0 ∉ peer.addr) : Honest S KeyPair b := by
  obtain ⟨hkeys, hblocks, hprincipal, hpool, -⟩ := ha
  constructor
  · rw [happlication]
    exact hkeys
  · rw [happlication]
    exact hblocks
  · rw [happlication]
    exact hprincipal
  · simp only [Own, happlication]
    exact hpool
  · exact hpeers

/-- The node is still honest, and has written nothing but letters. -/
structure Keeps (S : Sodium) (KeyPair : PublicKey → SecretKey → Prop) (a b : State) : Prop where
  honest : Honest S KeyPair b
  writes : Writes S KeyPair a b

theorem Keeps.refl (ha : Honest S KeyPair a) : Keeps S KeyPair a a :=
  ⟨ha, .refl a⟩

theorem Keeps.trans (hab : Keeps S KeyPair a b) (hbc : Keeps S KeyPair b c) :
    Keeps S KeyPair a c :=
  ⟨hbc.honest, hab.writes.trans hbc.writes⟩

theorem Keeps.add (hab : Keeps S KeyPair a b) {block : BlockPtr} {added : Bool}
    (hblock : Deliverable S KeyPair block) (h : addBlockToState b block = .ok (added, c)) :
    Keeps S KeyPair a c := by
  obtain ⟨hc, hnetwork⟩ := hab.honest.add hblock h
  exact hab.trans ⟨hc, .of_network (by rw [hnetwork])⟩

theorem Honest.send (ha : Honest S KeyPair a) (letter : Letter) {socket : Nat}
    (h : Handlers.send a letter.event letter.payload socket = .ok b)
    (hblocks : (letter.wire guidNull).length < 2 ^ 31 →
      ∀ m ∈ letter.blocks, Wholesome S KeyPair m) :
    Keeps S KeyPair a b := by
  obtain ⟨hwrites, happlication, hpeers⟩ := send_letter h hblocks
  exact ⟨ha.of_eq happlication (hpeers ▸ ha.peers), hwrites⟩

theorem Honest.broadcast (ha : Honest S KeyPair a) {block : BlockPtr}
    (hblock : Deliverable S KeyPair block)
    (h : broadcastBlock a block = .ok b) : Keeps S KeyPair a b := by
  simp only [broadcastBlock, bind_eq_ok] at h
  obtain ⟨-, hne, buf, hwrite, network, hbroadcast, h⟩ := h
  cases h
  rcases block with _ | ⟨data, prev⟩
  · cases hwrite
  rw [blockWrite_eq, List.nil_append, Except.ok.injEq] at hwrite
  have hshort : (messageCreate (a.application.guids 0) 9 buf).length < 2 ^ 31 := by
    rw [networkBroadcast, broadcastMessage, sharedBufferCreate] at hbroadcast
    by_contra hlong
    rw [if_neg hlong] at hbroadcast
    cases hbroadcast
  have hposted : Posted S KeyPair (messageCreate (a.application.guids 0) 9 buf) := by
    refine ⟨.block (messageOf data prev), a.application.guids 0, ?_, hshort, ?_⟩
    · rw [← hwrite]
      rfl
    · rw [messageCreate_length, ← hwrite] at hshort
      exact List.forall_mem_singleton.mpr
        ((hblock data prev (List.suffix_refl _)).wholesome (by omega))
  obtain ⟨writes, hwritten, hall, hpeers⟩ := broadcast_posted hbroadcast hposted
  exact ⟨⟨ha.keys, ha.blocks, ha.principal, ha.pool, by rw [hpeers]; exact ha.peers⟩,
    writes, hwritten, hall⟩

/-- What the creation of a block does to an honest node, before the block is added. -/
theorem Honest.drained (ha : Honest S KeyPair a) (hS : S.Complete KeyPair) {prev next : BlockPtr}
    (hprev : Deliverable S KeyPair prev) (h : createNext S a prev = .ok (next, b)) :
    Keeps S KeyPair a b ∧ Deliverable S KeyPair next := by
  obtain ⟨hblock, rfl⟩ := createNext_spec h
  refine ⟨⟨⟨ha.keys, ha.blocks, ha.principal, List.forall_mem_nil _, ha.peers⟩,
    .of_network rfl⟩, ?_⟩
  rcases next with _ | ⟨data, prev'⟩
  · exact deliverable_nil
  · have hdata := delivered_of_create hS ha.keys (fun txn htxn => ha.signed hS htxn)
      (fun txn htxn => ha.paid htxn) hblock
    obtain ⟨rfl, -⟩ := blockCreate_spec hblock
    exact hprev.cons hdata

theorem Honest.fork (ha : Honest S KeyPair a) (hS : S.Complete KeyPair) {prev : BlockPtr}
    (hprev : Deliverable S KeyPair prev) (h : forkAt S a prev = .ok b) : Keeps S KeyPair a b := by
  rw [forkAt] at h
  split at h
  · rw [bind_eq_ok] at h
    obtain ⟨⟨next, c⟩, hcreate, h⟩ := h
    obtain ⟨hdrained, hnext⟩ := ha.drained hS hprev hcreate
    simp only at h
    split at h
    · cases h
      exact hdrained
    · rw [bind_eq_ok] at h
      obtain ⟨⟨added, d⟩, hadd, h⟩ := h
      have hadded := hdrained.add hnext hadd
      simp only at h
      split at h
      · exact hadded.trans (hadded.honest.broadcast hnext h)
      · cases h
        exact hadded
  · cases h
    exact .refl ha

theorem Honest.lookup (ha : Honest S KeyPair a) (hash : Hash) :
    Deliverable S KeyPair (blockchainGetBlock a.application.blockchain hash) := by
  rcases eq_or_ne (blockchainGetBlock a.application.blockchain hash) [] with hnull | hfound
  · rw [hnull]
    exact deliverable_nil
  · exact ha.blocks _ (Representation.stored_blockchainGetBlock hfound)

theorem Honest.principalDeliverable (ha : Honest S KeyPair a) :
    Deliverable S KeyPair a.application.blockchain.principal := by
  rcases ha.principal with hnull | hstored
  · rw [hnull]
    exact deliverable_nil
  · exact ha.blocks _ hstored

theorem Honest.receive (ha : Honest S KeyPair a) (hS : S.Complete KeyPair) {tuple : Tuple}
    {m : BlockMessage} (hrep : Represents tuple m.values) (hm : Wholesome S KeyPair m)
    (h : receiveBlock S a tuple = .ok b) : Keeps S KeyPair a b := by
  rw [receiveBlock, bind_eq_ok] at h
  obtain ⟨block, hblock, h⟩ := h
  split at h
  · cases h
    exact .refl ha
  · rename_i hne
    rw [blockCreateFromTuple_eq hrep hm.1.1] at hblock
    rcases block with _ | ⟨data, prev⟩
    · exact absurd rfl hne
    have hdata := delivered_of_accept hm hblock
    obtain ⟨rfl, -⟩ := (accept_eq_ok_iff _ S _ _ _).mp hblock
    have hprev := ha.lookup m.header.prevHash
    rw [bind_eq_ok] at h
    obtain ⟨⟨added, c⟩, hadd, h⟩ := h
    have hadded := (Keeps.refl ha).add (hprev.cons hdata) hadd
    simp only at h
    split at h
    · exact hadded.trans (hadded.honest.fork hS hprev h)
    · cases h
      exact hadded

theorem Honest.timer (ha : Honest S KeyPair a) (hS : S.Complete KeyPair)
    (h : onTimer S a = .ok b) : Keeps S KeyPair a b := by
  rw [onTimer] at h
  split at h
  · rw [bind_eq_ok] at h
    obtain ⟨⟨next, c⟩, hcreate, h⟩ := h
    obtain ⟨hdrained, hnext⟩ := ha.drained hS ha.principalDeliverable hcreate
    simp only at h
    split at h
    · cases h
      exact hdrained
    · rw [bind_eq_ok] at h
      obtain ⟨⟨added, d⟩, hadd, h⟩ := h
      have hadded := hdrained.add hnext hadd
      exact hadded.trans (hadded.honest.broadcast hnext h)
  · cases h
    exact .refl ha

theorem Honest.command (ha : Honest S KeyPair a) (value : UInt64) (recipient : PublicKey) :
    Keeps S KeyPair a (handleSendCommand S a value recipient) := by
  refine ⟨⟨ha.keys, ha.blocks, ha.principal, ?_, ha.peers⟩, .of_network rfl⟩
  intro txn htxn
  rcases Provenance.mem_poolAdd htxn with hold | rfl
  · exact ha.pool txn hold
  · exact Or.inl ⟨recipient, value, rfl⟩

theorem honest_genesis (hS : S.Complete KeyPair) {pk : PublicKey} {sk : SecretKey}
    (hkeys : KeyPair pk sk) {port : Int32} {times : Nat → UInt64} {guids : Nat → Guid}
    (h : createGenesis S (initialState pk sk port times guids) = .ok a) :
    Honest S KeyPair a := by
  have hstart : Honest S KeyPair { initialState pk sk port times guids with
      application := { (initialState pk sk port times guids).application with
        times := fun n => times (n + 1) } } :=
    ⟨hkeys, fun block hblock => (nomatch hblock), Or.inl rfl, List.forall_mem_nil _,
      List.forall_mem_nil _⟩
  simp only [createGenesis, bind_eq_ok] at h
  obtain ⟨block, hblock, h⟩ := h
  have hdeliverable : Deliverable S KeyPair block := by
    rcases block with _ | ⟨data, prev⟩
    · exact deliverable_nil
    · have hdata := delivered_of_create hS hkeys (List.forall_mem_nil _)
        (List.forall_mem_nil _) hblock
      obtain ⟨rfl, -⟩ := blockCreate_spec hblock
      exact deliverable_nil.cons hdata
  rw [if_neg (genesis_ne_nil hblock), bind_eq_ok] at h
  obtain ⟨⟨added, c⟩, hadd, h⟩ := h
  obtain ⟨hc, -⟩ := hstart.add hdeliverable hadd
  exact (hc.broadcast hdeliverable h).honest

end Creation

section Answers

variable {socket : Nat} {tuple : Tuple}

theorem writePeers_eq (peer : Peer) {peers : List Peer} (hpeers : ∀ p ∈ peers, 0 ∉ p.addr)
    (buf : List UInt8) : ∃ entries : List Entry, peers.foldl (writePeer peer) buf =
      buf ++ encodeAll (entries.map fun entry => .tuple entry.values) := by
  induction peers generalizing buf with
  | nil => exact ⟨[], by rw [List.foldl_nil, List.map_nil, encodeAll, List.append_nil]⟩
  | cons p peers ih =>
      rw [List.forall_mem_cons] at hpeers
      rw [List.foldl_cons]
      obtain ⟨entries, hentries⟩ := ih hpeers.2 (writePeer peer buf p)
      rw [hentries, writePeer]
      split_ifs
      · exact ⟨entries, rfl⟩
      · refine ⟨⟨p.addr, hpeers.1, p.port⟩ :: entries, ?_⟩
        rw [List.map_cons, encodeAll]
        simp only [tupleWriteStart, tupleWriteString, tupleWriteI32, tupleWriteScalar,
          tupleWriteEnd, Entry.values, Value.encode, encodeAll, List.append_assoc,
          List.cons_append, List.nil_append, List.append_nil]
      · exact ⟨entries, rfl⟩

theorem peersAnswer_eq (ha : Honest S KeyPair a) (peer : Peer) :
    ∃ entries, peersAnswer a peer = (Letter.peersResponse entries).payload := by
  obtain ⟨entries, hentries⟩ := writePeers_eq peer ha.peers (tupleWriteStart [])
  refine ⟨entries, ?_⟩
  rw [peersAnswer, hentries, tupleWriteStart, tupleWriteEnd, Letter.payload, Letter.values,
    Value.encode]
  simp

theorem Honest.onConnect (ha : Honest S KeyPair a) {msg : Option Tuple}
    (h : Handlers.onConnect socket msg a = .ok b) : Keeps S KeyPair a b := by
  simp only [Handlers.onConnect, bind_eq_ok] at h
  obtain ⟨c, hhandshake, d, hpeers, h⟩ := h
  have hc := ha.send (.handshake a.application.port)
    (by rw [Letter.payload, Letter.values, ← Handshakes.handshake_eq]; exact hhandshake)
    (fun _ => List.forall_mem_nil _)
  have hd := hc.honest.send .peersRequest hpeers (fun _ => List.forall_mem_nil _)
  rw [synchronizeBlockchain_eq] at h
  have hb := hd.honest.send (.blocksRequest (blockGetHash d.application.blockchain.principal)) h
    (fun _ => List.forall_mem_nil _)
  exact (hc.trans hd).trans hb

theorem Honest.onHandshake (ha : Honest S KeyPair a) {msg : Option Tuple}
    (h : Handlers.onHandshake socket msg a = .ok b) : Keeps S KeyPair a b := by
  have happlication := onHandshake_application h
  have haddr : ∀ (port : Int32) (network : Network), network.peers = a.network.peers →
      ∀ peer ∈ (peerSetPort network socket port).peers, 0 ∉ peer.addr := by
    intro port network hpeers peer hpeer
    rw [peerSetPort, hpeers] at hpeer
    obtain ⟨old, hold, rfl⟩ := List.mem_map.mp hpeer
    split_ifs
    · exact ha.peers old hold
    · exact ha.peers old hold
  simp only [Handlers.onHandshake, bind_eq_ok] at h
  obtain ⟨peer, -, tuple, -, port, -, h⟩ := h
  split at h
  · cases h
    exact ⟨ha.of_eq happlication ha.peers, .of_network rfl⟩
  · rw [bind_eq_ok] at h
    obtain ⟨version, -, h⟩ := h
    cases h
    refine ⟨ha.of_eq happlication (haddr port _ ?_), .of_network ?_⟩
    · split_ifs <;> rfl
    · split_ifs <;> rfl

theorem Honest.onDisconnect (ha : Honest S KeyPair a) {msg : Option Tuple}
    (h : Handlers.onDisconnect socket msg a = .ok b) : Keeps S KeyPair a b := by
  simp only [Handlers.onDisconnect, bind_eq_ok] at h
  obtain ⟨peer, -, h⟩ := h
  cases h
  exact .refl ha

theorem Honest.onPeersRequest (ha : Honest S KeyPair a) {msg : Option Tuple}
    (h : Handlers.onPeersRequest socket msg a = .ok b) : Keeps S KeyPair a b := by
  simp only [Handlers.onPeersRequest, bind_eq_ok] at h
  obtain ⟨peer, -, h⟩ := h
  obtain ⟨entries, hentries⟩ := peersAnswer_eq ha peer
  rw [peersAnswer] at hentries
  rw [hentries] at h
  exact ha.send (.peersResponse entries) h (fun _ => List.forall_mem_nil _)

theorem Honest.onPeersResponse (ha : Honest S KeyPair a) {msg : Option Tuple}
    (h : Handlers.onPeersResponse socket msg a = .ok b) : Keeps S KeyPair a b := by
  simp only [Handlers.onPeersResponse, bind_eq_ok] at h
  obtain ⟨tuple, -, h⟩ := h
  refine foldlM_invariant (connectPeer tuple) (Keeps S KeyPair a) ?_ _ a b (.refl ha) h
  intro s i s' hs hstep
  simp only [connectPeer, bind_eq_ok] at hstep
  obtain ⟨entry, -, addr, -, port, -, hstep⟩ := hstep
  split at hstep
  · cases hstep
    exact hs
  · cases hstep
    exact hs.trans ⟨hs.honest.of_eq rfl hs.honest.peers, .of_network rfl⟩

theorem Honest.onBlocksRequest (ha : Honest S KeyPair a) {hash : Hash}
    (hrep : Represents tuple (requestValues hash))
    (h : Handlers.onBlocksRequest socket (some tuple) a = .ok b) : Keeps S KeyPair a b := by
  rw [onBlocksRequest_eq hrep] at h
  refine ha.send (.blocksResponse (answerTo a hash)) h ?_
  intro hshort m hm
  obtain ⟨data, prev, hsuffix, rfl⟩ := mem_branch hm
  have hsize : _ ≤ (Value.tuple (answerValues (answerTo a hash))).encode.length :=
    encode_length_le hm
  rw [Letter.wire, messageCreate_length, Letter.payload, Letter.values] at hshort
  exact (ha.principalDeliverable data prev hsuffix).wholesome (by omega)

theorem Honest.receiveAll (ha : Honest S KeyPair a) (hS : S.Complete KeyPair)
    {subs : List Tuple} {ms : List BlockMessage}
    (hsubs : List.Forall₂ (fun sub (m : BlockMessage) => Represents sub m.values) subs ms)
    (hall : ∀ m ∈ ms, Wholesome S KeyPair m) (h : subs.foldlM (receiveBlock S) a = .ok b) :
    Keeps S KeyPair a b := by
  induction hsubs generalizing a with
  | nil =>
      cases h
      exact .refl ha
  | cons hsub _ ih =>
      rw [List.forall_mem_cons] at hall
      rw [List.foldlM_cons, bind_eq_ok] at h
      obtain ⟨next, hnext, h⟩ := h
      have hkeeps := ha.receive hS hsub hall.1 hnext
      exact hkeeps.trans (ih hkeeps.honest hall.2 h)

theorem Honest.onBlocksResponse (ha : Honest S KeyPair a) (hS : S.Complete KeyPair)
    {ms : List BlockMessage} (hrep : Represents tuple (answerValues ms))
    (hall : ∀ m ∈ ms, Wholesome S KeyPair m)
    (h : Handlers.onBlocksResponse S socket (some tuple) a = .ok b) : Keeps S KeyPair a b := by
  obtain ⟨subs, hsubs, hloop⟩ := @onBlocksResponse_eq S socket ms _ hrep a
  rw [hloop] at h
  exact ha.receiveAll hS hsubs (fun m hm => hall m (List.mem_reverse.mp hm)) h

end Answers

section Delivery

variable {socket : Nat} {tuple : Tuple} {letter : Letter} {handler : Handler Globals}

/-- What the node sends after it has read the letter fits into messages. -/
def AnswerFits (S : Sodium) (node : State) (peer : Peer) : Letter → Prop
  | .handshake _ => True
  | .peersRequest => Fits (peersAnswer node peer)
  | .peersResponse _ => True
  | .blocksRequest hash => Fits (Letter.blocksResponse (answerTo node hash)).payload
  | .blocksResponse blocks => ForksFit S blocks.reverse node
  | .block message => ForksFit S [message] node

theorem event_lt (letter : Letter) : letter.event.toUInt16.toNat < eventCount := by
  cases letter <;> simp only [Letter.event] <;> decide

theorem Honest.handle (ha : Honest S KeyPair a) (hS : S.Complete KeyPair)
    (hrep : Represents tuple letter.values)
    (hblocks : ∀ m ∈ letter.blocks, Wholesome S KeyPair m)
    (hhandler : handlers S letter.event.toUInt16 = some handler)
    (h : handler socket (some tuple) a = .ok b) : Keeps S KeyPair a b := by
  cases letter with
  | handshake port =>
      cases hhandler
      exact ha.onHandshake h
  | peersRequest =>
      cases hhandler
      exact ha.onPeersRequest h
  | peersResponse entries =>
      cases hhandler
      exact ha.onPeersResponse h
  | blocksRequest hash =>
      cases hhandler
      exact ha.onBlocksRequest hrep h
  | blocksResponse blocks =>
      cases hhandler
      exact ha.onBlocksResponse hS hrep hblocks h
  | block message =>
      cases hhandler
      exact ha.receive hS hrep (List.forall_mem_singleton.mp hblocks) h

theorem portEntry (entry : Entry) : PeerEntry (.tuple entry.values) :=
  ⟨_, rfl, ⟨entry.addr, entry.nulFree, rfl⟩, _, rfl⟩

theorem receiveAll_returns_iff {subs : List Tuple} {ms : List BlockMessage}
    (hsubs : List.Forall₂ (fun sub (m : BlockMessage) => Represents sub m.values) subs ms)
    (hall : ∀ m ∈ ms, Wholesome S KeyPair m)
    (running :
      ∃ events, Run S a.application.publicKey a.application.secretKey events (storeOf a)) :
    Returns (subs.foldlM (receiveBlock S) a) ↔ ForksFit S ms a := by
  refine ⟨fun hreturns => ?_,
    fun hfits => returns_of_forksFit hsubs (fun m hm => (hall m hm).1) running hfits⟩
  induction hsubs generalizing a with
  | nil => trivial
  | @cons sub m subs ms hsub hsubs ih =>
      rw [List.forall_mem_cons] at hall
      rw [List.foldlM_cons, returns_bind] at hreturns
      obtain ⟨next, hnext, hrest⟩ := hreturns
      have hfine := (BlockReception.receiveBlock_returns_iff hsub
        (nodeRun_of_running running)).mp ⟨next, hnext⟩
      refine ⟨fun block state' => hfine.fits m block state' rfl hall.1.1.1, ?_⟩
      intro other state' hother hreceive
      obtain rfl := BlockReception.receiveBlock_unique hsub hother hnext hreceive
      exact ih hall.2 ((receiveBlock_continues hnext).running running) hrest

/-- The node comes to the end of a letter exactly when its answer fits. -/
theorem handle_returns_iff {peer : Peer} (hpeer : peerOf a socket = .ok peer)
    (running : ∃ events, Run S a.application.publicKey a.application.secretKey events (storeOf a))
    (hrep : Represents tuple letter.values)
    (hblocks : ∀ m ∈ letter.blocks, Wholesome S KeyPair m)
    (hhandler : handlers S letter.event.toUInt16 = some handler) :
    Returns (handler socket (some tuple) a) ↔ AnswerFits S a peer letter := by
  cases letter with
  | handshake port =>
      cases hhandler
      rw [(onHandshake_behaves hrep hpeer).returns_iff]
      exact iff_of_true ⟨_, rfl, Or.inr ⟨versionString, versionString_nulFree, rfl⟩⟩ trivial
  | peersRequest =>
      cases hhandler
      exact (onPeersRequest_behaves hpeer).returns_iff
  | peersResponse entries =>
      cases hhandler
      rw [(onPeersResponse_behaves hrep).returns_iff]
      refine iff_of_true ?_ trivial
      intro v hv
      obtain ⟨entry, -, rfl⟩ := List.mem_map.mp hv
      exact portEntry entry
  | blocksRequest hash =>
      cases hhandler
      rw [onBlocksRequest_eq hrep]
      exact send_returns_iff 6 _
  | blocksResponse blocks =>
      cases hhandler
      obtain ⟨subs, hsubs, hloop⟩ := @onBlocksResponse_eq S socket blocks _ hrep a
      rw [hloop]
      exact receiveAll_returns_iff hsubs (fun m hm => hblocks m (List.mem_reverse.mp hm)) running
  | block message =>
      cases hhandler
      have hone := receiveAll_returns_iff (.cons hrep .nil) hblocks running
      rw [List.foldlM_cons] at hone
      refine Iff.trans ?_ hone
      change Returns (receiveBlock S a tuple) ↔
        Returns (receiveBlock S a tuple >>= fun b => .ok b)
      cases receiveBlock S a tuple <;> rfl

theorem handleMessage_wire (letter : Letter) (guid : Guid)
    (hlength : (letter.wire guid).length < 2 ^ 31) (after : List UInt8) :
    ∃ tuple handler, Represents tuple letter.values ∧
      handlers S letter.event.toUInt16 = some handler ∧
      handleMessage (handlers S) socket a (letter.wire guid ++ after) (letter.wire guid).length =
        if guidIsNull guid then handler socket (some tuple) a
        else if !messageHistoryHas a.network guid then
          handler socket (some tuple) a >>= fun b =>
            broadcastMessage (messageHistoryAdd b.network guid) (letter.wire guid) >>=
              fun network => .ok { b with network := network }
        else .ok a := by
  obtain ⟨tuple, hparse, hrep⟩ := @tupleParse_of_encode
    ⟨letter.payload.length, letter.payload ++ after⟩ letter.values _ rfl le_rfl
  have hhandler : ∃ handler, handlers S letter.event.toUInt16 = some handler := by
    cases letter <;> exact ⟨_, rfl⟩
  obtain ⟨handler, hhandler⟩ := hhandler
  refine ⟨tuple, handler, hrep, hhandler, ?_⟩
  rw [Letter.wire, messageCreate_length] at hlength
  rw [Letter.wire, messageCreate_length,
    handleMessage_messageCreate guid letter.event letter.payload after (by omega),
    dispatch_eq hparse hrep (event_lt letter) hhandler]

theorem Honest.handleMessage (ha : Honest S KeyPair a) (hS : S.Complete KeyPair)
    {message after : List UInt8} (hposted : Posted S KeyPair message)
    (h : Networks.handleMessage (handlers S) socket a (message ++ after) message.length = .ok b) :
    Keeps S KeyPair a b := by
  have hposted' := hposted
  obtain ⟨letter, guid, rfl, hlength, hblocks⟩ := hposted
  obtain ⟨tuple, handler, hrep, hhandler, heq⟩ :=
    @handleMessage_wire S a socket letter guid hlength
    after
  rw [heq] at h
  split_ifs at h
  · exact ha.handle hS hrep hblocks hhandler h
  · rw [bind_eq_ok] at h
    obtain ⟨c, hc, h⟩ := h
    rw [bind_eq_ok] at h
    obtain ⟨network, hnetwork, h⟩ := h
    cases h
    have hkeeps := ha.handle hS hrep hblocks hhandler hc
    obtain ⟨writes, hwritten, hall, hpeers⟩ := broadcast_posted hnetwork hposted'
    exact hkeeps.trans ⟨hkeeps.honest.of_eq rfl (by rw [hpeers]; exact hkeeps.honest.peers),
      writes, hwritten, hall⟩
  · cases h
    exact .refl ha

/-- A letter is handled to its end exactly when it is known already or the answer to
it fits. -/
theorem handleMessage_returns_iff {peer : Peer} (hpeer : peerOf a socket = .ok peer)
    (running : ∃ events, Run S a.application.publicKey a.application.secretKey events (storeOf a))
    {guid : Guid} (hlength : (letter.wire guid).length < 2 ^ 31)
    (hblocks : ∀ m ∈ letter.blocks, Wholesome S KeyPair m) (after : List UInt8) :
    Returns (Networks.handleMessage (handlers S) socket a (letter.wire guid ++ after)
        (letter.wire guid).length) ↔
      (guid ≠ guidNull ∧ messageHistoryHas a.network guid = true) ∨
        AnswerFits S a peer letter := by
  obtain ⟨tuple, handler, hrep, hhandler, heq⟩ :=
    @handleMessage_wire S a socket letter guid hlength
    after
  have hhandle := handle_returns_iff hpeer running hrep hblocks hhandler
  rw [heq]
  split_ifs with hnull hnew
  · rw [hhandle, or_iff_right (fun h => h.1 ((guidIsNull_iff guid).mp hnull))]
  · rw [← hhandle, or_iff_right (fun h => by simp [h.2] at hnew), returns_bind]
    refine exists_congr fun next => and_iff_left_of_imp fun _ => ?_
    rw [broadcastMessage, sharedBufferCreate, if_pos hlength]
    exact returns_ok _
  · rw [guidIsNull_iff] at hnull
    exact iff_of_true (returns_ok a) (Or.inl ⟨hnull, by simpa using hnew⟩)

end Delivery

end Whosecoin.HonestNodes

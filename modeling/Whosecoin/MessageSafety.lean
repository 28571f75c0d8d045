import Whosecoin.Equivocation
import Whosecoin.MalformedMessages

/-!
When a message is harmless, in terms of the message and of the state before it: without
the blocks that the handlers compute.
-/

namespace Whosecoin.MessageSafety

open Library.Outcomes
open Library.ByteStrings
open Cryptography
open TupleParser
open TupleFormat
open Transactions
open TransactionSchema
open Accounts
open Blocks
open BlockSchema
open Blockchains
open Chains
open PrincipalChain
open Pools
open Reorganisations
open Messages
open Networks
open Handlers
open MalformedTuples
open NodeRuns
open BlockReception
open MalformedMessages

variable {S : Sodium}

section Sizes

/-- The bytes of a signed transaction: two brackets, the inner tuple and the signature. -/
def transactionSize : Nat :=
  161

/-- The bytes of a block with so many transactions. -/
def blockSize (count : Nat) : Nat :=
  290 + transactionSize * count

/-- So many bytes can be sent with a header in front of them. -/
def Sendable (length : Nat) : Prop :=
  messageHeaderSize + length < 2 ^ 31

theorem sendable_mono {length length' : Nat} (hle : length ≤ length') (h : Sendable length') :
    Sendable length := by
  rw [Sendable] at h ⊢
  omega

theorem blockSize_mono {count count' : Nat} (h : count ≤ count') :
    blockSize count ≤ blockSize count' := by
  rw [blockSize, blockSize]
  exact Nat.add_le_add_left (Nat.mul_le_mul_left _ h) _

theorem length_ofBytes {n : Nat} (hn : n < 2 ^ 32) (b : Bytes n) :
    (ofBytes hn b).encode.length = 5 + n := by
  rw [ofBytes, encode_binary_length, b.length_eq]

theorem length_ofTransaction (txn : Transaction) :
    (Value.tuple (TransactionMessage.ofTransaction txn).values).encode.length =
      transactionSize := by
  simp only [TransactionMessage.values, TransactionMessage.unsigned, TransactionMessage.fields,
    TransactionMessage.ofTransaction, encode_tuple_length, encodeAll, List.length_append,
    List.length_nil, length_ofBytes, ofU64, ofU32, encode_scalar_length]
  rfl

theorem length_encodeAll_transactions (txns : List Transaction) :
    (encodeAll (txns.map fun txn =>
      .tuple (TransactionMessage.ofTransaction txn).values)).length =
      transactionSize * txns.length := by
  induction txns with
  | nil => rfl
  | cons txn txns ih =>
      rw [List.map_cons, encodeAll, List.length_append, length_ofTransaction, ih,
        List.length_cons, Nat.mul_succ, Nat.add_comm]

theorem length_blockWrite {block : Block} {prev : BlockPtr} {bytes : List UInt8}
    (hwrite : blockWrite [] (block :: prev) = .ok bytes) :
    bytes.length = blockSize block.transactions.length := by
  rw [blockWrite_eq, List.nil_append, Except.ok.injEq] at hwrite
  have hheader :
      (Value.tuple (headerOf block prev block.transactions.length).fields).encode.length
      = 217 := by
    simp only [HeaderMessage.fields, encode_tuple_length, encodeAll, List.length_append,
      List.length_nil, length_ofBytes, ofU64, ofU32, encode_scalar_length]
    rfl
  have htxns := length_encodeAll_transactions block.transactions
  have hsignature : block.signature.toList.length = 64 := block.signature.length_eq
  rw [← hwrite, BlockMessage.values, messageOf, encode_tuple_length, encodeAll, encodeAll,
    encodeAll, encodeAll, List.length_append, List.length_append, List.length_append, hheader,
    encode_binary_length, encode_tuple_length, List.map_map, hsignature]
  change 217 + (5 + 64 + ((encodeAll (block.transactions.map fun txn =>
    .tuple (TransactionMessage.ofTransaction txn).values)).length + 2 + 0)) + 2 = _
  rw [htxns, blockSize]
  omega

end Sizes

section Answers

variable {state : State}

/-- The bytes of the entry of a peer list for this peer, if it has one. -/
def entrySize (peer p : Peer) : Nat :=
  if ¬ p.port ≤ 0 ∧ (peer.addr ≠ p.addr ∨ p.port ≠ peer.port) then p.addr.length + 9
  else 0

/-- The bytes of the answer to a request for peers. -/
def peersSize (state : State) (peer : Peer) : Nat :=
  2 + (state.network.peers.map (entrySize peer)).sum

/-- The bytes of the answer to a request for the blocks above one, down from `iter`. -/
def branchSize (block : BlockPtr) : (iter : BlockPtr) → Nat
  | [] => 2
  | data :: prev =>
      if data :: prev = block then 2
      else blockSize data.transactions.length + branchSize block prev

theorem length_writePeer (peer p : Peer) (buf : List UInt8) :
    (writePeer peer buf p).length = buf.length + entrySize peer p := by
  rw [writePeer, entrySize]
  by_cases hport : p.port ≤ 0
  · rw [if_pos hport, if_neg (fun h => h.1 hport), Nat.add_zero]
  rw [if_neg hport]
  by_cases hother : peer.addr ≠ p.addr ∨ p.port ≠ peer.port
  · rw [if_pos hother, if_pos ⟨hport, hother⟩]
    simp only [tupleWriteStart, tupleWriteString, tupleWriteI32, tupleWriteScalar, tupleWriteEnd,
      List.length_append, List.length_cons, List.length_nil, toBigEndian_length]
    omega
  · rw [if_neg hother, if_neg (fun h => hother h.2), Nat.add_zero]

theorem length_peersAnswer (state : State) (peer : Peer) :
    (peersAnswer state peer).length = peersSize state peer := by
  have hloop : ∀ (peers : List Peer) (buf : List UInt8),
      (peers.foldl (writePeer peer) buf).length =
        buf.length + (peers.map (entrySize peer)).sum := by
    intro peers
    induction peers with
    | nil => exact fun buf => rfl
    | cons p peers ih =>
        intro buf
        rw [List.foldl_cons, ih, length_writePeer, List.map_cons, List.sum_cons, Nat.add_assoc]
  rw [peersAnswer, tupleWriteEnd, List.length_append, hloop, tupleWriteStart, peersSize]
  simp only [List.length_append, List.length_cons, List.length_nil]
  omega

theorem length_poolAnswer (state : State) :
    (poolAnswer state).length = 2 + transactionSize * poolSize state.application.pool := by
  rw [poolAnswer, tupleWriteEnd, List.length_append, foldl_transactionWrite, List.length_append,
    length_encodeAll_transactions, tupleWriteStart, poolSize]
  simp only [List.length_append, List.length_cons, List.length_nil]
  omega

theorem length_writeBranch {block iter : BlockPtr} {buf bytes : List UInt8}
    (h : writeBranch block iter buf = .ok bytes) :
    bytes.length + 2 = buf.length + branchSize block iter := by
  induction iter generalizing buf with
  | nil =>
      cases h
      rfl
  | cons data prev ih =>
      rw [writeBranch] at h
      rw [branchSize]
      split_ifs at h ⊢
      · cases h
        rfl
      · rw [bind_eq_ok] at h
        obtain ⟨buf', hwrite, hrest⟩ := h
        have hblock := @length_blockWrite data prev _ (blockWrite_eq [] data prev)
        rw [blockWrite_eq, Except.ok.injEq] at hwrite
        rw [List.nil_append] at hblock
        rw [ih hrest, ← hwrite, List.length_append, hblock]
        omega

theorem branchFits_iff (hash : Hash) :
    BranchFits state hash ↔
      Sendable (branchSize (blockchainGetBlock state.application.blockchain hash)
        state.application.blockchain.principal) := by
  obtain ⟨bytes, hbytes⟩ := writeBranch_returns
    (blockchainGetBlock state.application.blockchain hash) state.application.blockchain.principal
    (tupleWriteStart [])
  have hlength := length_writeBranch hbytes
  rw [tupleWriteStart, List.nil_append, List.length_singleton] at hlength
  have hsize : (tupleWriteEnd bytes).length =
      branchSize (blockchainGetBlock state.application.blockchain hash)
        state.application.blockchain.principal := by
    rw [tupleWriteEnd, List.length_append, List.length_singleton]
    omega
  rw [Sendable, ← hsize]
  constructor
  · exact fun h => h bytes hbytes
  · intro h bytes' hbytes'
    rw [← Except.ok.inj (hbytes.symm.trans hbytes')]
    exact h

end Answers

section Forks

variable {a b : State} {m : BlockMessage} {data : Block} {prev : BlockPtr}

/-- The block of the message wins the fork against the principal one. -/
def Wins (S : Sodium) (state : State) (m : BlockMessage) : Prop :=
  ∃ sortitionHash, S.vrfVerify m.header.publicKey m.header.sortitionProof
      (blockComputeSeed S (parentIn state m)).toList = some sortitionHash ∧
    Leads state.application.blockchain (parentIn state m)
      (delegateHash S sortitionHash m.header.delegate)

/-- The hashes that are pending once the block of the message has been added: a change of
the principal block adds those of the branch that it leaves. -/
def pendingAfter (S : Sodium) (state : State) (m : BlockMessage) : Set Hash :=
  {hash | hash ∈ state.application.pool.hashes ∨
    Wins S state m ∧
      Abandoned state.application.blockchain.principal (parentIn state m) hash}

/-- The block of the message is new, and the node then creates one on the same parent. -/
structure Forks (S : Sodium) (state : State) (m : BlockMessage) : Prop where
  passes : HeaderPasses S m (parentIn state m)
  fresh : state.application.blockchain.blocks.get (m.hash S (parentIn state m)) = none
  parent : parentIn state m ≠ []
  other : m.header.publicKey ≠ state.application.publicKey
  childless : blockGetChildWithPublicKey state.application.blockchain (parentIn state m)
    state.application.publicKey = []
  staking : isStakingAllowed (parentIn state m) state.application.publicKey = true

theorem abandoned_cons_right {P : BlockPtr} (hnot : ¬ data :: prev <:+ P) (hash : Hash) :
    Abandoned P (data :: prev) hash ↔ Abandoned P prev hash := by
  constructor
  · rintro ⟨d, p, hP, hQ, htxn⟩
    exact ⟨d, p, hP, fun hprev => hQ (hprev.trans (List.suffix_cons data prev)), htxn⟩
  · rintro ⟨d, p, hP, hQ, htxn⟩
    refine ⟨d, p, hP, ?_, htxn⟩
    intro hcons
    rcases List.suffix_cons_iff.mp hcons with heq | hprev
    · exact hnot (heq ▸ hP)
    · exact hQ hprev

theorem length_pool (pool : Pool) : pool.list.length = {hash | hash ∈ pool.hashes}.ncard := by
  have hset : {hash | hash ∈ pool.hashes} = (pool.hashes.toFinset : Set Hash) := by
    ext hash
    simp
  rw [hset, Set.ncard_coe_finset, Pool.hashes, List.toFinset_card_of_nodup pool.nodup,
    List.length_map]

theorem parentIn_stored (state : State) (m : BlockMessage) :
    parentIn state m = [] ∨
      Representation.Stored state.application.blockchain (parentIn state m) := by
  rcases eq_or_ne (parentIn state m) [] with hnull | hfound
  · exact .inl hnull
  · exact .inr (Representation.stored_blockchainGetBlock hfound)

/-- What the addition of an accepted block does, in terms of the state before it. -/
structure AddedTo (S : Sodium) (a b : State) (m : BlockMessage) (data : Block) : Prop where
  nodeRun : Representation.NodeRun S b.application.blockchain
  stored_iff : ∀ block, Representation.Stored b.application.blockchain block ↔
    Representation.Stored a.application.blockchain block ∨ block = data :: parentIn a m
  publicKey : data.publicKey = m.header.publicKey
  fresh : a.application.blockchain.blocks.get (m.hash S (parentIn a m)) = none
  pool : {hash | hash ∈ b.application.pool.hashes} = pendingAfter S a m
  keys : b.application.publicKey = a.application.publicKey ∧
    b.application.secretKey = a.application.secretKey

theorem addedTo (run : Representation.NodeRun S a.application.blockchain)
    (hconsistent : m.Consistent S)
    (haccept : m.accept S (parentIn a m) = .ok (data :: prev))
    (hadd : addBlockToState a (data :: prev) = .ok (true, b)) :
    prev = parentIn a m ∧ HeaderPasses S m (parentIn a m) ∧ AddedTo S a b m data := by
  have hfresh := (added_iff hadd).mp rfl
  obtain ⟨tuple, -, hrep⟩ := exists_parsed m []
  have hblock := (blockCreateFromTuple_eq hrep hconsistent
    (blockchainGetBlock a.application.blockchain)).trans haccept
  obtain ⟨rfl, sortitionHash, accounts, hchecks, -, rfl⟩ :=
    (accept_eq_ok_iff _ _ _ _ _).mp haccept
  obtain ⟨stored, built⟩ := run.builtRun
  obtain ⟨bc, pool, hstored, rfl⟩ := addBlockToState_spec hadd
  obtain ⟨r, hr, hadded, rfl⟩ := addBlock_ok hstored
  obtain ⟨pool', hpool, hmem⟩ := addBlock_spec hr a.application.pool
  rw [hstored, hadded] at hpool
  obtain rfl : pool = pool' := by
    cases hpool
    rfl
  refine ⟨rfl, ⟨hchecks.staking, by rw [hchecks.sortition]; rfl, hchecks.delegate,
    hchecks.signature⟩, ?_⟩
  constructor
  · exact run.accept hblock (List.cons_ne_nil _ _) hr
  · intro block
    have hiff := stored_addBlock_iff hstored block
    rwa [and_iff_right rfl] at hiff
  · rfl
  · exact hfresh
  · have haddable : BlockTree.Addable stored (m.block S (parentIn a m) sortitionHash accounts ::
        parentIn a m) :=
      ⟨List.cons_ne_nil _ _,
        (parentIn_stored a m).imp_right (Representation.stored_iff built.tree _).mp⟩
    ext hash
    change hash ∈ pool.hashes ↔ hash ∈ a.application.pool.hashes ∨ _
    rw [hmem]
    apply or_congr_right
    have hwins : Wins S a m ↔ Leads a.application.blockchain (parentIn a m)
        (delegateHash S sortitionHash m.header.delegate) := by
      rw [Wins, hchecks.sortition]
      simp
    rw [hwins]
    rcases overtakes_cases built.tree haddable hr with ⟨hnot, -, hsame⟩ | ⟨hover, -, hnew⟩
    · rw [hsame]
      refine iff_of_false (not_abandoned_of_suffix (List.suffix_refl _) hash) ?_
      rintro ⟨hleads, -⟩
      exact hnot ⟨hfresh, hleads⟩
    · have hleads : Leads a.application.blockchain (parentIn a m)
          (delegateHash S sortitionHash m.header.delegate) := hover.2
      rw [hnew, abandoned_cons_right ?_, and_iff_right hleads]
      exact built.tree.not_suffix_of_new ((built.tree.get_eq_none_iff _).mp hfresh)
  · exact ⟨rfl, rfl⟩

/-- The node creates a block on the parent after it has added the one of the message. -/
theorem forks_iff (run : Representation.NodeRun S a.application.blockchain)
    (hadded : AddedTo S a b m data) (hpasses : HeaderPasses S m (parentIn a m)) :
    Forks S a m ↔ parentIn a m ≠ [] ∧
      blockGetChildWithPublicKey b.application.blockchain (parentIn a m)
        b.application.publicKey = [] ∧
      isStakingAllowed (parentIn a m) b.application.publicKey = true := by
  rw [hadded.keys.1]
  constructor
  · intro h
    have hparent := (parentIn_stored a m).resolve_left h.parent
    have hparent' := (hadded.stored_iff _).mpr (.inl hparent)
    refine ⟨h.parent, ?_, h.staking⟩
    have hchildless := (Equivocation.childless_iff run hparent).mp h.childless
    rw [Equivocation.childless_iff hadded.nodeRun hparent']
    intro child hchild htail
    rcases (hadded.stored_iff child).mp hchild with hold | rfl
    · exact hchildless child hold htail
    · exact fun hown => h.other (hadded.publicKey.symm.trans hown)
  · rintro ⟨hne, hchildless, hstaking⟩
    have hparent := (parentIn_stored a m).resolve_left hne
    have hparent' := (hadded.stored_iff _).mpr (.inl hparent)
    rw [Equivocation.childless_iff hadded.nodeRun hparent'] at hchildless
    refine ⟨hpasses, hadded.fresh, hne, ?_, ?_, hstaking⟩
    · intro hsame
      exact hchildless _ ((hadded.stored_iff _).mpr (.inr rfl)) rfl
        (hadded.publicKey.trans hsame)
    · rw [Equivocation.childless_iff run hparent]
      intro child hchild htail
      exact hchildless child ((hadded.stored_iff _).mpr (.inl hchild)) htail

theorem length_created {next : BlockPtr} {bytes : List UInt8} {state : State}
    (hcreate : blockCreate S (state.application.times 0) state.application.publicKey
      state.application.secretKey prev state.application.pool.list = .ok next) (hne : next ≠ [])
    (hwrite : blockWrite [] next = .ok bytes) :
    bytes.length = blockSize {hash | hash ∈ state.application.pool.hashes}.ncard := by
  obtain ⟨data', rfl⟩ := eq_cons_of_blockCreate hcreate hne
  obtain ⟨-, -, -, accounts, -, hdata⟩ := BlockDelivery.blockCreate_spec hcreate
  rw [length_blockWrite hwrite, hdata, ← length_pool]
  rfl

/-- The block that the node creates on the parent holds what is pending then. -/
theorem forkFits_of_room (run : Representation.NodeRun S a.application.blockchain)
    (hadded : AddedTo S a b m data) (hpasses : HeaderPasses S m (parentIn a m))
    (hroom : Forks S a m → Sendable (blockSize (pendingAfter S a m).ncard)) :
    ForkFits S b (parentIn a m) := by
  intro hne hchildless next bytes hcreate hnext _ hwrite
  have hstaking : isStakingAllowed (parentIn a m) b.application.publicKey = true := by
    obtain ⟨data', rfl⟩ := eq_cons_of_blockCreate hcreate hnext
    exact (BlockDelivery.blockCreate_spec hcreate).2.1
  rw [length_created hcreate hnext hwrite, hadded.pool]
  exact hroom ((forks_iff run hadded hpasses).mpr ⟨hne, hchildless, hstaking⟩)

/-- The headers that are hashed for the stored blocks and for the one that the node
creates do not collide, and none hashes to zero. -/
def HeadersApart (S : Sodium) (state : State) (prev : BlockPtr) : Prop :=
  ∀ next, blockCreate S (state.application.times 0) state.application.publicKey
      state.application.secretKey prev state.application.pool.list = .ok next →
    S.CollisionFree (Equivocation.headers state.application.blockchain next) ∧
      ∀ string ∈ Equivocation.headers state.application.blockchain next,
        S.generichash string ≠ Bytes.zero generichashBytes

theorem room_of_forkFits (run : Representation.NodeRun S a.application.blockchain)
    (hadded : AddedTo S a b m data) (hpasses : HeaderPasses S m (parentIn a m))
    (hapart : HeadersApart S b (parentIn a m)) (hfits : ForkFits S b (parentIn a m))
    (hforks : Forks S a m) : Sendable (blockSize (pendingAfter S a m).ncard) := by
  obtain ⟨hne, hchildless, hstaking⟩ := (forks_iff run hadded hpasses).mp hforks
  have hparent := (hadded.stored_iff _).mpr
    (.inl ((parentIn_stored a m).resolve_left hne))
  obtain ⟨accounts, hcreate⟩ := @PendingTransactions.blockCreate_of_staking S
    b.application.publicKey b.application.secretKey (b.application.times 0) _
    b.application.pool.list hstaking
  obtain ⟨hfree, hzero⟩ := hapart _ hcreate
  obtain ⟨r, hr, hnew⟩ := Equivocation.create_added hadded.nodeRun hparent hchildless hcreate
    (List.cons_ne_nil _ _) hfree hzero
  have hwrite := blockWrite_eq [] (BlockDelivery.signedBlock S (b.application.times 0)
    b.application.publicKey b.application.secretKey (parentIn a m) b.application.pool.list
    accounts) (parentIn a m)
  have hlength := length_created hcreate (List.cons_ne_nil _ _) hwrite
  rw [hadded.pool] at hlength
  rw [Sendable, ← hlength]
  refine hfits hne hchildless _ _ hcreate (List.cons_ne_nil _ _) ?_ hwrite
  rcases blockchainAddBlock_cases hr with ⟨-, rfl⟩ | ⟨_, _, heq, hget, -⟩
  · cases hnew
  · cases heq
    exact hget

end Forks

section Single

variable {a : State} {ws : List Value}

/-- What a received block must be for the node to go through with it, in terms of the
message and of the state that it meets. -/
structure BlockSafe (S : Sodium) (state : State) (ws : List Value) : Prop where
  whole : ¬ BlockCutShort ws
  short : ∀ m : BlockMessage, ws = m.values → m.Consistent S →
    m.signature.length ≤ signBytes
  verified : ∀ m : BlockMessage, ws = m.values → m.Consistent S →
    HeaderPasses S m (parentIn state m) → ∀ t ∈ m.transactions, t.Verifies S
  room : ∀ m : BlockMessage, ws = m.values → m.Consistent S → Forks S state m →
    Sendable (blockSize (pendingAfter S state m).ncard)

/-- After the block has been added, the headers do not collide. -/
def BlockApart (S : Sodium) (state : State) (ws : List Value) : Prop :=
  ∀ (m : BlockMessage) (block : BlockPtr) (state' : State), ws = m.values →
    m.accept S (parentIn state m) = .ok block →
      addBlockToState state block = .ok (true, state') →
      HeadersApart S state' (parentIn state m)

theorem blockFine_of_safe (run : Representation.NodeRun S a.application.blockchain)
    (h : BlockSafe S a ws) : BlockFine S a ws where
  whole := h.whole
  short := h.short
  verified := h.verified
  fits := by
    intro m block state' hm hconsistent haccept hne hadd
    rcases block with _ | ⟨data, prev⟩
    · exact absurd rfl hne
    obtain ⟨rfl, hpasses, hadded⟩ := addedTo run hconsistent haccept hadd
    exact forkFits_of_room run hadded hpasses (h.room m hm hconsistent)

theorem blockSafe_of_fine (run : Representation.NodeRun S a.application.blockchain)
    (hapart : BlockApart S a ws) (h : BlockFine S a ws) : BlockSafe S a ws where
  whole := h.whole
  short := h.short
  verified := h.verified
  room := by
    intro m hm hconsistent hforks
    obtain ⟨sortitionHash, accounts, haccept⟩ := accept_of_passes (h.short m hm hconsistent)
      hforks.passes (h.verified m hm hconsistent hforks.passes)
    have hne := List.cons_ne_nil (m.block S (parentIn a m) sortitionHash accounts) (parentIn a m)
    obtain ⟨⟨added, b⟩, hadd⟩ := addBlockToState_returns run hne (parentIn_stored a m)
    obtain rfl := (added_iff hadd).mpr hforks.fresh
    obtain ⟨-, hpasses, hadded⟩ := addedTo run hconsistent haccept hadd
    exact room_of_forkFits run hadded hpasses (hapart m _ b hm haccept hadd)
      (h.fits m _ b hm hconsistent haccept hne hadd) hforks

end Single

section Lists

variable {a b : State} {known : List Hash} {data : Block} {prev : BlockPtr}

/-- What an element of an answer must be for the node to go through with it, whatever the
blocks before it have led to. -/
structure ElementSafe (S : Sodium) (ws : List Value) : Prop where
  whole : ¬ BlockCutShort ws
  short : ∀ m : BlockMessage, ws = m.values → m.Consistent S →
    m.signature.length ≤ signBytes
  verified : ∀ (m : BlockMessage) (prev : BlockPtr), ws = m.values → m.Consistent S →
    prev = [] ∨ blockGetHash prev = m.header.prevHash → HeaderPasses S m prev →
      ∀ t ∈ m.transactions, t.Verifies S

/-- The transactions that the node has, pending or in a block, are among these. -/
structure Within (known : List Hash) (state : State) : Prop where
  pool : ∀ hash ∈ state.application.pool.hashes, hash ∈ known
  stored : ∀ data prev, Representation.Stored state.application.blockchain (data :: prev) →
    ∀ txn ∈ data.transactions, txn.hash ∈ known

/-- All that the node has and receives would fit into one block. -/
def Roomy (S : Sodium) (state : State) (vs : List Value) : Prop :=
  ∃ known : List Hash, Within known state ∧
    (∀ m : BlockMessage, .tuple m.values ∈ vs → ∀ t ∈ m.transactions,
      (t.transaction S).hash ∈ known) ∧
    Sendable (blockSize known.length)

/-- The condition for a list of several blocks. -/
structure ListSafe (S : Sodium) (state : State) (vs : List Value) : Prop where
  element : ∀ v ∈ vs, ∃ ws, v = .tuple ws ∧ ElementSafe S ws
  roomy : Roomy S state vs

theorem Within.length_pool_le (h : Within known a) :
    a.application.pool.list.length ≤ known.length := by
  have hsub := (List.subperm_of_subset a.application.pool.nodup h.pool).length_le
  rwa [List.length_map] at hsub

theorem Within.addBlockToState (h : Within known a)
    (run : Representation.NodeRun S a.application.blockchain) {added : Bool}
    (htxns : ∀ txn ∈ data.transactions, txn.hash ∈ known)
    (hadd : addBlockToState a (data :: prev) = .ok (added, b)) : Within known b := by
  obtain ⟨bc, pool, hstored, rfl⟩ := addBlockToState_spec hadd
  have hblocks := stored_addBlock_iff hstored
  obtain ⟨r, hr, rfl, rfl⟩ := addBlock_ok hstored
  obtain ⟨pool', hpool, hmem⟩ := addBlock_spec hr a.application.pool
  rw [hstored] at hpool
  cases hpool
  constructor
  · intro hash hhash
    rcases (hmem hash).mp hhash with hold | ⟨d, p, hsuffix, -, txn, htxn, rfl⟩
    · exact h.pool hash hold
    · obtain ⟨stored, built⟩ := run.builtRun
      have hd := built.tree.mem_of_suffix hsuffix
      exact h.stored d p ((Representation.stored_iff built.tree _).mpr hd) txn htxn
  · intro d p hd txn htxn
    rcases (hblocks _).mp hd with hold | ⟨-, heq⟩
    · exact h.stored d p hold txn htxn
    · cases heq
      exact htxns txn htxn

theorem Within.forkFits (h : Within known a) (hsize : Sendable (blockSize known.length))
    (prev : BlockPtr) : ForkFits S a prev := by
  intro _ _ next bytes hcreate hne _ hwrite
  rw [length_created hcreate hne hwrite, ← length_pool]
  exact sendable_mono (blockSize_mono h.length_pool_le) hsize

theorem Within.forkAt (h : Within known a)
    (run : Representation.NodeRun S a.application.blockchain) (hrun : forkAt S a prev = .ok b) :
    Within known b := by
  rw [Handlers.forkAt] at hrun
  split at hrun
  · simp only [bind_eq_ok] at hrun
    obtain ⟨⟨next, c⟩, hcreate, hrun⟩ := hrun
    obtain ⟨hblock, rfl⟩ := createNext_spec hcreate
    have hdrained : Within known { a with application := { a.application with
        pool := poolCreate
        times := fun n => a.application.times (n + 1) } } :=
      ⟨fun hash hmem => absurd hmem List.not_mem_nil, h.stored⟩
    split at hrun
    · cases hrun
      exact hdrained
    · rename_i hne
      rw [bind_eq_ok] at hrun
      obtain ⟨⟨added, d⟩, hadd, hrun⟩ := hrun
      obtain ⟨data', rfl⟩ := eq_cons_of_blockCreate hblock hne
      have htxns : data'.transactions = a.application.pool.list := by
        obtain ⟨-, -, -, accounts, -, hdata⟩ := BlockDelivery.blockCreate_spec hblock
        rw [hdata]
        rfl
      have hnext : Within known d := by
        refine hdrained.addBlockToState run ?_ hadd
        intro txn htxn
        rw [htxns] at htxn
        exact h.pool _ (List.mem_map_of_mem htxn)
      simp only at hrun
      split at hrun
      · obtain ⟨hbc, hpool⟩ := broadcastBlock_application hrun
        exact ⟨by rw [hpool]; exact hnext.pool, by rw [hbc]; exact hnext.stored⟩
      · cases hrun
        exact hnext
  · cases hrun
    exact h

variable {tuple : Tuple} {ws : List Value} {vs : List Value}

theorem Within.receiveBlock (h : Within known a)
    (run : Representation.NodeRun S a.application.blockchain) (hrep : Represents tuple ws)
    (htxns : ∀ m : BlockMessage, ws = m.values → ∀ t ∈ m.transactions,
      (t.transaction S).hash ∈ known)
    (hrun : receiveBlock S a tuple = .ok b) : Within known b := by
  rw [Handlers.receiveBlock, bind_eq_ok] at hrun
  obtain ⟨block, hblock, hrun⟩ := hrun
  split at hrun
  · cases hrun
    exact h
  · rename_i hne
    rw [bind_eq_ok] at hrun
    obtain ⟨⟨added, c⟩, hadd, hrun⟩ := hrun
    rcases block with _ | ⟨data, prev⟩
    · exact absurd rfl hne
    have hnext : Within known c := by
      obtain ⟨m, rfl, hconsistent⟩ := exists_message_of_accepted hrep hblock
      have haccept := (blockCreateFromTuple_eq hrep hconsistent _).symm.trans hblock
      obtain ⟨rfl, sortitionHash, accounts, -, -, rfl⟩ :=
        (accept_eq_ok_iff _ _ _ _ _).mp haccept
      refine h.addBlockToState run ?_ hadd
      intro txn htxn
      obtain ⟨t, ht, rfl⟩ := List.mem_map.mp htxn
      exact htxns m rfl t ht
    have hrun' : Representation.NodeRun S c.application.blockchain := by
      obtain ⟨bc, pool, hstored, rfl⟩ := addBlockToState_spec hadd
      obtain ⟨r, hr, -, rfl⟩ := addBlock_ok hstored
      exact run.accept hblock hne hr
    simp only at hrun
    split at hrun
    · exact hnext.forkAt hrun' hrun
    · cases hrun
      exact hnext

theorem hash_parentIn (run : Representation.NodeRun S a.application.blockchain)
    (m : BlockMessage) :
    parentIn a m = [] ∨ blockGetHash (parentIn a m) = m.header.prevHash := by
  obtain ⟨stored, built⟩ := run.builtRun
  rcases eq_or_ne (parentIn a m) [] with hnull | hfound
  · exact .inl hnull
  · exact .inr (Representation.blockchainGetBlock_mem built.tree hfound).2

theorem ElementSafe.blockFine (helement : ElementSafe S ws) (h : Within known a)
    (run : Representation.NodeRun S a.application.blockchain)
    (htxns : ∀ m : BlockMessage, ws = m.values → ∀ t ∈ m.transactions,
      (t.transaction S).hash ∈ known)
    (hsize : Sendable (blockSize known.length)) : BlockFine S a ws where
  whole := helement.whole
  short := helement.short
  verified := by
    intro m hm hconsistent
    exact helement.verified m _ hm hconsistent (hash_parentIn run m)
  fits := by
    intro m block state' hm hconsistent haccept hne hadd
    rcases block with _ | ⟨data, prev⟩
    · exact absurd rfl hne
    obtain ⟨rfl, sortitionHash, accounts, -, -, rfl⟩ :=
      (accept_eq_ok_iff _ _ _ _ _).mp haccept
    refine (h.addBlockToState run ?_ hadd).forkFits hsize _
    intro txn htxn
    obtain ⟨t, ht, rfl⟩ := List.mem_map.mp htxn
    exact htxns m hm t ht

/-- The induction is along the elements in the order in which the handler takes them; the
transactions stay within those that were there before. -/
theorem blocksFine_of_elements (hsize : Sendable (blockSize known.length))
    (helement : ∀ v ∈ vs, ∃ ws, v = .tuple ws ∧ ElementSafe S ws)
    (htxns : ∀ m : BlockMessage, .tuple m.values ∈ vs → ∀ t ∈ m.transactions,
      (t.transaction S).hash ∈ known)
    (h : Within known a) (running : ∃ events, Run S a.application.publicKey
      a.application.secretKey events (storeOf a)) : BlocksFine S vs a := by
  induction vs generalizing a with
  | nil => trivial
  | cons v vs ih =>
      rw [List.forall_mem_cons] at helement
      obtain ⟨⟨ws, rfl, hsafe⟩, helements⟩ := helement
      have run := nodeRun_of_running running
      have hhead : ∀ m : BlockMessage, ws = m.values → ∀ t ∈ m.transactions,
          (t.transaction S).hash ∈ known := by
        rintro m rfl
        exact htxns m List.mem_cons_self
      refine ⟨ws, rfl, hsafe.blockFine h run hhead hsize, ?_⟩
      intro tuple state' hrep hreceived
      exact ih helements (fun m hm => htxns m (List.mem_cons_of_mem _ hm))
        (h.receiveBlock run hrep hhead hreceived)
        ((receiveBlock_continues hreceived).running running)

theorem ListSafe.blocksFine (h : ListSafe S a vs) (running : ∃ events,
    Run S a.application.publicKey a.application.secretKey events (storeOf a)) :
    BlocksFine S vs.reverse a := by
  obtain ⟨known, hwithin, htxns, hsize⟩ := h.roomy
  refine blocksFine_of_elements hsize ?_ ?_ hwithin running
  · intro v hv
    exact h.element v (List.mem_reverse.mp hv)
  · intro m hm
    exact htxns m (List.mem_reverse.mp hm)

theorem exists_represents (ws : List Value) : ∃ tuple, Represents tuple ws := by
  obtain ⟨tuple, -, hrep⟩ := @tupleParse_of_encode
    ⟨(Value.tuple ws).encode.length, (Value.tuple ws).encode ++ []⟩ ws [] rfl le_rfl
  exact ⟨tuple, hrep⟩

theorem elements_of_blocksFine (h : BlocksFine S vs a) (running : ∃ events,
    Run S a.application.publicKey a.application.secretKey events (storeOf a)) :
    ∀ v ∈ vs, ∃ ws, v = .tuple ws ∧ ¬ BlockCutShort ws ∧
      ∀ m : BlockMessage, ws = m.values →
      m.Consistent S → m.signature.length ≤ signBytes := by
  induction vs generalizing a with
  | nil => exact fun v hv => absurd hv List.not_mem_nil
  | cons v vs ih =>
      obtain ⟨ws, rfl, hfine, hrest⟩ := h
      obtain ⟨tuple, hrep⟩ := exists_represents ws
      obtain ⟨state', hreceived⟩ :=
        (receiveBlock_returns_iff hrep (nodeRun_of_running running)).mpr hfine
      rw [List.forall_mem_cons]
      exact ⟨⟨ws, rfl, hfine.whole, hfine.short⟩, ih (hrest tuple state' hrep hreceived)
        ((receiveBlock_continues hreceived).running running)⟩

/-- What is needed of an answer: each element is whole, with a signature that fits, and the
last, with which the handler begins, is safe in the state of the node. -/
structure AnswerNeeds (S : Sodium) (state : State) (vs : List Value) : Prop where
  element : ∀ v ∈ vs, ∃ ws, v = .tuple ws ∧ ¬ BlockCutShort ws ∧ ∀ m : BlockMessage,
    ws = m.values → m.Consistent S → m.signature.length ≤ signBytes
  last : ∀ ws, vs.getLast? = some (.tuple ws) → BlockSafe S state ws

/-- What is enough for an answer. -/
def AnswerSafe (S : Sodium) (state : State) (vs : List Value) : Prop :=
  (vs.length ≤ 1 ∧ ∀ v ∈ vs, ∃ ws, v = .tuple ws ∧ BlockSafe S state ws) ∨
    ListSafe S state vs

theorem answerNeeds_of_fine (running : ∃ events, Run S a.application.publicKey
      a.application.secretKey events (storeOf a))
    (hapart : ∀ ws, vs.getLast? = some (.tuple ws) → BlockApart S a ws)
    (h : BlocksFine S vs.reverse a) : AnswerNeeds S a vs where
  element := by
    intro v hv
    exact elements_of_blocksFine h running v (List.mem_reverse.mpr hv)
  last := by
    intro ws hlast
    obtain ⟨init, rfl⟩ := List.getLast?_eq_some_iff.mp hlast
    rw [List.reverse_append] at h
    obtain ⟨ws', heq, hfine, -⟩ := h
    cases heq
    exact blockSafe_of_fine (nodeRun_of_running running) (hapart ws hlast) hfine

theorem AnswerSafe.blocksFine (running : ∃ events, Run S a.application.publicKey
      a.application.secretKey events (storeOf a)) (h : AnswerSafe S a vs) :
    BlocksFine S vs.reverse a := by
  rcases h with ⟨hlength, helement⟩ | hlist
  · match vs, hlength, helement with
    | [], _, _ => trivial
    | [v], _, helement =>
        obtain ⟨ws, rfl, hsafe⟩ := helement v List.mem_cons_self
        exact ⟨ws, rfl, blockFine_of_safe (nodeRun_of_running running) hsafe,
          fun _ _ _ _ => trivial⟩
  · exact hlist.blocksFine running

theorem AnswerNeeds.answerSafe (h : AnswerNeeds S a vs) (hlength : vs.length ≤ 1) :
    AnswerSafe S a vs := by
  refine .inl ⟨hlength, ?_⟩
  intro v hv
  obtain ⟨ws, rfl, -⟩ := h.element v hv
  obtain ⟨w, rfl⟩ := List.length_eq_one_iff.mp
    (Nat.le_antisymm hlength (List.length_pos_of_mem hv))
  obtain rfl := List.mem_singleton.mp hv
  exact ⟨ws, rfl, h.last ws rfl⟩

end Lists

section Messages

variable {node : State} {socket : Nat} {peer : Peer} {memory : List UInt8} {vs : List Value}

/-- A request names a hash, with 32 bytes of memory from where its binary begins, and the
blocks above the one with this hash fit into an answer. -/
def Answerable (node : State) (memory : List UInt8) (vs : List Value) : Prop :=
  ∃ (bytes : List UInt8) (fits : bytes.length < 2 ^ 32) (hash : Hash),
    vs[0]? = some (.binary bytes fits) ∧
      memcpy generichashBytes (memory.drop 6) generichashBytes = .ok hash ∧
      Sendable (branchSize (blockchainGetBlock node.application.blockchain hash)
        node.application.blockchain.principal)

/-- What a message of a type and the node must be for the handler to come to its end. -/
def Safe (S : Sodium) (node : State) (peer : Peer) (memory : List UInt8) (vs : List Value) :
    Nat → Prop
  | 2 => HandshakeRuns node peer vs
  | 3 => Sendable (peersSize node peer)
  | 4 => ∀ v ∈ vs, PeerEntry v
  | 5 => Answerable node memory vs
  | 6 => AnswerSafe S node vs
  | 7 => Sendable (2 + transactionSize * poolSize node.application.pool)
  | 8 => ∀ v ∈ vs, ∃ ws, v = .tuple ws ∧ ¬ CutShort ws
  | 9 => BlockSafe S node vs
  | 10 => ¬ CutShort vs
  | _ => True

/-- The headers that a received block leads to do not collide. -/
def Apart (S : Sodium) (node : State) (vs : List Value) : Nat → Prop
  | 6 => ∀ ws, vs.getLast? = some (.tuple ws) → BlockApart S node ws
  | 9 => BlockApart S node vs
  | _ => True

theorem answerable_iff : BranchRuns node memory vs ↔ Answerable node memory vs := by
  simp only [BranchRuns, Answerable, branchFits_iff]

theorem fits_peersAnswer_iff :
    Fits (peersAnswer node peer) ↔ Sendable (peersSize node peer) := by
  rw [Fits, length_peersAnswer, Sendable]

theorem fits_poolAnswer_iff :
    Fits (poolAnswer node) ↔ Sendable (2 + transactionSize * poolSize node.application.pool) := by
  rw [Fits, length_poolAnswer, Sendable]

theorem runs_of_safe (running : ∃ events, Run S node.application.publicKey
      node.application.secretKey events (storeOf node)) {type : Nat} (htype : type < eventCount)
    (h : Safe S node peer memory vs type) : Runs S node peer memory vs type := by
  rw [eventCount] at htype
  interval_cases type
  · trivial
  · trivial
  · exact h
  · exact fits_peersAnswer_iff.mpr h
  · exact h
  · exact answerable_iff.mpr h
  · exact AnswerSafe.blocksFine running h
  · exact fits_poolAnswer_iff.mpr h
  · exact h
  · exact blockFine_of_safe (nodeRun_of_running running) h
  · exact h

theorem safe_of_runs (running : ∃ events, Run S node.application.publicKey
      node.application.secretKey events (storeOf node)) {type : Nat} (htype : type < eventCount)
    (hsingle : type = 6 → vs.length ≤ 1) (hapart : Apart S node vs type)
    (h : Runs S node peer memory vs type) : Safe S node peer memory vs type := by
  rw [eventCount] at htype
  interval_cases type
  · trivial
  · trivial
  · exact h
  · exact fits_peersAnswer_iff.mp h
  · exact h
  · exact answerable_iff.mp h
  · exact (answerNeeds_of_fine running hapart h).answerSafe (hsingle rfl)
  · exact fits_poolAnswer_iff.mp h
  · exact h
  · exact blockSafe_of_fine (nodeRun_of_running running) hapart h
  · exact h

/-- The guid of a message is known, or the message can be passed on and its handler finds in
the payload and the node what it takes, and then either the documented shape or nothing to
change. -/
def Passes (S : Sodium) (node : State) (peer : Peer) (guid : Guid) (size type : Nat)
    (msg : Option Tuple) (runs : List Value → Prop) : Prop :=
  (guid ≠ guidNull ∧ messageHistoryHas node.network guid = true) ∨
    (guid ≠ guidNull → messageHeaderSize + size < 2 ^ 31) ∧
      ∃ tuple vs, msg = some tuple ∧ Represents tuple vs ∧ runs vs ∧
        (Shaped vs type ∨ Spares S node peer vs type)

theorem Passes.imp {guid : Guid} {size type : Nat} {msg : Option Tuple}
    {runs runs' : List Value → Prop}
    (himp : ∀ tuple vs, msg = some tuple → Represents tuple vs → runs vs → runs' vs)
    (h : Passes S node peer guid size type msg runs) :
    Passes S node peer guid size type msg runs' := by
  refine h.imp_right (And.imp_right ?_)
  rintro ⟨tuple, vs, hmsg, hrep, hruns, hshape⟩
  exact ⟨tuple, vs, hmsg, hrep, himp tuple vs hmsg hrep hruns, hshape⟩

theorem exists_node : ∃ node, Reachable transparent node ∧
    peerOf node 1 = .ok ⟨1, [], 0⟩ ∧
    node.application.pool = poolCreate ∧ node.network.messageHistory = [] := by
  obtain ⟨first, second, h⟩ := PendingTransactions.exists_spent
  obtain ⟨network, hnode⟩ := h.exists_node
  exact ⟨_, hnode.network { networkCreate with peers := [⟨1, [], 0⟩] }, rfl, rfl, rfl⟩

/-- A list with one payment, as a node with that payment in its pool answers. -/
def paymentList (extra : List Value) : List Value :=
  [.tuple (BlockRelay.paymentMessage extra).values]

/-- A response with one payment, which has these elements behind its own. -/
def paymentPayload (extra : List Value) : List UInt8 :=
  (Value.tuple (paymentList extra)).encode

def stranger : Guid :=
  ⟨1, 0, 0, 0⟩

theorem paymentList_safe (extra : List Value) (node : State) (peer : Peer)
    (memory : List UInt8) : Safe transparent node peer memory (paymentList extra) 8 := by
  intro v hv
  obtain rfl := List.mem_singleton.mp hv
  refine ⟨_, rfl, ?_⟩
  obtain ⟨tuple, hrep⟩ := exists_represents (BlockRelay.paymentMessage extra).values
  rw [← transactionCreateFromTuple_returns_iff hrep transparent]
  exact ⟨_, transactionCreateFromTuple_eq hrep transparent⟩

theorem paymentList_shaped : Shaped (paymentList []) 8 := by
  intro v hv
  obtain rfl := List.mem_singleton.mp hv
  exact ⟨_, rfl, BlockRelay.paymentMessage [], rfl, rfl⟩

theorem paymentList_not_shaped : ¬ Shaped (paymentList [BlockRelay.nullElement]) 8 := by
  intro hshaped
  obtain ⟨ws, hws, m, rfl, hlength⟩ := hshaped _ List.mem_cons_self
  have hfields : (BlockRelay.paymentMessage [BlockRelay.nullElement]).fields = m.fields := by
    have hvalues := Value.tuple.inj hws
    rw [TransactionMessage.values, TransactionMessage.values] at hvalues
    exact Value.tuple.inj (List.cons.inj hvalues).1
  rw [← hfields] at hlength
  cases hlength

theorem paymentList_taken (extra : List Value) {node : State}
    (hpool : node.application.pool = poolCreate) (peer : Peer) :
    ¬ Spares transparent node peer (paymentList extra) 8 := by
  intro hspares
  refine hspares ⟨_, List.mem_cons_self, BlockRelay.paymentMessage extra, rfl,
    BlockRelay.paymentMessage_verifies extra, ?_⟩
  rw [hpool]
  exact List.not_mem_nil

end Messages

end Whosecoin.MessageSafety

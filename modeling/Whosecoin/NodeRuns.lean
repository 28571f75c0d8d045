import Whosecoin.Handlers
import Whosecoin.Reorganisations

/-!
The handlers of `main.c` as steps on the blocks and the pending transactions. What is
proved about runs of these steps holds in every reachable state of a node.
-/

namespace Whosecoin.NodeRuns

open Library.Outcomes
open Cryptography
open TupleParser
open Transactions
open Accounts
open Blocks
open Blockchains
open Pools
open Messages
open Networks
open Handlers

/-- What the handlers do to the blockchain and the pool. A block is created on
`prev` at the time `now`, or its creation fails. -/
inductive Event where
  | pending (txn : Transaction)
  | accepted (block : BlockPtr) (added : Bool)
  | created (prev : BlockPtr) (now : UInt64) (block : BlockPtr) (added : Bool)
  | failed (prev : BlockPtr) (now : UInt64)

/-- What a node stores of blocks and transactions. -/
structure Store where
  blockchain : Blockchain
  pool : Pool

variable (S : Sodium) (pk : PublicKey) (sk : SecretKey)

/-- The node may create a block on top of `prev`. -/
structure MayExtend (store : Store) (prev : BlockPtr) : Prop where
  ne_nil : prev ≠ []
  known : prev = store.blockchain.principal ∨ Representation.Stored store.blockchain prev
  childless : blockGetChildWithPublicKey store.blockchain prev pk = []

/-- One step of a node with a key pair. A block is created with all pending
transactions; when `block_create` fails they are gone. -/
inductive Step : Store → Event → Store → Prop where
  | pending {store : Store} {txn : Transaction}
      (hgenuine : BlockDelivery.Genuine S (fun pk' sk' => pk' = pk ∧ sk' = sk) txn) :
      Step store (.pending txn) { store with pool := poolAdd store.pool txn }
  | accept {store : Store} {tuple : Tuple} {block : BlockPtr} {added : Bool} {bc : Blockchain}
      {pool : Pool}
      (hblock : blockCreateFromTuple S tuple (blockchainGetBlock store.blockchain) = .ok block)
      (hne : block ≠ []) (hadd : addBlock store.blockchain store.pool block =
        .ok (added, bc, pool)) :
      Step store (.accepted block added) ⟨bc, pool⟩
  | create {store : Store} {prev next : BlockPtr} {now : UInt64} {added : Bool} {bc : Blockchain}
      {pool : Pool} (hmay : MayExtend pk store prev)
      (hblock : blockCreate S now pk sk prev store.pool.list = .ok next) (hne : next ≠ [])
      (hadd : addBlock store.blockchain poolCreate next = .ok (added, bc, pool)) :
      Step store (.created prev now next added) ⟨bc, pool⟩
  | fail {store : Store} {prev : BlockPtr} {now : UInt64} (hmay : MayExtend pk store prev)
      (hblock : blockCreate S now pk sk prev store.pool.list = .ok []) :
      Step store (.failed prev now) ⟨store.blockchain, poolCreate⟩

/-- A run of a node, with its events in order. It starts when `main` has created
the genesis block. -/
inductive Run : List Event → Store → Prop where
  | start {now : UInt64} {block : BlockPtr} {added : Bool} {bc : Blockchain} {pool : Pool}
      (hblock : blockCreate S now pk sk [] [] = .ok block) (hne : block ≠ [])
      (hadd : addBlock blockchainCreate poolCreate block = .ok (added, bc, pool)) :
      Run [.created [] now block added] ⟨bc, pool⟩
  | step {events : List Event} {store store' : Store} {event : Event} (run : Run events store)
      (hstep : Step S pk sk store event store') : Run (events ++ [event]) store'

variable {S pk sk}

theorem addBlock_ok {bc bc' : Blockchain} {pool pool' : Pool} {block : BlockPtr} {added : Bool}
    (h : addBlock bc pool block = .ok (added, bc', pool')) :
    ∃ r, blockchainAddBlock bc block = .ok r ∧ r.added = added ∧ r.blockchain = bc' := by
  rw [addBlock, bind_eq_ok] at h
  obtain ⟨r, hr, h⟩ := h
  rw [bind_eq_ok] at h
  obtain ⟨pool'', -, h⟩ := h
  simp only [pure_eq_ok, Except.ok.injEq, Prod.mk.injEq] at h
  exact ⟨r, hr, h.1, h.2.1⟩

theorem MayExtend.stored {store : Store} {prev : BlockPtr} (h : MayExtend pk store prev)
    (run : Representation.NodeRun S store.blockchain) :
    Representation.Stored store.blockchain prev := by
  obtain ⟨stored, built⟩ := run.builtRun
  rcases h.known with hprincipal | hstored
  · rcases built.tree.principal_mem with hnull | hmem
    · exact absurd (hprincipal.trans hnull) h.ne_nil
    · rw [hprincipal, Representation.stored_iff built.tree]
      exact hmem
  · exact hstored

theorem Step.nodeRun {store store' : Store} {event : Event}
    (hstep : Step S pk sk store event store')
    (run : Representation.NodeRun S store.blockchain) :
    Representation.NodeRun S store'.blockchain := by
  cases hstep with
  | pending hgenuine => exact run
  | accept hblock hne hadd =>
      obtain ⟨r, hr, -, rfl⟩ := addBlock_ok hadd
      exact run.accept hblock hne hr
  | create hmay hblock hne hadd =>
      obtain ⟨r, hr, -, rfl⟩ := addBlock_ok hadd
      exact run.create (.inr (hmay.stored run)) hblock hne hr
  | fail hmay hblock => exact run

theorem Run.nodeRun {events : List Event} {store : Store} (run : Run S pk sk events store) :
    Representation.NodeRun S store.blockchain := by
  induction run with
  | start hblock hne hadd =>
      obtain ⟨r, hr, -, rfl⟩ := addBlock_ok hadd
      exact Representation.NodeRun.start.create (.inl rfl) hblock hne hr
  | step run hstep ih => exact hstep.nodeRun ih

section Stored

/-- The event has put the block into the tree. -/
def Adds (block : BlockPtr) : Event → Prop
  | .accepted new added => added = true ∧ block = new
  | .created _ _ new added => added = true ∧ block = new
  | _ => False

theorem stored_addBlock_iff {bc bc' : Blockchain} {pool pool' : Pool} {new : BlockPtr}
    {added : Bool} (h : addBlock bc pool new = .ok (added, bc', pool')) (block : BlockPtr) :
    Representation.Stored bc' block ↔ Representation.Stored bc block ∨ added = true ∧
      block = new := by
  obtain ⟨r, hr, rfl, rfl⟩ := addBlock_ok h
  rcases blockchainAddBlock_cases hr with ⟨-, rfl⟩ | ⟨data, prev, rfl, hnew, hstored⟩
  · simp
  · rw [Representation.stored_storedAs_iff hnew hstored, hstored.added]
    simp

theorem Run.stored_iff {events : List Event} {store : Store} (run : Run S pk sk events store)
    (block : BlockPtr) :
    Representation.Stored store.blockchain block ↔ ∃ event ∈ events, Adds block event := by
  induction run with
  | start hblock hne hadd =>
      simp only [List.mem_singleton, exists_eq_left]
      exact (stored_addBlock_iff hadd block).trans (or_iff_right fun hmem => nomatch hmem)
  | step run hstep ih =>
      simp only [List.mem_append, List.mem_singleton, or_and_right, exists_or,
        exists_eq_left, ← ih]
      cases hstep with
      | pending hgenuine => exact (or_iff_left id).symm
      | accept hblock hne hadd => exact stored_addBlock_iff hadd block
      | create hmay hblock hne hadd => exact stored_addBlock_iff hadd block
      | fail hmay hblock => exact (or_iff_left id).symm

end Stored

section Refinement

def storeOf (state : State) : Store :=
  ⟨state.application.blockchain, state.application.pool⟩

/-- The state is reached from another one by steps of the node, and its keys are
the same. -/
structure Continues (S : Sodium) (state state' : State) : Prop where
  publicKey : state'.application.publicKey = state.application.publicKey
  secretKey : state'.application.secretKey = state.application.secretKey
  run : ∀ events,
    Run S state.application.publicKey state.application.secretKey events (storeOf state) →
      ∃ more, Run S state.application.publicKey state.application.secretKey (events ++ more)
        (storeOf state')

namespace Continues

variable {a b c : State}

theorem of_eq (hpk : b.application.publicKey = a.application.publicKey)
    (hsk : b.application.secretKey = a.application.secretKey) (h : storeOf b = storeOf a) :
    Continues S a b where
  publicKey := hpk
  secretKey := hsk
  run := by
    intro events run
    refine ⟨[], ?_⟩
    rw [List.append_nil, h]
    exact run

theorem refl (a : State) : Continues S a a :=
  of_eq rfl rfl rfl

theorem trans (hab : Continues S a b) (hbc : Continues S b c) : Continues S a c where
  publicKey := hbc.publicKey.trans hab.publicKey
  secretKey := hbc.secretKey.trans hab.secretKey
  run := by
    intro events run
    obtain ⟨more, run'⟩ := hab.run events run
    rw [← hab.publicKey, ← hab.secretKey] at run'
    obtain ⟨more', run''⟩ := hbc.run _ run'
    rw [hab.publicKey, hab.secretKey, List.append_assoc] at run''
    exact ⟨more ++ more', run''⟩

theorem running (hab : Continues S a b)
    (h : ∃ events, Run S a.application.publicKey a.application.secretKey events (storeOf a)) :
    ∃ events, Run S b.application.publicKey b.application.secretKey events (storeOf b) := by
  obtain ⟨events, run⟩ := h
  obtain ⟨more, run'⟩ := hab.run events run
  rw [hab.publicKey, hab.secretKey]
  exact ⟨_, run'⟩

theorem stored (hab : Continues S a b)
    (h : ∃ events, Run S a.application.publicKey a.application.secretKey events (storeOf a))
    {block : BlockPtr} (hblock : Representation.Stored a.application.blockchain block) :
    Representation.Stored b.application.blockchain block := by
  obtain ⟨events, run⟩ := h
  obtain ⟨more, run'⟩ := hab.run events run
  obtain ⟨event, hevent, hadds⟩ := (run.stored_iff block).mp hblock
  exact (run'.stored_iff block).mpr ⟨event, List.mem_append_left more hevent, hadds⟩

theorem foldlM {ι : Type} {body : State → ι → Outcome State}
    (hbody : ∀ a i b, body a i = .ok b → Continues S a b) (items : List ι)
    (h : items.foldlM body a = .ok b) : Continues S a b :=
  foldlM_invariant body (Continues S a) (fun s i s' hs hstep => hs.trans (hbody s i s' hstep))
    items a b (refl a) h

end Continues

variable {a b : State}

theorem Continues.of_application (h : b.application = a.application) : Continues S a b := by
  refine .of_eq ?_ ?_ ?_
  · rw [h]
  · rw [h]
  · rw [storeOf, storeOf, h]

theorem send_application {event : UInt32} {buf : List UInt8} {socket : Nat}
    (h : send a event buf socket = .ok b) : b.application = a.application := by
  rw [send, bind_eq_ok] at h
  obtain ⟨network, -, h⟩ := h
  cases h
  rfl

theorem broadcastBlock_continues {block : BlockPtr} (h : broadcastBlock a block = .ok b) :
    Continues S a b := by
  simp only [broadcastBlock, bind_eq_ok] at h
  obtain ⟨-, -, buf, -, network, -, h⟩ := h
  cases h
  exact .of_eq rfl rfl rfl

theorem broadcastBlock_ok {block : BlockPtr} {bytes : List UInt8} (hne : block ≠ [])
    (hwrite : blockWrite [] block = .ok bytes) (hsize : bytes.length < 2 ^ 30) :
    ∃ network, broadcastBlock a block = .ok
      { network := network
        application := { a.application with
          guids := fun n => a.application.guids (n + 1) } } := by
  have hlength : (messageCreate (a.application.guids 0) 9 bytes).length < 2 ^ 31 := by
    rw [messageCreate_length, messageHeaderSize]
    omega
  rw [broadcastBlock, require, if_pos hne, hwrite]
  simp only [ok_bind, networkBroadcast, broadcastMessage, sharedBufferCreate, if_pos hlength]
  exact ⟨_, rfl⟩

section Quiet

variable {socket : Nat} {msg : Option Tuple}

theorem onConnect_application (h : onConnect socket msg a = .ok b) :
    b.application = a.application := by
  simp only [onConnect, bind_eq_ok] at h
  obtain ⟨c, hhandshake, d, hpeers, h⟩ := h
  exact (send_application h).trans ((send_application hpeers).trans (send_application hhandshake))

theorem onHandshake_application (h : onHandshake socket msg a = .ok b) :
    b.application = a.application := by
  simp only [onHandshake, bind_eq_ok] at h
  obtain ⟨peer, -, tuple, -, port, -, h⟩ := h
  split at h
  · cases h
    rfl
  · rw [bind_eq_ok] at h
    obtain ⟨version, -, h⟩ := h
    cases h
    rfl

theorem onDisconnect_application (h : onDisconnect socket msg a = .ok b) :
    b.application = a.application := by
  simp only [onDisconnect, bind_eq_ok] at h
  obtain ⟨peer, -, h⟩ := h
  cases h
  rfl

theorem onPeersRequest_application (h : onPeersRequest socket msg a = .ok b) :
    b.application = a.application := by
  simp only [onPeersRequest, bind_eq_ok] at h
  obtain ⟨peer, -, h⟩ := h
  exact send_application h

theorem onPeersResponse_application (h : onPeersResponse socket msg a = .ok b) :
    b.application = a.application := by
  simp only [onPeersResponse, bind_eq_ok] at h
  obtain ⟨tuple, -, h⟩ := h
  refine foldlM_invariant _ (fun state : State => state.application = a.application)
    ?_ _ a b rfl h
  intro s i s' hs hstep
  simp only [connectPeer, bind_eq_ok] at hstep
  obtain ⟨peerTuple, -, addr, -, port, -, hstep⟩ := hstep
  split at hstep
  · cases hstep
    exact hs
  · cases hstep
    exact hs

theorem onBlocksRequest_application (h : onBlocksRequest socket msg a = .ok b) :
    b.application = a.application := by
  simp only [onBlocksRequest, bind_eq_ok] at h
  obtain ⟨tuple, -, hash, -, hash', -, buf, -, h⟩ := h
  exact send_application h

theorem onPoolRequest_application (h : onPoolRequest socket msg a = .ok b) :
    b.application = a.application :=
  send_application h

end Quiet

theorem addPending_continues {txn : Transaction}
    (h : BlockDelivery.Genuine S
      (fun pk' sk' => pk' = a.application.publicKey ∧ sk' = a.application.secretKey) txn) :
    Continues S a (addPending a txn) where
  publicKey := rfl
  secretKey := rfl
  run := fun _ run => ⟨_, run.step (.pending h)⟩

theorem receiveTransaction_continues {tuple : Tuple}
    (h : receiveTransaction S a tuple = .ok b) : Continues S a b := by
  rw [receiveTransaction, bind_eq_ok] at h
  obtain ⟨result, hresult, h⟩ := h
  cases result with
  | none =>
      cases h
      exact .refl a
  | some txn =>
      cases h
      exact addPending_continues (.accepted hresult)

theorem onPoolResponse_continues {socket : Nat} {msg : Option Tuple}
    (h : onPoolResponse S socket msg a = .ok b) : Continues S a b := by
  simp only [onPoolResponse, bind_eq_ok] at h
  obtain ⟨tuple, -, h⟩ := h
  refine .foldlM ?_ _ h
  intro s i s' hstep
  rw [bind_eq_ok] at hstep
  obtain ⟨txnTuple, -, hstep⟩ := hstep
  exact receiveTransaction_continues hstep

theorem onTransaction_continues {socket : Nat} {msg : Option Tuple}
    (h : onTransaction S socket msg a = .ok b) : Continues S a b := by
  simp only [onTransaction, bind_eq_ok] at h
  obtain ⟨tuple, -, h⟩ := h
  exact receiveTransaction_continues h

theorem handleSendCommand_continues (value : UInt64) (recipient : PublicKey) :
    Continues S a (handleSendCommand S a value recipient) :=
  addPending_continues (.created ⟨rfl, rfl⟩ recipient value 0)

theorem createNext_of_blockCreate {prev next : BlockPtr}
    (h :
      blockCreate S (a.application.times 0) a.application.publicKey a.application.secretKey prev
      a.application.pool.list = .ok next) :
    createNext S a prev = .ok (next, { a with application := { a.application with
      pool := poolCreate
      times := fun n => a.application.times (n + 1) } }) := by
  have hdrain := drainPool_eq [] a.application.pool _ (Nat.lt_succ_self _)
  simp only [createNext, hdrain, ok_bind, List.nil_append, h]
  rfl

theorem createNext_spec {prev next : BlockPtr} (h : createNext S a prev = .ok (next, b)) :
    blockCreate S (a.application.times 0) a.application.publicKey a.application.secretKey prev
        a.application.pool.list = .ok next ∧
      b = { a with application := { a.application with
        pool := poolCreate
        times := fun n => a.application.times (n + 1) } } := by
  have hdrain := drainPool_eq [] a.application.pool _ (Nat.lt_succ_self _)
  simp only [createNext, bind_eq_ok] at h
  obtain ⟨⟨txns, pool⟩, hrun, h⟩ := h
  rw [hdrain, List.nil_append, Except.ok.injEq, Prod.mk.injEq] at hrun
  obtain ⟨rfl, rfl⟩ := hrun
  simp only [pure_eq_ok, Except.ok.injEq, Prod.mk.injEq] at h
  obtain ⟨next', hnext, rfl, rfl⟩ := h
  exact ⟨hnext, rfl⟩

theorem addBlockToState_spec {block : BlockPtr} {added : Bool}
    (h : addBlockToState a block = .ok (added, b)) :
    ∃ bc pool, addBlock a.application.blockchain a.application.pool block =
      .ok (added, bc, pool) ∧
      b = { a with application := { a.application with blockchain := bc, pool := pool } } := by
  rw [addBlockToState, bind_eq_ok] at h
  obtain ⟨⟨added', bc, pool⟩, hadd, h⟩ := h
  simp only [pure_eq_ok, Except.ok.injEq, Prod.mk.injEq] at h
  obtain ⟨rfl, rfl⟩ := h
  exact ⟨bc, pool, hadd, rfl⟩

theorem addBlockToState_of_addBlock {block : BlockPtr} {added : Bool} {bc : Blockchain}
    {pool : Pool}
    (h : addBlock a.application.blockchain a.application.pool block = .ok (added, bc, pool)) :
    addBlockToState a block = .ok (added,
      { a with application := { a.application with blockchain := bc, pool := pool } }) := by
  rw [addBlockToState, h]
  rfl

theorem createNext_failed {prev : BlockPtr}
    (hmay : MayExtend a.application.publicKey (storeOf a) prev)
    (h : createNext S a prev = .ok ([], b)) : Continues S a b := by
  obtain ⟨hblock, rfl⟩ := createNext_spec h
  exact ⟨rfl, rfl, fun _ run => ⟨_, run.step (.fail hmay hblock)⟩⟩

theorem createNext_added {prev next : BlockPtr} {c : State} {added : Bool}
    (hmay : MayExtend a.application.publicKey (storeOf a) prev) (hne : next ≠ [])
    (hcreate : createNext S a prev = .ok (next, b))
    (hadd : addBlockToState b next = .ok (added, c)) : Continues S a c := by
  obtain ⟨hblock, rfl⟩ := createNext_spec hcreate
  obtain ⟨bc, pool, hstored, rfl⟩ := addBlockToState_spec hadd
  exact ⟨rfl, rfl, fun _ run => ⟨_, run.step (.create hmay hblock hne hstored)⟩⟩

theorem forkAt_continues {prev : BlockPtr}
    (hstored : prev ≠ [] → Representation.Stored a.application.blockchain prev)
    (h : forkAt S a prev = .ok b) : Continues S a b := by
  rw [forkAt] at h
  split at h
  · rename_i hmay
    simp only [bind_eq_ok] at h
    obtain ⟨⟨next, c⟩, hcreate, h⟩ := h
    have hextend : MayExtend a.application.publicKey (storeOf a) prev :=
      ⟨hmay.1, .inr (hstored hmay.1), hmay.2⟩
    rcases eq_or_ne next [] with rfl | hne
    · cases h
      exact createNext_failed hextend hcreate
    · rw [if_neg hne, bind_eq_ok] at h
      obtain ⟨⟨added, d⟩, hadd, h⟩ := h
      have hcontinues := createNext_added hextend hne hcreate hadd
      split at h
      · exact hcontinues.trans (broadcastBlock_continues h)
      · cases h
        exact hcontinues
  · cases h
    exact .refl a

theorem stored_mono {bc : Blockchain} {block : BlockPtr} {r : AddResult}
    (h : blockchainAddBlock bc block = .ok r) {b : BlockPtr} (hb : Representation.Stored bc b) :
    Representation.Stored r.blockchain b := by
  rcases blockchainAddBlock_cases h with ⟨-, rfl⟩ | ⟨data, prev, rfl, hnew, hstored⟩
  · exact hb
  · exact (Representation.stored_storedAs_iff hnew hstored b).mpr (.inl hb)

theorem addBlockToState_stored {block old : BlockPtr} {added : Bool}
    (h : addBlockToState a block = .ok (added, b))
    (hold : Representation.Stored a.application.blockchain old) :
    Representation.Stored b.application.blockchain old := by
  obtain ⟨bc, pool, hadd, rfl⟩ := addBlockToState_spec h
  obtain ⟨r, hr, -, rfl⟩ := addBlock_ok hadd
  exact stored_mono hr hold

theorem broadcastBlock_application {block : BlockPtr} (h : broadcastBlock a block = .ok b) :
    b.application.blockchain = a.application.blockchain ∧
      b.application.pool = a.application.pool := by
  simp only [broadcastBlock, bind_eq_ok] at h
  obtain ⟨-, -, buf, -, network, -, h⟩ := h
  cases h
  exact ⟨rfl, rfl⟩

theorem forkAt_stored {prev old : BlockPtr} (h : forkAt S a prev = .ok b)
    (hold : Representation.Stored a.application.blockchain old) :
    Representation.Stored b.application.blockchain old := by
  rw [forkAt] at h
  split at h
  · simp only [bind_eq_ok] at h
    obtain ⟨⟨next, c⟩, hcreate, h⟩ := h
    obtain ⟨-, rfl⟩ := createNext_spec hcreate
    split at h
    · cases h
      exact hold
    · rw [bind_eq_ok] at h
      obtain ⟨⟨added, d⟩, hadd, h⟩ := h
      have hkept := @addBlockToState_stored { a with application := { a.application with
        pool := poolCreate
        times := fun n => a.application.times (n + 1) } } d next old added hadd hold
      simp only at h
      split at h
      · rw [(broadcastBlock_application h).1]
        exact hkept
      · cases h
        exact hkept
  · cases h
    exact hold

theorem receiveBlock_stored {tuple : Tuple} {old : BlockPtr}
    (h : receiveBlock S a tuple = .ok b)
    (hold : Representation.Stored a.application.blockchain old) :
    Representation.Stored b.application.blockchain old := by
  rw [receiveBlock, bind_eq_ok] at h
  obtain ⟨block, -, h⟩ := h
  split at h
  · cases h
    exact hold
  · rw [bind_eq_ok] at h
    obtain ⟨⟨added, c⟩, hadd, h⟩ := h
    have hkept := addBlockToState_stored hadd hold
    simp only at h
    split at h
    · exact forkAt_stored h hkept
    · cases h
      exact hkept

theorem receiveBlock_continues {tuple : Tuple} (h : receiveBlock S a tuple = .ok b) :
    Continues S a b := by
  rw [receiveBlock, bind_eq_ok] at h
  obtain ⟨block, hblock, h⟩ := h
  split at h
  · cases h
    exact .refl a
  · rename_i hne
    rw [bind_eq_ok] at h
    obtain ⟨⟨added, c⟩, hadd, h⟩ := h
    obtain ⟨bc, pool, hstored, rfl⟩ := addBlockToState_spec hadd
    have haccept : Continues S a { a with
        application := { a.application with blockchain := bc, pool := pool } } :=
      ⟨rfl, rfl, fun _ run => ⟨_, run.step (.accept hblock hne hstored)⟩⟩
    simp only at h
    split at h
    · refine haccept.trans (forkAt_continues ?_ h)
      intro htail
      obtain ⟨r, hr, -, rfl⟩ := addBlock_ok hstored
      exact stored_mono hr ((Representation.parent_of_accept hblock hne).resolve_left htail)
    · cases h
      exact haccept

theorem onBlock_continues {socket : Nat} {msg : Option Tuple}
    (h : onBlock S socket msg a = .ok b) : Continues S a b := by
  simp only [onBlock, bind_eq_ok] at h
  obtain ⟨tuple, -, h⟩ := h
  exact receiveBlock_continues h

theorem onBlocksResponse_continues {socket : Nat} {msg : Option Tuple}
    (h : onBlocksResponse S socket msg a = .ok b) : Continues S a b := by
  simp only [onBlocksResponse, bind_eq_ok] at h
  obtain ⟨tuple, -, h⟩ := h
  refine .foldlM ?_ _ h
  intro s i s' hstep
  rw [bind_eq_ok] at hstep
  obtain ⟨blockTuple, -, hstep⟩ := hstep
  exact receiveBlock_continues hstep

theorem onTimer_failed
    (hne : a.application.blockchain.principal ≠ [])
    (hchildless : blockGetChildWithPublicKey a.application.blockchain
      a.application.blockchain.principal a.application.publicKey = [])
    (hblock :
      blockCreate S (a.application.times 0) a.application.publicKey a.application.secretKey
      a.application.blockchain.principal a.application.pool.list = .ok []) :
    onTimer S a = .ok { a with application := { a.application with
      pool := poolCreate
      times := fun n => a.application.times (n + 1) } } := by
  rw [onTimer, if_pos ⟨hne, hchildless⟩, createNext_of_blockCreate hblock]
  rfl

theorem onTimer_continues (h : onTimer S a = .ok b) : Continues S a b := by
  rw [onTimer] at h
  split at h
  · rename_i hmay
    have hextend : MayExtend a.application.publicKey (storeOf a)
        a.application.blockchain.principal := ⟨hmay.1, .inl rfl, hmay.2⟩
    rw [bind_eq_ok] at h
    obtain ⟨⟨next, c⟩, hcreate, h⟩ := h
    rcases eq_or_ne next [] with rfl | hne
    · cases h
      exact createNext_failed hextend hcreate
    · simp only [if_neg hne, bind_eq_ok] at h
      obtain ⟨⟨added, d⟩, hadd, h⟩ := h
      exact (createNext_added hextend hne hcreate hadd).trans (broadcastBlock_continues h)
  · cases h
    exact .refl a

theorem handlers_continues {type : UInt16} {handler : Handler Globals}
    (hhandler : handlers S type = some handler) {socket : Nat} {msg : Option Tuple}
    (h : handler socket msg a = .ok b) : Continues S a b := by
  rw [handlers] at hhandler
  split at hhandler <;> cases hhandler
  · exact .of_application (onConnect_application h)
  · exact .of_application (onDisconnect_application h)
  · exact .of_application (onHandshake_application h)
  · exact .of_application (onPeersRequest_application h)
  · exact .of_application (onPeersResponse_application h)
  · exact .of_application (onBlocksRequest_application h)
  · exact onBlocksResponse_continues h
  · exact .of_application (onPoolRequest_application h)
  · exact onPoolResponse_continues h
  · exact onBlock_continues h
  · exact onTransaction_continues h

theorem dispatch_continues {type : UInt16} {buffer : Buffer} {socket : Nat}
    (h : dispatch (handlers S) socket type buffer a = .ok b) : Continues S a b := by
  rw [dispatch] at h
  split at h
  · cases h
    exact .refl a
  · rename_i handler hhandler
    split_ifs at hhandler with htype
    simp only [bind_eq_ok] at h
    obtain ⟨tuple, -, c, hc, -, -, h⟩ := h
    cases h
    exact handlers_continues hhandler hc

theorem handleMessage_continues {socket : Nat} {message : List UInt8} {len : Nat}
    (h : handleMessage (handlers S) socket a message len = .ok b) : Continues S a b := by
  simp only [handleMessage, bind_eq_ok] at h
  obtain ⟨guid, -, length, -, type, -, h⟩ := h
  split at h
  · exact dispatch_continues h
  split at h
  · rw [bind_eq_ok] at h
    obtain ⟨c, hc, h⟩ := h
    rw [bind_eq_ok] at h
    obtain ⟨network, -, h⟩ := h
    cases h
    exact (dispatch_continues hc).trans (.of_eq rfl rfl rfl)
  · cases h
    exact .refl a

/-- A node that has come up and has handled some events since. -/
inductive Reachable (S : Sodium) : State → Prop where
  | start {pk : PublicKey} {sk : SecretKey} {port : Int32} {times : Nat → UInt64}
      {guids : Nat → Guid} {state : State}
      (hgenesis : createGenesis S (initialState pk sk port times guids) = .ok state) :
      Reachable S state
  | receive {state state' : State} {socket : Nat} {message : List UInt8} {len : Nat}
      (reachable : Reachable S state)
      (hmessage : handleMessage (handlers S) socket state message len = .ok state') :
      Reachable S state'
  | timer {state state' : State} (reachable : Reachable S state)
      (htimer : onTimer S state = .ok state') : Reachable S state'
  | command {state : State} (reachable : Reachable S state) (value : UInt64)
      (recipient : PublicKey) : Reachable S (handleSendCommand S state value recipient)
  | network {state : State} (reachable : Reachable S state) (network : Network) :
      Reachable S { state with network := network }

theorem genesis_ne_nil {now : UInt64} {pk : PublicKey} {sk : SecretKey} {block : BlockPtr}
    (h : blockCreate S now pk sk [] [] = .ok block) : block ≠ [] := by
  rintro rfl
  simp [blockCreate, isStakingAllowed, nDelegates, blockGetAccount, areTransactionsValid,
    applyTransactions] at h

theorem createGenesis_ok {pk : PublicKey} {sk : SecretKey} {port : Int32}
    {times : Nat → UInt64} {guids : Nat → Guid} {genesis : Block} {bytes : List UInt8}
    (hblock : blockCreate S (times 0) pk sk [] [] = .ok [genesis])
    (hwrite : blockWrite [] [genesis] = .ok bytes) (hsize : bytes.length < 2 ^ 30) :
    ∃ network, createGenesis S (initialState pk sk port times guids) = .ok
      { network := network
        application :=
          { blockchain := { storeBlock blockchainCreate genesis [] with principal := [genesis] }
            pool := poolCreate
            publicKey := pk
            secretKey := sk
            port := port
            times := fun n => times (n + 1)
            guids := fun n => guids (n + 1) } } := by
  have hadd := @Reorganisations.addBlock_extend blockchainCreate genesis rfl poolCreate
  have hne : [genesis] ≠ [] := List.cons_ne_nil _ _
  simp only [createGenesis, initialState, hblock, ok_bind, if_neg hne]
  rw [addBlockToState_of_addBlock hadd, ok_bind]
  exact broadcastBlock_ok hne hwrite hsize

theorem createGenesis_run {pk : PublicKey} {sk : SecretKey} {port : Int32}
    {times : Nat → UInt64} {guids : Nat → Guid} {state : State}
    (h : createGenesis S (initialState pk sk port times guids) = .ok state) :
    ∃ events, Run S state.application.publicKey state.application.secretKey events
      (storeOf state) := by
  simp only [createGenesis, bind_eq_ok] at h
  obtain ⟨block, hblock, h⟩ := h
  have hne := genesis_ne_nil hblock
  rw [if_neg hne, bind_eq_ok] at h
  obtain ⟨⟨added, c⟩, hadd, h⟩ := h
  obtain ⟨bc, pool, hstored, rfl⟩ := addBlockToState_spec hadd
  have hcontinues := @broadcastBlock_continues S _ _ _ h
  have hstart := Run.start hblock hne hstored
  obtain ⟨more, run⟩ := hcontinues.run _ hstart
  rw [hcontinues.publicKey, hcontinues.secretKey]
  exact ⟨_, run⟩

theorem Reachable.created {next : BlockPtr} {added : Bool} {bc : Blockchain} {pool : Pool}
    {bytes : List UInt8} (reachable : Reachable S a)
    (hne : a.application.blockchain.principal ≠ [])
    (hchildless : blockGetChildWithPublicKey a.application.blockchain
      a.application.blockchain.principal a.application.publicKey = [])
    (hblock :
      blockCreate S (a.application.times 0) a.application.publicKey a.application.secretKey
      a.application.blockchain.principal a.application.pool.list = .ok next) (hnext : next ≠ [])
    (hadd : addBlock a.application.blockchain poolCreate next = .ok (added, bc, pool))
    (hwrite : blockWrite [] next = .ok bytes) (hsize : bytes.length < 2 ^ 30) :
    ∃ network, Reachable S
      { network := network
        application := { a.application with
          blockchain := bc
          pool := pool
          times := fun n => a.application.times (n + 1)
          guids := fun n => a.application.guids (n + 1) } } := by
  have htick : ∃ network, onTimer S a = .ok
      { network := network
        application := { a.application with
          blockchain := bc
          pool := pool
          times := fun n => a.application.times (n + 1)
          guids := fun n => a.application.guids (n + 1) } } := by
    rw [onTimer, if_pos ⟨hne, hchildless⟩, createNext_of_blockCreate hblock]
    simp only [ok_bind, if_neg hnext]
    rw [addBlockToState_of_addBlock hadd, ok_bind]
    exact broadcastBlock_ok hnext hwrite hsize
  obtain ⟨network, htimer⟩ := htick
  exact ⟨network, reachable.timer htimer⟩

theorem Reachable.run {state : State} (h : Reachable S state) :
    ∃ events, Run S state.application.publicKey state.application.secretKey events
      (storeOf state) := by
  induction h with
  | start hgenesis => exact createGenesis_run hgenesis
  | receive reachable hmessage ih => exact (handleMessage_continues hmessage).running ih
  | timer reachable htimer ih => exact (onTimer_continues htimer).running ih
  | command reachable value recipient ih =>
      exact (handleSendCommand_continues value recipient).running ih
  | @network state reachable network ih => exact (Continues.of_eq rfl rfl rfl).running ih

end Refinement

end Whosecoin.NodeRuns

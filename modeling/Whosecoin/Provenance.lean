import Whosecoin.HistoryBinding
import Whosecoin.NodeRuns

/-!
Whatever a node has received, its blocks have been created or accepted with hashes that
were computed, and its pending transactions are genuine.
-/

namespace Whosecoin.Provenance

open Library.Outcomes
open Library.ByteStrings
open Cryptography
open TupleParser
open TupleFormat
open Transactions
open TransactionSchema
open Accounts
open Blocks
open BlockSchema
open Blockchains
open Pools
open Networks
open Handlers
open BlockDelivery
open HistoryBinding
open NodeRuns

/-- Transactions are pending whether or not the keys of the node fit together. -/
abbrev anyKeys : PublicKey → SecretKey → Prop :=
  fun _ _ => True

/-- The set has the strings that were hashed for the block and its ancestors. -/
def Hashed (S : Sodium) (hashed : Set (List UInt8)) (block : BlockPtr) : Prop :=
  ∃ strings, History S anyKeys block strings ∧ ∀ string ∈ strings, string ∈ hashed

/-- The blocks have a history, and the pending transactions are genuine. -/
structure Traced (S : Sodium) (store : Store) : Prop where
  blocks : ∀ block, Representation.Stored store.blockchain block →
    ∃ strings, History S anyKeys block strings
  principal : ∃ strings, History S anyKeys store.blockchain.principal strings
  pool : ∀ txn ∈ store.pool.list, Genuine S anyKeys txn

variable {S : Sodium} {KeyPair : PublicKey → SecretKey → Prop}

section Hashing

variable {hashed : Set (List UInt8)} {b c : BlockPtr}

theorem Hashed.of_suffix (h : Hashed S hashed c) (hsuffix : b <:+ c) : Hashed S hashed b := by
  induction c with
  | nil =>
      rw [List.suffix_nil.mp hsuffix]
      exact h
  | cons data prev ih =>
      rcases List.suffix_cons_iff.mp hsuffix with rfl | hprev
      · exact h
      · obtain ⟨strings, hhistory, hall⟩ := h
        obtain ⟨messages, rest, rfl, -, hrest⟩ := hhistory.cons
        exact ih ⟨rest, hrest, (List.forall_mem_append.mp hall).2⟩ hprev

theorem Hashed.alike (hfree : S.CollisionFree hashed)
    (hzero : ∀ string ∈ hashed, S.generichash string ≠ Bytes.zero generichashBytes)
    (hb : Hashed S hashed b) (hc : Hashed S hashed c) (h : blockGetHash b = blockGetHash c) :
    List.Forall₂ AlikeChains.Alike b c := by
  obtain ⟨strings, hbs, hball⟩ := hb
  obtain ⟨strings', hcs, hcall⟩ := hc
  exact (histories_alike hfree hzero hbs hball hcs hcall h).2

theorem Hashed.eq_nil
    (hzero : ∀ string ∈ hashed, S.generichash string ≠ Bytes.zero generichashBytes)
    (hb : Hashed S hashed b) (h : blockGetHash b = Bytes.zero generichashBytes) : b = [] := by
  cases b with
  | nil => rfl
  | cons data prev =>
      obtain ⟨strings, hhistory, hall⟩ := hb
      exact absurd h (hash_ne_zero hhistory fun string hs => hzero string (hall string hs))

end Hashing

section Genuineness

theorem genuine_of_verifies {t : TransactionMessage} (h : t.Verifies S) :
    Genuine S KeyPair (t.transaction S) := by
  obtain ⟨tuple, -, hrep⟩ := @tupleParse_of_encode
    ⟨(Value.tuple t.values).encode.length,
      (Value.tuple t.values).encode ++ []⟩ t.values [] rfl le_rfl
  apply Genuine.accepted
  rw [transactionCreateFromTuple_eq hrep, if_pos h]

theorem genuine_of_history {data : Block} {prev : BlockPtr} {strings : List (List UInt8)}
    (h : History S KeyPair (data :: prev) strings) :
    ∀ txn ∈ data.transactions, Genuine S KeyPair txn := by
  cases h with
  | create hprev htxns hblock =>
      obtain ⟨-, -, -, accounts, -, rfl⟩ := blockCreate_spec hblock
      exact htxns
  | accept hprev htuple hblock =>
      obtain ⟨-, sortitionHash, accounts, hchecks, rfl⟩ := message_of_accept htuple hblock
      intro txn htxn
      obtain ⟨t, ht, rfl⟩ := List.mem_map.mp htxn
      exact genuine_of_verifies (hchecks.transactions t ht)

end Genuineness

section Pool

theorem mem_poolAdd {pool : Pool} {txn other : Transaction}
    (h : other ∈ (poolAdd pool txn).list) : other ∈ pool.list ∨ other = txn := by
  rw [poolAdd] at h
  split_ifs at h with hfound
  · exact Or.inl h
  · rcases List.mem_append.mp h with hold | hnew
    · exact Or.inl hold
    · exact Or.inr (List.mem_singleton.mp hnew)

theorem mem_foldl_poolAdd {pool : Pool} {txns : List Transaction} {other : Transaction}
    (h : other ∈ (txns.foldl poolAdd pool).list) : other ∈ pool.list ∨ other ∈ txns := by
  induction txns generalizing pool with
  | nil => exact Or.inl h
  | cons txn txns ih =>
      rcases ih h with hpool | htxns
      · rcases mem_poolAdd hpool with hold | rfl
        · exact Or.inl hold
        · exact Or.inr List.mem_cons_self
      · exact Or.inr (List.mem_cons_of_mem txn htxns)

theorem genuine_onExtended {block prev : BlockPtr} {pool pool' : Pool}
    (h : onExtended block prev pool = .ok pool') {strings : List (List UInt8)}
    (hprev : History S KeyPair prev strings)
    (hpool : ∀ txn ∈ pool.list, Genuine S KeyPair txn) :
    ∀ txn ∈ pool'.list, Genuine S KeyPair txn := by
  induction prev generalizing pool strings with
  | nil =>
      rw [onExtended] at h
      split at h
      · cases h
        exact hpool
      · cases h
  | cons data earlier ih =>
      rw [onExtended] at h
      split at h
      · cases h
        exact hpool
      · obtain ⟨messages, rest, -, -, hhistory⟩ := hprev.cons
        refine ih h hhistory ?_
        intro txn htxn
        rcases mem_foldl_poolAdd htxn with hold | hblock
        · exact hpool txn hold
        · exact genuine_of_history hprev txn hblock

end Pool

section Steps

variable {a b : State}

theorem Traced.of_application (h : Traced S (storeOf a)) (hsame : b.application = a.application) :
    Traced S (storeOf b) := by
  rw [storeOf, hsame]
  exact h

theorem Traced.pending {txn : Transaction} (h : Traced S (storeOf a))
    (htxn : Genuine S anyKeys txn) : Traced S (storeOf (addPending a txn)) where
  blocks := h.blocks
  principal := h.principal
  pool := by
    intro other hother
    rcases mem_poolAdd hother with hold | rfl
    · exact h.pool other hold
    · exact htxn

theorem Traced.add {block : BlockPtr} {added : Bool} (h : Traced S (storeOf a))
    {strings : List (List UInt8)} (hblock : History S anyKeys block strings)
    (hadd : addBlockToState a block = .ok (added, b)) : Traced S (storeOf b) := by
  obtain ⟨bc, pool, hstore, rfl⟩ := addBlockToState_spec hadd
  obtain ⟨r, hr, -, rfl⟩ := addBlock_ok hstore
  rw [addBlock, hr, ok_bind, bind_eq_ok] at hstore
  obtain ⟨pool', hpool, hstore⟩ := hstore
  cases hstore
  obtain ⟨principal, hprincipal⟩ := h.principal
  constructor
  · intro other hother
    rcases blockchainAddBlock_cases hr with ⟨-, rfl⟩ | ⟨data, prev, rfl, hnew, hstored⟩
    · exact h.blocks other hother
    · rcases (Representation.stored_storedAs_iff hnew hstored other).mp hother with hold | rfl
      · exact h.blocks other hold
      · exact ⟨strings, hblock⟩
  · rcases extended_cases hr with ⟨-, hsame⟩ | ⟨-, hnew⟩
    · exact ⟨principal, hsame ▸ hprincipal⟩
    · exact ⟨strings, hnew ▸ hblock⟩
  · rcases extended_cases hr with ⟨hnone, -⟩ | ⟨hsome, -⟩
    · rw [hnone] at hpool
      cases hpool
      exact h.pool
    · rw [hsome, List.foldlM_cons, bind_eq_ok] at hpool
      obtain ⟨next, hnext, hpool⟩ := hpool
      cases hpool
      exact genuine_onExtended hnext hprincipal h.pool

theorem Traced.drained {prev next : BlockPtr} (h : Traced S (storeOf a))
    (hcreate : createNext S a prev = .ok (next, b)) : Traced S (storeOf b) := by
  obtain ⟨-, rfl⟩ := createNext_spec hcreate
  exact ⟨h.blocks, h.principal, fun txn htxn => nomatch htxn⟩

theorem Traced.create {prev next : BlockPtr} {c : State} {added : Bool}
    (h : Traced S (storeOf a)) {strings : List (List UInt8)}
    (hprev : History S anyKeys prev strings)
    (hne : next ≠ []) (hcreate : createNext S a prev = .ok (next, b))
    (hadd : addBlockToState b next = .ok (added, c)) : Traced S (storeOf c) := by
  have hdrained := h.drained hcreate
  obtain ⟨hblock, -⟩ := createNext_spec hcreate
  obtain ⟨data, rfl⟩ := Chains.eq_cons_of_blockCreate hblock hne
  exact hdrained.add (.create hprev h.pool hblock) hadd

theorem Traced.broadcast {block : BlockPtr} (h : Traced S (storeOf a))
    (hbroadcast : broadcastBlock a block = .ok b) : Traced S (storeOf b) := by
  obtain ⟨hblockchain, hpool⟩ := broadcastBlock_application hbroadcast
  rw [storeOf, hblockchain, hpool]
  exact h

theorem Traced.fork {prev : BlockPtr} (h : Traced S (storeOf a)) {strings : List (List UInt8)}
    (hprev : History S anyKeys prev strings) (hfork : forkAt S a prev = .ok b) :
    Traced S (storeOf b) := by
  rw [forkAt] at hfork
  split at hfork
  · rw [bind_eq_ok] at hfork
    obtain ⟨⟨next, c⟩, hcreate, hfork⟩ := hfork
    simp only at hfork
    split at hfork
    · cases hfork
      exact h.drained hcreate
    · rename_i hne
      rw [bind_eq_ok] at hfork
      obtain ⟨⟨added, d⟩, hadd, hfork⟩ := hfork
      have hcreated := h.create hprev hne hcreate hadd
      simp only at hfork
      split at hfork
      · exact hcreated.broadcast hfork
      · cases hfork
        exact hcreated
  · cases hfork
    exact h

theorem Traced.lookup (h : Traced S (storeOf a)) (hash : Hash) :
    ∃ strings, History S anyKeys (blockchainGetBlock a.application.blockchain hash) strings := by
  rcases eq_or_ne (blockchainGetBlock a.application.blockchain hash) [] with hnull | hfound
  · rw [hnull]
    exact ⟨[], .null⟩
  · exact h.blocks _ (Representation.stored_blockchainGetBlock hfound)

theorem Traced.receive {tuple : Tuple} {ws : List Value} (h : Traced S (storeOf a))
    (hrep : Represents tuple ws) (hreceive : receiveBlock S a tuple = .ok b) :
    Traced S (storeOf b) := by
  rw [receiveBlock, bind_eq_ok] at hreceive
  obtain ⟨block, hblock, hreceive⟩ := hreceive
  split at hreceive
  · cases hreceive
    exact h
  · rename_i hne
    rcases block with _ | ⟨data, prev⟩
    · exact absurd rfl hne
    obtain ⟨m, rfl, -⟩ := exists_message_of_accepted hrep hblock
    obtain ⟨⟨hash, rfl⟩, -⟩ := Chains.extends_of_blockCreateFromTuple hblock
    obtain ⟨strings, hprev⟩ := h.lookup hash
    rw [bind_eq_ok] at hreceive
    obtain ⟨⟨added, c⟩, hadd, hreceive⟩ := hreceive
    have hadded := h.add (.accept hprev hrep hblock) hadd
    simp only at hreceive
    split at hreceive
    · exact hadded.fork hprev hreceive
    · cases hreceive
      exact hadded

theorem Traced.receiveTransaction {tuple : Tuple} (h : Traced S (storeOf a))
    (hreceive : Handlers.receiveTransaction S a tuple = .ok b) : Traced S (storeOf b) := by
  rw [Handlers.receiveTransaction, bind_eq_ok] at hreceive
  obtain ⟨result, hresult, hreceive⟩ := hreceive
  cases result with
  | none =>
      cases hreceive
      exact h
  | some txn =>
      cases hreceive
      exact h.pending (.accepted hresult)

end Steps

section Runs

variable {a b : State} {socket : Nat} {msg : Option Tuple}

theorem Traced.onBlock (h : Traced S (storeOf a))
    (hmsg : ∀ tuple ∈ msg, ∃ vs, Represents tuple vs)
    (hrun : Handlers.onBlock S socket msg a = .ok b) : Traced S (storeOf b) := by
  cases msg with
  | none => cases hrun
  | some tuple =>
      obtain ⟨vs, hrep⟩ := hmsg tuple rfl
      exact h.receive hrep hrun

theorem Traced.onBlocksResponse (h : Traced S (storeOf a))
    (hmsg : ∀ tuple ∈ msg, ∃ vs, Represents tuple vs)
    (hrun : Handlers.onBlocksResponse S socket msg a = .ok b) : Traced S (storeOf b) := by
  cases msg with
  | none => cases hrun
  | some tuple =>
      obtain ⟨vs, hrep⟩ := hmsg tuple rfl
      refine foldlM_invariant _ (fun state => Traced S (storeOf state)) ?_ _ a b h hrun
      intro state i state' hstate hstep
      obtain ⟨sub, ws, -, -, hsub, hreceive⟩ := (subTuple_iff hrep _ _).mp hstep
      exact hstate.receive hsub hreceive

theorem Traced.onTransaction (h : Traced S (storeOf a))
    (hrun : Handlers.onTransaction S socket msg a = .ok b) : Traced S (storeOf b) := by
  cases msg with
  | none => cases hrun
  | some tuple => exact h.receiveTransaction hrun

theorem Traced.onPoolResponse (h : Traced S (storeOf a))
    (hrun : Handlers.onPoolResponse S socket msg a = .ok b) : Traced S (storeOf b) := by
  cases msg with
  | none => cases hrun
  | some tuple =>
      refine foldlM_invariant _ (fun state => Traced S (storeOf state)) ?_ _ a b h hrun
      intro state i state' hstate hstep
      rw [bind_eq_ok] at hstep
      obtain ⟨sub, -, hreceive⟩ := hstep
      exact hstate.receiveTransaction hreceive

theorem Traced.onTimer (h : Traced S (storeOf a)) (hrun : Handlers.onTimer S a = .ok b) :
    Traced S (storeOf b) := by
  rw [Handlers.onTimer] at hrun
  split at hrun
  · rw [bind_eq_ok] at hrun
    obtain ⟨⟨next, c⟩, hcreate, hrun⟩ := hrun
    simp only at hrun
    split at hrun
    · cases hrun
      exact h.drained hcreate
    · rename_i hne
      rw [bind_eq_ok] at hrun
      obtain ⟨⟨added, d⟩, hadd, hrun⟩ := hrun
      obtain ⟨strings, hprincipal⟩ := h.principal
      exact (h.create hprincipal hne hcreate hadd).broadcast hrun
  · cases hrun
    exact h

theorem Traced.handlers {type : UInt16} {handler : Handler Globals} (h : Traced S (storeOf a))
    (hhandler : Handlers.handlers S type = some handler)
    (hmsg : ∀ tuple ∈ msg, ∃ vs, Represents tuple vs)
    (hrun : handler socket msg a = .ok b) : Traced S (storeOf b) := by
  rw [Handlers.handlers] at hhandler
  split at hhandler <;> cases hhandler
  · exact h.of_application (onConnect_application hrun)
  · exact h.of_application (onDisconnect_application hrun)
  · exact h.of_application (onHandshake_application hrun)
  · exact h.of_application (onPeersRequest_application hrun)
  · exact h.of_application (onPeersResponse_application hrun)
  · exact h.of_application (onBlocksRequest_application hrun)
  · exact h.onBlocksResponse hmsg hrun
  · exact h.of_application (onPoolRequest_application hrun)
  · exact h.onPoolResponse hrun
  · exact h.onBlock hmsg hrun
  · exact h.onTransaction hrun

theorem Traced.dispatch {type : UInt16} {buffer : Buffer} (h : Traced S (storeOf a))
    (hrun : Networks.dispatch (Handlers.handlers S) socket type buffer a = .ok b) :
    Traced S (storeOf b) := by
  rw [Networks.dispatch] at hrun
  split at hrun
  · cases hrun
    exact h
  · rename_i handler hhandler
    split_ifs at hhandler with htype
    simp only [bind_eq_ok] at hrun
    obtain ⟨tuple, hparse, c, hc, -, -, hrun⟩ := hrun
    cases hrun
    refine h.handlers hhandler ?_ hc
    rintro parsed hparsed
    obtain rfl := Option.mem_def.mp hparsed
    obtain ⟨vs, hrep, -⟩ := represents_of_tupleParse hparse
    exact ⟨vs, hrep⟩

theorem Traced.handleMessage {message : List UInt8} {len : Nat} (h : Traced S (storeOf a))
    (hrun : Networks.handleMessage (Handlers.handlers S) socket a message len = .ok b) :
    Traced S (storeOf b) := by
  simp only [Networks.handleMessage, bind_eq_ok] at hrun
  obtain ⟨guid, -, length, -, type, -, hrun⟩ := hrun
  split at hrun
  · exact h.dispatch hrun
  split at hrun
  · rw [bind_eq_ok] at hrun
    obtain ⟨c, hc, hrun⟩ := hrun
    rw [bind_eq_ok] at hrun
    obtain ⟨network, -, hrun⟩ := hrun
    cases hrun
    have hdispatched := h.dispatch hc
    exact hdispatched.of_application rfl
  · cases hrun
    exact h

theorem traced_createGenesis {pk : PublicKey} {sk : SecretKey} {port : Int32}
    {times : Nat → UInt64} {guids : Nat → Messages.Guid}
    (h : createGenesis S (initialState pk sk port times guids) = .ok b) :
    Traced S (storeOf b) := by
  have hstart : Traced S (storeOf { initialState pk sk port times guids with
      application := { (initialState pk sk port times guids).application with
        times := fun n => times (n + 1) } }) :=
    ⟨fun block hblock => (nomatch hblock), ⟨[], .null⟩, fun txn htxn => nomatch htxn⟩
  simp only [createGenesis, bind_eq_ok] at h
  obtain ⟨block, hblock, h⟩ := h
  have hne := genesis_ne_nil hblock
  rw [if_neg hne, bind_eq_ok] at h
  obtain ⟨⟨added, c⟩, hadd, h⟩ := h
  obtain ⟨data, rfl⟩ := Chains.eq_cons_of_blockCreate hblock hne
  exact (hstart.add (.create .null (List.forall_mem_nil _) hblock) hadd).broadcast h

/-- Whatever a node does, its blocks have a history. -/
theorem traced_of_reachable (h : Reachable S a) : Traced S (storeOf a) := by
  induction h with
  | start hgenesis => exact traced_createGenesis hgenesis
  | receive reachable hmessage ih => exact ih.handleMessage hmessage
  | timer reachable htimer ih => exact ih.onTimer htimer
  | command reachable value recipient ih => exact ih.pending (.created trivial recipient value 0)
  | network reachable network ih => exact ih

theorem exists_hashed (h : Reachable S a) : ∃ strings : List (List UInt8),
    ∀ block, Representation.Stored a.application.blockchain block →
      Hashed S {string | string ∈ strings} block := by
  have hall : ∀ blocks : List BlockPtr,
      (∀ block ∈ blocks, ∃ strings, History S anyKeys block strings) →
        ∃ strings : List (List UInt8), ∀ block ∈ blocks,
          Hashed S {string | string ∈ strings} block := by
    intro blocks hblocks
    induction blocks with
    | nil => exact ⟨[], fun block hblock => nomatch hblock⟩
    | cons block rest ih =>
        obtain ⟨hfirst, hrest⟩ := List.forall_mem_cons.mp hblocks
        obtain ⟨strings, hhistory⟩ := hfirst
        obtain ⟨strings', hhashed⟩ := ih hrest
        refine ⟨strings ++ strings', List.forall_mem_cons.mpr ⟨?_, ?_⟩⟩
        · exact ⟨strings, hhistory, fun string hs => List.mem_append_left _ hs⟩
        · intro other hother
          obtain ⟨own, hown, hmem⟩ := hhashed other hother
          exact ⟨own, hown, fun string hs => List.mem_append_right _ (hmem string hs)⟩
  exact hall _ (traced_of_reachable h).blocks

end Runs

end Whosecoin.Provenance

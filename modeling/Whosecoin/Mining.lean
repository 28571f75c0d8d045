import Whosecoin.PrincipalOrder
import Whosecoin.Staking

/-!
The timer of a node, which `on_extended` starts again whenever the principal changes. A
node that may stake on its principal block never stops mining.
-/

namespace Whosecoin.Mining

open Library.Outcomes
open Library.ByteStrings
open Cryptography
open Transactions
open Accounts
open Blocks
open Blockchains
open BlockTree
open PrincipalChain
open Pools
open Networks
open Handlers
open NodeRuns
open BlockReception
open PrincipalOrder

variable {S : Sodium}

section Extension

variable {pk : PublicKey} {sk : SecretKey} {events more later : List Event} {a b c : Store}

/-- The block is added with a call of `on_extended`, which starts the timer. -/
def CallsOnExtended (store : Store) : Event → Prop
  | .accepted block _ | .created _ _ block _ =>
      ∃ r, blockchainAddBlock store.blockchain block = .ok r ∧ r.extended ≠ []
  | _ => False

theorem extended_iff {stored : List BlockPtr} {bc : Blockchain} {block : BlockPtr} {r : AddResult}
    (tree : Tree stored bc) (h : blockchainAddBlock bc block = .ok r) :
    r.extended ≠ [] ↔ r.blockchain.principal ≠ bc.principal := by
  rcases extended_cases h with ⟨hnone, hsame⟩ | ⟨hone, hnew⟩
  · simp [hnone, hsame]
  · rcases blockchainAddBlock_cases h with ⟨-, rfl⟩ | ⟨data, prev, rfl, hget, -⟩
    · cases hone
    · have hfresh := (tree.get_eq_none_iff _).mp hget
      rw [hnew, hone]
      exact iff_of_true (List.cons_ne_nil _ _) (PrincipalChain.ne_principal tree hfresh)

theorem tree_of_run (run : Run S pk sk events a) :
    Tree (a.blockchain.blocks.map Prod.snd) a.blockchain := by
  obtain ⟨stored, built⟩ := run.nodeRun.builtRun
  have htree := built.tree
  have hstored : a.blockchain.blocks.map Prod.snd = stored := by
    rw [htree.blocks_eq, List.map_map]
    exact List.map_id stored
  exact hstored ▸ htree

theorem callsOnExtended_iff {event : Event} (run : Run S pk sk events a)
    (hstep : NodeRuns.Step S pk sk a event b) :
    CallsOnExtended a event ↔ b.blockchain.principal ≠ a.blockchain.principal := by
  have htree := tree_of_run run
  have hadded : ∀ {block added bc pool pool'},
      addBlock a.blockchain pool block = .ok (added, bc, pool') →
        ((∃ r, blockchainAddBlock a.blockchain block = .ok r ∧ r.extended ≠ []) ↔
          bc.principal ≠ a.blockchain.principal) := by
    intro block added bc pool pool' hadd
    obtain ⟨r, hr, -, rfl⟩ := addBlock_ok hadd
    simp only [hr, Except.ok.injEq, exists_eq_left']
    exact extended_iff htree hr
  cases hstep with
  | pending hgenuine => exact iff_of_false id (not_not_intro rfl)
  | accept hblock hne hadd => exact hadded hadd
  | create hmay hblock hne hadd => exact hadded hadd
  | fail hmay hblock => exact iff_of_false id (not_not_intro rfl)

/-- A principal that is one again later has been it all the time: once its chain has
been left, one of its blocks is outdone or it has a child. -/
theorem principal_never_returns (run : Run S pk sk events a)
    (run' : Run S pk sk (events ++ more) b) (run'' : Run S pk sk (events ++ more ++ later) c)
    (hback : c.blockchain.principal = a.blockchain.principal) :
    b.blockchain.principal = a.blockchain.principal := by
  have hgrown := (blocks_grow_run run run').map Prod.snd
  have hgrown' := (blocks_grow_run run' run'').map Prod.snd
  have htree := tree_of_run run
  have htree' := tree_of_run run'
  have htree'' := tree_of_run run''
  rcases htree.principal_mem with hnull | hmem
  · have hempty := htree''.stored_eq_nil_of_principal (hback.trans hnull)
    rw [hempty, List.prefix_nil] at hgrown'
    rw [hnull]
    refine htree'.principal_mem.resolve_right ?_
    rw [hgrown']
    exact List.not_mem_nil
  · obtain ⟨hbest, hleaf⟩ :=
      (principal_iff htree'' ((hgrown.trans hgrown').mem hmem)).mp hback.symm
    refine ((principal_iff htree' (hgrown.mem hmem)).mpr ⟨?_, ?_⟩).symm
    · rintro ⟨rival, data, prev, hrival, hdata, hpreferred⟩
      have hsibling := htree'.suffix_mem (hgrown.mem hmem) hdata (List.cons_ne_nil data prev)
      exact hbest ⟨rival, data, prev, hgrown'.mem hrival, hdata,
        (Preferred.mono hgrown' hrival hsibling).mpr hpreferred⟩
    · rw [List.eq_nil_iff_forall_not_mem] at hleaf ⊢
      intro child hchild
      obtain ⟨hstored, htail⟩ := mem_childrenIn.mp hchild
      exact hleaf child (mem_childrenIn.mpr ⟨hgrown'.mem hstored, htail⟩)

theorem run_split (run : Run S pk sk (events ++ more) b) (hne : events ≠ []) :
    ∃ a, Run S pk sk events a := by
  induction more using List.reverseRecOn generalizing b with
  | nil => exact ⟨b, (List.append_nil events) ▸ run⟩
  | append_singleton more event ih =>
      rw [← List.append_assoc] at run
      generalize hevents : (events ++ more) ++ [event] = all at run
      cases run with
      | start hblock hnew hadd =>
          have hnil := (List.append_inj' (hevents.trans (List.nil_append _).symm) rfl).1
          exact absurd (List.append_eq_nil_iff.mp hnil).1 hne
      | step run hstep =>
          obtain ⟨rfl, -⟩ := List.append_inj' hevents rfl
          exact ih run

theorem run_step {event : Event} (run : Run S pk sk events a)
    (run' : Run S pk sk (events ++ [event]) b) : NodeRuns.Step S pk sk a event b := by
  generalize hevents : events ++ [event] = all at run'
  cases run' with
  | start hblock hnew hadd =>
      have hnil := (List.append_inj' (hevents.trans (List.nil_append _).symm) rfl).1
      exact absurd hnil (events_ne_nil run)
  | step run'' hstep =>
      obtain ⟨rfl, hevent⟩ := List.append_inj' hevents rfl
      cases hevent
      rw [run_unique run run'']
      exact hstep

/-- Between two moments `on_extended` has been called exactly when the principal is
another one at the second moment. -/
theorem principal_ne_iff (run : Run S pk sk events a) (run' : Run S pk sk (events ++ more) b) :
    b.blockchain.principal ≠ a.blockchain.principal ↔
      ∃ before event after mid, more = before ++ event :: after ∧
        Run S pk sk (events ++ before) mid ∧ CallsOnExtended mid event := by
  constructor
  · intro hchanged
    induction more using List.reverseRecOn generalizing b with
    | nil =>
        rw [List.append_nil] at run'
        exact absurd (by rw [run_unique run run']) hchanged
    | append_singleton more event ih =>
        rw [← List.append_assoc] at run'
        obtain ⟨mid, hmid⟩ :=
          run_split run' (List.append_ne_nil_of_left_ne_nil (events_ne_nil run) _)
        by_cases hsame : mid.blockchain.principal = a.blockchain.principal
        · refine ⟨more, event, [], mid, rfl, hmid, ?_⟩
          rw [callsOnExtended_iff hmid (run_step hmid run'), hsame]
          exact hchanged
        · obtain ⟨before, event', after, mid', rfl, hrun, hcalls⟩ := ih hmid hsame
          refine ⟨before, event', after ++ [event], mid', ?_, hrun, hcalls⟩
          rw [List.append_assoc, List.cons_append]
  · rintro ⟨before, event, after, mid, rfl, hmid, hcalls⟩ hback
    have hsplit :
        events ++ (before ++ event :: after) = events ++ (before ++ [event]) ++ after := by
      simp
    rw [hsplit] at run'
    have hne := List.append_ne_nil_of_left_ne_nil (events_ne_nil run) (before ++ [event])
    obtain ⟨next, hnext⟩ := run_split run' hne
    have hsame := principal_never_returns run hnext run' hback
    rw [← List.append_assoc] at hnext
    have hmidsame := principal_never_returns run hmid hnext hsame
    rw [callsOnExtended_iff hmid (run_step hmid hnext), hsame, hmidsame] at hcalls
    exact hcalls rfl

theorem blocks_ne_nil (run : Run S pk sk events a) : a.blockchain.blocks ≠ [] := by
  induction run with
  | start hblock hne hadd =>
      obtain ⟨r, hr, -, rfl⟩ := addBlock_ok hadd
      rcases blockchainAddBlock_cases hr with ⟨⟨old, hold⟩, -⟩ |
        ⟨data, prev, rfl, -, hstored⟩
      · cases hold
      · rw [hstored.blocks_eq]
        exact List.cons_ne_nil _ _
  | step run hstep ih =>
      intro hempty
      have hgrown := blocks_grow_step hstep
      rw [hempty, List.prefix_nil] at hgrown
      exact ih hgrown

theorem principal_ne_nil (run : Run S pk sk events a) : a.blockchain.principal ≠ [] := by
  intro hnull
  have hempty := (tree_of_run run).stored_eq_nil_of_principal hnull
  exact blocks_ne_nil run (List.map_eq_nil_iff.mp hempty)

end Extension

section Creation

/-- `block_create` fails exactly where its creator may not stake: the check of the
ledger compares an unsigned balance with zero. -/
theorem blockCreate_eq_nil_iff (now : UInt64) (pk : PublicKey) (sk : SecretKey) (prev : BlockPtr)
    (txns : List Transaction) :
    blockCreate S now pk sk prev txns = .ok [] ↔ isStakingAllowed prev pk = false := by
  constructor
  · intro hcreate
    by_contra hallowed
    rw [Bool.not_eq_false] at hallowed
    obtain ⟨accounts, hcreated⟩ :=
      @PendingTransactions.blockCreate_of_staking S pk sk now prev txns hallowed
    rw [hcreated] at hcreate
    cases hcreate
  · intro hrefused
    rw [blockCreate, hrefused]
    rfl

variable {a b : State}

/-- The hash of the block that the node creates next is the one of a stored block. -/
def Collides (S : Sodium) (state : State) : Prop :=
  ∃ next, blockCreate S (state.application.times 0) state.application.publicKey
      state.application.secretKey state.application.blockchain.principal
      state.application.pool.list = .ok next ∧ next ≠ [] ∧
    state.application.blockchain.blocks.get (blockGetHash next) ≠ none

/-- The node may create a block on its principal block. -/
def mayStake (state : State) : Bool :=
  isStakingAllowed state.application.blockchain.principal state.application.publicKey

theorem principal_childless (h : Reachable S a) (pk : PublicKey) :
    blockGetChildWithPublicKey a.application.blockchain a.application.blockchain.principal pk =
      [] := by
  obtain ⟨events, run⟩ := h.run
  have htree := tree_of_run run
  have hchildren := htree.children_eq _ (principal_ne_nil run)
  rw [htree.leaf.stop] at hchildren
  rw [blockGetChildWithPublicKey]
  exact congrArg (fun children => (List.find? _ children).getD []) hchildren

theorem not_collides (h : Reachable S a)
    (hfree : ∀ next, S.CollisionFree (Equivocation.headers a.application.blockchain next))
    (hzero : ∀ next, ∀ string ∈ Equivocation.headers a.application.blockchain next,
      S.generichash string ≠ Bytes.zero generichashBytes) : ¬ Collides S a := by
  rintro ⟨next, hnext, hne, hknown⟩
  obtain ⟨events, run⟩ := h.run
  have hmay : MayExtend a.application.publicKey (storeOf a) a.application.blockchain.principal :=
    ⟨principal_ne_nil run, .inl rfl, principal_childless h _⟩
  obtain ⟨r, hr, hadded⟩ := Equivocation.create_added run.nodeRun (hmay.stored run.nodeRun)
    hmay.childless hnext hne (hfree next) (hzero next)
  rcases blockchainAddBlock_cases hr with ⟨-, rfl⟩ | ⟨data, prev, rfl, hnew, -⟩
  · cases hadded
  · exact hknown hnew

theorem not_collides_of_create {data : Block} {prev : BlockPtr}
    (hcreate : blockCreate S (a.application.times 0) a.application.publicKey
      a.application.secretKey a.application.blockchain.principal a.application.pool.list =
        .ok (data :: prev))
    (hnew : a.application.blockchain.blocks.get data.hash = none) : ¬ Collides S a := by
  rintro ⟨next, hnext, -, hknown⟩
  rw [hcreate, Except.ok.injEq] at hnext
  subst hnext
  exact hknown hnew

theorem forkFits_of_create {next : BlockPtr} {bytes : List UInt8}
    (hcreate : blockCreate S (a.application.times 0) a.application.publicKey
      a.application.secretKey a.application.blockchain.principal a.application.pool.list =
        .ok next)
    (hwrite : blockWrite [] next = .ok bytes) (hsize : bytes.length < 2 ^ 30) :
    ForkFits S a a.application.blockchain.principal := by
  intro _ _ next' bytes' hnext _ _ hwrite'
  rw [hcreate, Except.ok.injEq] at hnext
  rw [← hnext, hwrite, Except.ok.injEq] at hwrite'
  rw [← hwrite', Messages.messageHeaderSize]
  omega

/-- What a tick of the timer has done: where the node may stake, its new block is the
principal and holds all pending transactions; elsewhere they are lost. -/
def Mines (a b : State) : Prop :=
  b.application.pool = poolCreate ∧
    if mayStake a then
      ∃ data, b.application.blockchain.principal = data :: a.application.blockchain.principal ∧
        data.publicKey = a.application.publicKey ∧
        data.transactions = a.application.pool.list
    else b.application.blockchain = a.application.blockchain

theorem onTimer_refused (h : Reachable S a) (hrefused : mayStake a = false) :
    onTimer S a = .ok { a with application := { a.application with
      pool := poolCreate
      times := fun n => a.application.times (n + 1) } } := by
  obtain ⟨events, run⟩ := h.run
  exact onTimer_failed (principal_ne_nil run) (principal_childless h _)
    ((blockCreate_eq_nil_iff _ _ _ _ _).mpr hrefused)

/-- The state in which `on_timer` broadcasts its block. -/
def extendedBy (state : State) (data : Block) : State :=
  { state with application := { state.application with
    blockchain :=
      { storeBlock state.application.blockchain data state.application.blockchain.principal with
        principal := data :: state.application.blockchain.principal }
    pool := poolCreate
    times := fun n => state.application.times (n + 1) } }

theorem onTimer_allowed (h : Reachable S a) (hallowed : mayStake a = true)
    (hfresh : ¬ Collides S a) :
    ∃ data, data.publicKey = a.application.publicKey ∧
      data.transactions = a.application.pool.list ∧
      blockCreate S (a.application.times 0) a.application.publicKey a.application.secretKey
        a.application.blockchain.principal a.application.pool.list =
          .ok (data :: a.application.blockchain.principal) ∧
      a.application.blockchain.blocks.get data.hash = none ∧
      onTimer S a =
        broadcastBlock (extendedBy a data) (data :: a.application.blockchain.principal) := by
  obtain ⟨events, run⟩ := h.run
  obtain ⟨next, hnext⟩ := blockCreate_returns S (a.application.times 0) a.application.publicKey
    a.application.secretKey a.application.blockchain.principal a.application.pool.list
  have hne : next ≠ [] := by
    rintro rfl
    have hrefused := (blockCreate_eq_nil_iff _ _ _ _ _).mp hnext
    rw [← mayStake, hallowed] at hrefused
    cases hrefused
  have hnew : a.application.blockchain.blocks.get (blockGetHash next) = none := by
    by_contra hknown
    exact hfresh ⟨next, hnext, hne, hknown⟩
  obtain ⟨data, rfl⟩ := Chains.eq_cons_of_blockCreate hnext hne
  obtain ⟨-, -, -, accounts, -, hdata⟩ := BlockDelivery.blockCreate_spec hnext
  refine ⟨data, by rw [hdata]; rfl, by rw [hdata]; rfl, hnext, hnew, ?_⟩
  have hadd := Reorganisations.addBlock_extend hnew poolCreate
  rw [onTimer, if_pos ⟨principal_ne_nil run, principal_childless h _⟩,
    createNext_of_blockCreate hnext]
  simp only [ok_bind, if_neg hne]
  rw [addBlockToState_of_addBlock hadd, ok_bind]
  rfl

theorem onTimer_returns_iff (h : Reachable S a) (hfresh : ¬ Collides S a) :
    Returns (onTimer S a) ↔ ForkFits S a a.application.blockchain.principal := by
  cases hstake : mayStake a with
  | false =>
      rw [onTimer_refused h hstake]
      refine iff_of_true (returns_ok _) ?_
      intro _ _ next bytes hnext hne
      rw [(blockCreate_eq_nil_iff _ _ _ _ _).mpr hstake, Except.ok.injEq] at hnext
      exact absurd hnext.symm hne
  | true =>
      obtain ⟨data, -, -, hnext, hnew, htimer⟩ := onTimer_allowed h hstake hfresh
      obtain ⟨events, run⟩ := h.run
      have hne := List.cons_ne_nil data a.application.blockchain.principal
      obtain ⟨bytes, hwrite⟩ := blockWrite_returns hne []
      rw [htimer, broadcastBlock_returns_iff hne hwrite]
      constructor
      · intro hfits _ _ next' bytes' hnext' _ _ hwrite'
        rw [hnext, Except.ok.injEq] at hnext'
        rw [← hnext', hwrite, Except.ok.injEq] at hwrite'
        rw [← hwrite']
        exact hfits
      · intro hfits
        exact hfits (principal_ne_nil run) (principal_childless h _) _ bytes hnext hne hnew hwrite

theorem mines_of_onTimer (h : Reachable S a) (hfresh : ¬ Collides S a)
    (htimer : onTimer S a = .ok b) : Mines a b := by
  rw [Mines]
  split_ifs with hstake
  · obtain ⟨data, hkey, htxns, -, -, hrun⟩ := onTimer_allowed h hstake hfresh
    obtain ⟨hblockchain, hpool⟩ := broadcastBlock_application (hrun.symm.trans htimer)
    refine ⟨hpool, data, ?_, hkey, htxns⟩
    rw [hblockchain]
    rfl
  · rw [Bool.not_eq_true] at hstake
    rw [onTimer_refused h hstake, Except.ok.injEq] at htimer
    subst htimer
    exact ⟨rfl, rfl⟩

end Creation

/-- A node with its timer, which fires once each time that it is started. -/
structure Miner where
  state : State
  armed : Bool

/-- `on_extended` has been called from the one state to the other one. -/
def restarted (a b : State) : Bool :=
  b.application.blockchain.principal ≠ a.application.blockchain.principal

/-- The principal is another one after a handler exactly when `on_extended` has been
called in it. -/
theorem restarted_iff {a b : State} (h : Reachable S a) (hcontinues : Continues S a b) :
    ∃ events more, Run S a.application.publicKey a.application.secretKey events (storeOf a) ∧
      Run S a.application.publicKey a.application.secretKey (events ++ more) (storeOf b) ∧
      (restarted a b = true ↔ ∃ before event after mid, more = before ++ event :: after ∧
        Run S a.application.publicKey a.application.secretKey (events ++ before) mid ∧
        CallsOnExtended mid event) := by
  obtain ⟨events, run⟩ := h.run
  obtain ⟨more, run'⟩ := hcontinues.run events run
  refine ⟨events, more, run, run', ?_⟩
  rw [← principal_ne_iff run run', restarted, decide_eq_true_eq]
  rfl

/-- A node from its start on, with its timer. A tick is due only while the timer runs,
and no hash collides on it. -/
inductive Runs (S : Sodium) : Miner → Prop where
  | start {pk : PublicKey} {sk : SecretKey} {port : Int32} {times : Nat → UInt64}
      {guids : Nat → Messages.Guid} {state : State}
      (hgenesis : createGenesis S (initialState pk sk port times guids) = .ok state) :
      Runs S ⟨state, restarted (initialState pk sk port times guids) state⟩
  | tick {state state' : State} (runs : Runs S ⟨state, true⟩) (hfresh : ¬ Collides S state)
      (htimer : onTimer S state = .ok state') : Runs S ⟨state', restarted state state'⟩
  | receive {state state' : State} {armed : Bool} {socket : Nat}
    {message : List UInt8} {len : Nat}
      (runs : Runs S ⟨state, armed⟩)
      (hmessage : handleMessage (handlers S) socket state message len = .ok state') :
      Runs S ⟨state', armed || restarted state state'⟩
  | command {state : State} {armed : Bool} (runs : Runs S ⟨state, armed⟩) (value : UInt64)
      (recipient : PublicKey) : Runs S ⟨handleSendCommand S state value recipient, armed⟩
  | network {state : State} {armed : Bool} (runs : Runs S ⟨state, armed⟩) (network : Network) :
      Runs S ⟨{ state with network := network }, armed⟩

section Runs

theorem Runs.reachable {miner : Miner} (h : Runs S miner) : Reachable S miner.state := by
  induction h with
  | start hgenesis => exact .start hgenesis
  | tick runs hfresh htimer ih => exact ih.timer htimer
  | receive runs hmessage ih => exact ih.receive hmessage
  | command runs value recipient ih => exact ih.command value recipient
  | network runs network ih => exact ih.network network

theorem mayStake_of_not_restarted {a b : State} (hcontinues : Continues S a b)
    (h : restarted a b = false) : mayStake b = mayStake a := by
  have hsame := not_not.mp (of_decide_eq_false h)
  rw [mayStake, mayStake, hsame, hcontinues.publicKey]

theorem Runs.stopped {miner : Miner} (h : Runs S miner) (hstopped : miner.armed = false) :
    mayStake miner.state = false := by
  induction h with
  | start hgenesis =>
      obtain ⟨events, run⟩ := (Reachable.start hgenesis).run
      exact absurd (not_not.mp (of_decide_eq_false hstopped)) (principal_ne_nil run)
  | @tick state state' runs hfresh htimer ih =>
      rw [mayStake_of_not_restarted (onTimer_continues htimer) hstopped]
      by_contra hstake
      rw [Bool.not_eq_false] at hstake
      obtain ⟨-, hmines⟩ := mines_of_onTimer runs.reachable hfresh htimer
      rw [if_pos hstake] at hmines
      obtain ⟨data, hprincipal, -⟩ := hmines
      have hsame := not_not.mp (of_decide_eq_false hstopped)
      rw [hprincipal] at hsame
      exact List.cons_ne_self _ _ hsame
  | receive runs hmessage ih =>
      obtain ⟨harmed, hsame⟩ := Bool.or_eq_false_iff.mp hstopped
      rw [mayStake_of_not_restarted (handleMessage_continues hmessage) hsame]
      exact ih harmed
  | command runs value recipient ih => exact ih hstopped
  | network runs network ih => exact ih hstopped

/-- A node that may stake never stops mining. Its timer runs, its next tick returns
unless the block does not fit into a message, and then the block is the principal and
has all pending transactions; the tick of another node only empties the pool. -/
theorem mining_goes_on {miner : Miner} (h : Runs S miner) :
    (mayStake miner.state = true → miner.armed = true) ∧
      (¬ Collides S miner.state →
        (Returns (onTimer S miner.state) ↔
            ForkFits S miner.state miner.state.application.blockchain.principal) ∧
          ∀ state', onTimer S miner.state = .ok state' → Mines miner.state state') := by
  constructor
  · intro hstake
    by_contra hstopped
    rw [h.stopped (Bool.not_eq_true _ ▸ hstopped)] at hstake
    cases hstake
  · intro hfresh
    exact ⟨onTimer_returns_iff h.reachable hfresh,
      fun state' htimer => mines_of_onTimer h.reachable hfresh htimer⟩

theorem exists_paying {first second : Block} (h : PendingTransactions.Spent first second) :
    ∃ state, Runs transparent ⟨state, true⟩ ∧
      state.application.blockchain = PendingTransactions.firstChain first ∧
      blockCreate transparent (state.application.times 0) state.application.publicKey
        state.application.secretKey state.application.blockchain.principal
        state.application.pool.list = .ok [second, first] := by
  obtain ⟨bytes, hwrite, hsize⟩ := h.sizes [first] (by simp)
  obtain ⟨network, hgenesis⟩ :=
    @createGenesis_ok transparent Chains.minerKey Chains.minerSecret 0
    (fun n => UInt64.ofNat (n + 1)) (fun _ => Messages.guidNull) _ _ h.create_first hwrite hsize
  exact ⟨_, (Runs.start hgenesis).command 2048 Chains.payeeKey, rfl, h.create_second⟩

/-- A node that pays all that it has in its second block. -/
theorem mining_goes_on_payment : ∃ state state', Runs transparent ⟨state, true⟩ ∧
    onTimer transparent state = .ok state' ∧ mayStake state = true ∧ Mines state state' := by
  obtain ⟨first, second, h⟩ := PendingTransactions.exists_spent
  obtain ⟨bytes, hwrite, hsize⟩ := h.sizes [second, first] (by simp)
  obtain ⟨state, hruns, hchain, hcreate⟩ := exists_paying h
  have hnew : state.application.blockchain.blocks.get second.hash = none := by
    rw [hchain]
    show (blockchainCreate.blocks.set first.hash [first]).get second.hash = none
    rw [Library.Maps.Map.get_set, if_neg h.hash_ne]
    rfl
  have hfresh := not_collides_of_create hcreate hnew
  obtain ⟨hreturns, hmines⟩ := (mining_goes_on hruns).2 hfresh
  have hfits := forkFits_of_create hcreate hwrite hsize
  obtain ⟨state', htimer⟩ := hreturns.mpr hfits
  rw [hchain] at hcreate
  obtain ⟨-, hstake, -⟩ := BlockDelivery.blockCreate_spec hcreate
  refine ⟨state, state', hruns, htimer, ?_, hmines state' htimer⟩
  rw [mayStake, hchain]
  exact hstake

end Runs

end Whosecoin.Mining

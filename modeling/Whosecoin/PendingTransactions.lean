import Whosecoin.NodeRuns
import Whosecoin.LedgerRefinement
import Whosecoin.Library.Traces

namespace Whosecoin.PendingTransactions

open Library.Outcomes
open Library.Traces
open Cryptography
open Transactions
open Accounts
open Blocks
open Blockchains
open BlockTree
open PrincipalChain
open LedgerRefinement
open Messages
open Handlers
open Chains
open BlockDelivery
open Pools
open Reorganisations
open NodeRuns

variable {S : Sodium} {pk : PublicKey} {sk : SecretKey}

/-- A run of a node with the stores that it goes through. -/
abbrev NodeTrace (S : Sodium) (pk : PublicKey) (sk : SecretKey) : List (Event × Store) → Prop :=
  Trace (fun event store => Run S pk sk [event] store) (Step S pk sk)

theorem run_of_trace {event : Event} {store : Store} {earlier : List (Event × Store)}
    (h : NodeTrace S pk sk ((event, store) :: earlier)) :
    Run S pk sk (((event, store) :: earlier).map Prod.fst).reverse store := by
  generalize htrace : (event, store) :: earlier = trace at h
  induction h generalizing event store earlier with
  | single run =>
      cases htrace
      exact run
  | cons trace hstep ih =>
      cases htrace
      rw [List.map_cons, List.reverse_cons]
      exact (ih rfl).step hstep

theorem trace_of_run {events : List Event} {store : Store} (h : Run S pk sk events store) :
    ∃ event earlier, NodeTrace S pk sk ((event, store) :: earlier) ∧
      (((event, store) :: earlier).map Prod.fst).reverse = events := by
  induction h with
  | start hblock hne hadd => exact ⟨_, [], .single (.start hblock hne hadd), rfl⟩
  | step run hstep ih =>
      obtain ⟨event, earlier, trace, hevents⟩ := ih
      refine ⟨_, _, .cons trace hstep, ?_⟩
      rw [List.map_cons, List.reverse_cons, hevents]

/-- The transaction with this hash is pending or on the principal chain. -/
def Kept (store : Store) (hash : Hash) : Prop :=
  hash ∈ store.pool.hashes ∨ Confirmed store.blockchain.principal hash

/-- What has been in the pool at some time is still there or confirmed. -/
def NothingLost : List (Event × Store) → Prop
  | [] => True
  | latest :: earlier =>
      ∀ x ∈ latest :: earlier, ∀ hash ∈ x.2.pool.hashes, Kept latest.2 hash

/-- A block that the node creates now on `prev` with all pending transactions is
new and wins the fork. -/
structure Wins (S : Sodium) (pk : PublicKey) (sk : SecretKey) (store : Store) (prev : BlockPtr)
    (now : UInt64) : Prop where
  staking : isStakingAllowed prev pk = true
  fresh : store.blockchain.blocks.get (unsignedHash S now pk sk prev store.pool.list) = none
  leads : Leads store.blockchain prev
    (minDelegate S (S.vrfProofToHash (S.vrfProve sk (blockComputeSeed S prev).toList))
      (nDelegates prev pk)).2

/-- When the pool is emptied for a block, that block wins or nothing in the pool
was unconfirmed. -/
def Spares (S : Sodium) (pk : PublicKey) (sk : SecretKey) (store : Store) : Event → Prop
  | .pending _ => True
  | .accepted _ _ => True
  | .created prev now _ _ | .failed prev now =>
      (∀ hash ∈ store.pool.hashes, Confirmed store.blockchain.principal hash) ∨
        Wins S pk sk store prev now

section Creation

variable {now : UInt64} {prev : BlockPtr} {txns : List Transaction}

theorem nDelegates_ne_zero (h : isStakingAllowed prev pk = true) : nDelegates prev pk ≠ 0 := by
  rcases prev with _ | ⟨data, prev⟩
  · simp [nDelegates, blockGetAccount]
  rw [isStakingAllowed] at h
  rw [nDelegates]
  cases haccount : blockGetAccount (data :: prev) pk with
  | nil => simp [haccount] at h
  | cons account earlier =>
      simp only [haccount] at h
      split at h
      · cases h
      · assumption

theorem blockCreate_of_staking (h : isStakingAllowed prev pk = true) :
    ∃ accounts, blockCreate S now pk sk prev txns =
      .ok (signedBlock S now pk sk prev txns accounts :: prev) := by
  obtain ⟨accounts, hledger, -⟩ :=
    areTransactionsValid_spec prev pk (1 + blockGetHeight prev) txns
  refine ⟨accounts, ?_⟩
  have hdelegates := nDelegates_ne_zero h
  simp only [blockCreate, h, hdelegates, hledger]
  rfl

end Creation

section Steps

variable {store store' : Store} {event : Event}

theorem confirmed_or_abandoned {P : BlockPtr} {hash : Hash} (h : Confirmed P hash)
    (Q : BlockPtr) : Confirmed Q hash ∨ Abandoned P Q hash := by
  obtain ⟨data, hdata, htxn⟩ := h
  obtain ⟨later, prev, rfl⟩ := List.append_of_mem hdata
  by_cases hQ : data :: prev <:+ Q
  · exact Or.inl ⟨data, hQ.subset List.mem_cons_self, htxn⟩
  · exact Or.inr ⟨data, prev, List.suffix_append _ _, hQ, htxn⟩

theorem addBlock_pool {bc bc' : Blockchain} {pool pool' : Pool} {block : BlockPtr} {added : Bool}
    (h : addBlock bc pool block = .ok (added, bc', pool')) (hash : Hash) :
    hash ∈ pool'.hashes ↔ hash ∈ pool.hashes ∨
      Abandoned bc.principal bc'.principal hash := by
  obtain ⟨r, hr, -, rfl⟩ := addBlock_ok h
  obtain ⟨pool'', hrun, hmem⟩ := Reorganisations.addBlock_spec hr pool
  rw [h, Except.ok.injEq, Prod.mk.injEq, Prod.mk.injEq] at hrun
  rw [hrun.2.2]
  exact hmem hash

theorem confirmed_kept (hstep : Step S pk sk store event store') {hash : Hash}
    (h : Confirmed store.blockchain.principal hash) : Kept store' hash := by
  cases hstep with
  | pending hgenuine => exact Or.inr h
  | @accept tuple block added bc pool hblock hne hadd =>
      rcases confirmed_or_abandoned h bc.principal with hconfirmed | habandoned
      · exact Or.inr hconfirmed
      · exact Or.inl ((addBlock_pool hadd hash).mpr (Or.inr habandoned))
  | @create prev next now added bc pool hmay hblock hne hadd =>
      rcases confirmed_or_abandoned h bc.principal with hconfirmed | habandoned
      · exact Or.inr hconfirmed
      · exact Or.inl ((addBlock_pool hadd hash).mpr (Or.inr habandoned))
  | fail hmay hblock => exact Or.inr h

theorem wins_iff_overtakes {prev next : BlockPtr} {now : UInt64}
    (hblock : blockCreate S now pk sk prev store.pool.list = .ok next) (hne : next ≠ []) :
    Wins S pk sk store prev now ↔ Overtakes store.blockchain next := by
  obtain ⟨data, rfl⟩ := Chains.eq_cons_of_blockCreate hblock hne
  obtain ⟨-, hstaking, -, accounts, -, rfl⟩ := blockCreate_spec hblock
  constructor
  · intro hwins
    exact ⟨hwins.fresh, hwins.leads⟩
  · rintro ⟨hfresh, hleads⟩
    exact ⟨hstaking, hfresh, hleads⟩

/-- What the creation of a block leaves of the transactions that it has taken. -/
theorem created_kept_iff (run : Representation.NodeRun S store.blockchain) {prev next : BlockPtr}
    {now : UInt64} {added : Bool} {bc : Blockchain} {pool : Pool} (hmay : MayExtend pk store prev)
    (hblock : blockCreate S now pk sk prev store.pool.list = .ok next) (hne : next ≠ [])
    (hadd : addBlock store.blockchain poolCreate next = .ok (added, bc, pool)) :
    (∀ hash ∈ store.pool.hashes, Kept ⟨bc, pool⟩ hash) ↔
      (∀ hash ∈ store.pool.hashes, Confirmed store.blockchain.principal hash) ∨
        Wins S pk sk store prev now := by
  obtain ⟨stored, built⟩ := run.builtRun
  have hprev := hmay.stored run
  rw [Representation.stored_iff built.tree] at hprev
  have haddable := Representation.addable_of_blockCreate (.inr hprev) hblock hne
  have hstep : Step S pk sk store (.created prev now next added) ⟨bc, pool⟩ :=
    .create hmay hblock hne hadd
  have hpool := addBlock_pool hadd
  obtain ⟨r, hr, -, rfl⟩ := addBlock_ok hadd
  rw [wins_iff_overtakes hblock hne]
  constructor
  · intro hkept
    rcases overtakes_cases built.tree haddable hr with ⟨-, -, hsame⟩ | ⟨hovertakes, -⟩
    · refine Or.inl fun hash hmem => ?_
      rcases hkept hash hmem with hpending | hconfirmed
      · rw [hpool, hsame] at hpending
        rcases hpending with hnone | habandoned
        · cases hnone
        · exact absurd habandoned (not_abandoned_of_suffix (List.suffix_refl _) hash)
      · rw [← hsame]
        exact hconfirmed
    · exact Or.inr hovertakes
  · rintro (hconfirmed | hovertakes) hash hmem
    · exact confirmed_kept hstep (hconfirmed hash hmem)
    · rcases overtakes_cases built.tree haddable hr with ⟨hnot, -⟩ | ⟨-, -, hnew⟩
      · exact absurd hovertakes hnot
      obtain ⟨data, rfl⟩ := Chains.eq_cons_of_blockCreate hblock hne
      obtain ⟨-, -, -, accounts, -, hdata⟩ := blockCreate_spec hblock
      obtain ⟨txn, htxn, rfl⟩ := List.mem_map.mp hmem
      refine Or.inr ⟨data, ?_, txn, ?_, rfl⟩
      · rw [hnew]
        exact List.mem_cons_self
      · rw [hdata]
        exact htxn

theorem pending_kept_iff (run : Representation.NodeRun S store.blockchain)
    (hstep : Step S pk sk store event store') :
    (∀ hash ∈ store.pool.hashes, Kept store' hash) ↔ Spares S pk sk store event := by
  cases hstep with
  | @pending txn hgenuine =>
      refine iff_of_true ?_ trivial
      intro hash hmem
      exact Or.inl ((mem_hashes_poolAdd store.pool txn hash).mpr (Or.inl hmem))
  | accept hblock hne hadd =>
      refine iff_of_true ?_ trivial
      intro hash hmem
      exact Or.inl ((addBlock_pool hadd hash).mpr (Or.inl hmem))
  | create hmay hblock hne hadd => exact created_kept_iff run hmay hblock hne hadd
  | @fail prev now hmay hblock =>
      constructor
      · intro hkept
        refine Or.inl fun hash hmem => ?_
        rcases hkept hash hmem with hnone | hconfirmed
        · cases hnone
        · exact hconfirmed
      · rintro (hconfirmed | hwins) hash hmem
        · exact Or.inr (hconfirmed hash hmem)
        · obtain ⟨accounts, hcreated⟩ := @blockCreate_of_staking S _ sk now _ store.pool.list
            hwins.staking
          rw [hblock] at hcreated
          cases hcreated

end Steps

theorem nothingLost_cons_iff {event event' : Event} {store store' : Store}
    {earlier : List (Event × Store)} (trace : NodeTrace S pk sk ((event, store) :: earlier))
    (hstep : Step S pk sk store event' store') (h : NothingLost ((event, store) :: earlier)) :
    NothingLost ((event', store') :: (event, store) :: earlier) ↔
      Spares S pk sk store event' := by
  rw [← pending_kept_iff (run_of_trace trace).nodeRun hstep]
  constructor
  · intro hkept hash hmem
    exact hkept (event, store) (List.mem_cons_of_mem _ List.mem_cons_self) hash hmem
  · intro hkept x hx hash hmem
    rcases List.mem_cons.mp hx with rfl | hx
    · exact Or.inl hmem
    · rcases h x hx hash hmem with hpending | hconfirmed
      · exact hkept hash hpending
      · exact confirmed_kept hstep hconfirmed

/-- No pending transaction is lost in a run exactly when every block for which the
pool is emptied spares it. -/
theorem nothing_lost_iff {trace : List (Event × Store)} (h : NodeTrace S pk sk trace) :
    Throughout NothingLost trace ↔ Guarded (Spares S pk sk) trace := by
  refine throughout_iff_guarded ?_ ?_ h
  · intro event store _ x hx hash hmem
    rw [List.mem_singleton.mp hx] at hmem
    exact Or.inl hmem
  · intro event store earlier event' store' trace hstep _ hlost
    exact nothingLost_cons_iff trace hstep hlost

section Poverty

/-- The payment of all that the miner has after two blocks, and a later one. -/
def allMoney : Transaction := payment 1 2048 0

/-- A payment that its sender cannot afford any more. -/
def latePayment : Transaction := payment 1 1 0

def firstChain (first : Block) : Blockchain :=
  { storeBlock blockchainCreate first [] with principal := [first] }

def secondChain (first second : Block) : Blockchain :=
  { storeBlock (firstChain first) second [first] with principal := [second, first] }

/-- The miner has spent everything in its second block. -/
structure Spent (first second : Block) : Prop where
  create_first : blockCreate transparent 1 minerKey minerSecret [] [] = .ok [first]
  create_second : blockCreate transparent 2 minerKey minerSecret [first] [allMoney] =
    .ok [second, first]
  no_staking : isStakingAllowed [second, first] minerKey = false
  hash_ne : second.hash ≠ first.hash
  transactions : first.transactions = [] ∧ second.transactions = [allMoney]
  sizes : ∀ block ∈ [[first], [second, first]], ∃ bytes, blockWrite [] block = .ok bytes ∧
    bytes.length < 2 ^ 30

theorem exists_size {block : BlockPtr}
    (h : (blockWrite [] block).toOption.any (fun bytes => bytes.length < 2 ^ 30) = true) :
    ∃ bytes, blockWrite [] block = .ok bytes ∧ bytes.length < 2 ^ 30 := by
  cases hwrite : blockWrite [] block with
  | error e => simp [hwrite, Except.toOption] at h
  | ok bytes =>
      rw [hwrite] at h
      exact ⟨bytes, rfl, by simpa [Except.toOption] using h⟩

theorem exists_spent : ∃ first second, Spent first second := by
  have hne₁ : minedBlock 1 [] [] ≠ [] := by decide +kernel
  have hne₂ : minedBlock 2 (minedBlock 1 [] []) [allMoney] ≠ [] := by decide +kernel
  have hstaking : isStakingAllowed (minedBlock 2 (minedBlock 1 [] []) [allMoney]) minerKey =
      false := by
    decide +kernel
  have hhash : blockGetHash (minedBlock 2 (minedBlock 1 [] []) [allMoney]) ≠
      blockGetHash (minedBlock 1 [] []) := by
    decide +kernel
  have hsize₁ : (blockWrite [] (minedBlock 1 [] [])).toOption.any
      (fun bytes => bytes.length < 2 ^ 30) = true := by
    decide +kernel
  have hsize₂ : (blockWrite [] (minedBlock 2 (minedBlock 1 [] []) [allMoney])).toOption.any
      (fun bytes => bytes.length < 2 ^ 30) = true := by
    decide +kernel
  have hfirst := blockCreate_eq_minedBlock hne₁
  have hsecond := blockCreate_eq_minedBlock hne₂
  rcases hblock₁ : minedBlock 1 [] [] with _ | ⟨first, prev⟩
  · exact absurd hblock₁ hne₁
  rw [hblock₁] at hfirst hsecond hhash hstaking hsize₁ hsize₂ hne₂
  obtain ⟨rfl, -, -, accounts, -, hdata⟩ := blockCreate_spec hfirst
  rcases hblock₂ : minedBlock 2 [first] [allMoney] with _ | ⟨second, prev⟩
  · exact absurd hblock₂ hne₂
  rw [hblock₂] at hsecond hhash hstaking hsize₂
  obtain ⟨rfl, -, -, accounts', -, hdata'⟩ := blockCreate_spec hsecond
  refine ⟨first, second, hfirst, hsecond, hstaking, hhash, ⟨?_, ?_⟩, ?_⟩
  · rw [hdata]
    rfl
  · rw [hdata']
    rfl
  · rintro block (_ | ⟨_, _ | ⟨_, hnone⟩⟩)
    · exact exists_size hsize₁
    · exact exists_size hsize₂
    · cases hnone

variable {first second : Block}

theorem Spent.addBlock_second (h : Spent first second) :
    addBlock (firstChain first) poolCreate [second, first] =
      .ok (true, secondChain first second, poolCreate) := by
  have hnew : (firstChain first).blocks.get second.hash = none := by
    show (blockchainCreate.blocks.set first.hash [first]).get second.hash = none
    rw [Library.Maps.Map.get_set, if_neg h.hash_ne]
    rfl
  exact addBlock_extend hnew poolCreate

theorem childless_second (first second : Block) (pk : PublicKey) :
    blockGetChildWithPublicKey (secondChain first second) [second, first] pk = [] := by
  have hne : [second, first] ≠ [first] := by simp
  have hchildren : (secondChain first second).children =
      blockAddChild (firstChain first).children [first] [second, first] :=
    rfl
  rw [blockGetChildWithPublicKey, hchildren, blockAddChild, Function.update_of_ne hne]
  rfl

theorem mayExtend_first (first : Block) (pool : Pool) :
    MayExtend minerKey ⟨firstChain first, pool⟩ [first] :=
  ⟨List.cons_ne_nil _ _, .inl rfl, rfl⟩

theorem Spent.run (h : Spent first second) :
    Run transparent minerKey minerSecret [.created [] 1 [first] true, .pending allMoney,
      .created [first] 2 [second, first] true] ⟨secondChain first second, poolCreate⟩ := by
  have hgenesis : Run transparent minerKey minerSecret [.created [] 1 [first] true]
      ⟨firstChain first, poolCreate⟩ :=
    .start h.create_first (List.cons_ne_nil _ _) (addBlock_extend rfl poolCreate)
  have hpending := hgenesis.step (.pending (.created ⟨rfl, rfl⟩ payeeKey 2048 0))
  exact hpending.step (.create (mayExtend_first first _) h.create_second (List.cons_ne_nil _ _)
    h.addBlock_second)

theorem Spent.minedBlock_eq (h : Spent first second) :
    minedBlock 1 [] [] = [first] ∧
      minedBlock 2 (minedBlock 1 [] []) [allMoney] = [second, first] := by
  have hfirst : minedBlock 1 [] [] = [first] := by
    rw [minedBlock, h.create_first]
    rfl
  refine ⟨hfirst, ?_⟩
  rw [hfirst, minedBlock, h.create_second]
  rfl

/-- The node of the miner behind its second block. -/
def spentNode (first second : Block) (network : Networks.Network) : State where
  network := network
  application :=
    { blockchain := secondChain first second
      pool := poolCreate
      publicKey := minerKey
      secretKey := minerSecret
      port := 0
      times := fun n => UInt64.ofNat (n + 3)
      guids := fun _ => guidNull }

theorem Spent.exists_node (h : Spent first second) :
    ∃ network, Reachable transparent (spentNode first second network) := by
  obtain ⟨bytes₁, hwrite₁, hsize₁⟩ := h.sizes [first] (by simp)
  obtain ⟨bytes₂, hwrite₂, hsize₂⟩ := h.sizes [second, first] (by simp)
  obtain ⟨network₁, hgenesis⟩ := @createGenesis_ok transparent minerKey minerSecret 0
    (fun n => UInt64.ofNat (n + 1)) (fun _ => guidNull) _ _ h.create_first hwrite₁ hsize₁
  have hpending := (Reachable.start hgenesis).command 2048 payeeKey
  exact hpending.created (List.cons_ne_nil _ _) rfl h.create_second (List.cons_ne_nil _ _)
    h.addBlock_second hwrite₂ hsize₂

/-- A node that can create its second block loses nothing. -/
theorem nothing_lost_iff_second : ∃ first second,
    Throughout NothingLost
        [(.created [first] 2 [second, first] true, ⟨secondChain first second, poolCreate⟩),
          (.pending allMoney, ⟨firstChain first, poolAdd poolCreate allMoney⟩),
          (.created [] 1 [first] true, ⟨firstChain first, poolCreate⟩)] ↔
      Guarded (Spares transparent minerKey minerSecret)
        [(.created [first] 2 [second, first] true, ⟨secondChain first second, poolCreate⟩),
          (.pending allMoney, ⟨firstChain first, poolAdd poolCreate allMoney⟩),
          (.created [] 1 [first] true, ⟨firstChain first, poolCreate⟩)] := by
  obtain ⟨first, second, h⟩ := exists_spent
  refine ⟨first, second, nothing_lost_iff (.cons (.cons (.single ?_) ?_) ?_)⟩
  · exact .start h.create_first (List.cons_ne_nil _ _) (addBlock_extend rfl poolCreate)
  · exact .pending (.created ⟨rfl, rfl⟩ payeeKey 2048 0)
  · exact .create (mayExtend_first first _) h.create_second (List.cons_ne_nil _ _)
      h.addBlock_second

theorem Spent.not_confirmed (h : Spent first second) :
    ¬ Confirmed [second, first] latePayment.hash := by
  have hne : allMoney.hash ≠ latePayment.hash := by decide +kernel
  rintro ⟨data, hdata, txn, htxn, hhash⟩
  rcases List.mem_pair.mp hdata with rfl | rfl
  · rw [h.transactions.2, List.mem_singleton] at htxn
    rw [htxn] at hhash
    exact hne hhash
  · rw [h.transactions.1] at htxn
    cases htxn

/-- A node that cannot stake any more loses what is pending on the next tick. -/
theorem timer_loses_pending : ∃ state state', Reachable transparent state ∧
    onTimer transparent state = .ok state' ∧
    latePayment.hash ∈ state.application.pool.hashes ∧
    ¬ Kept (storeOf state') latePayment.hash := by
  obtain ⟨first, second, h⟩ := exists_spent
  obtain ⟨network, hsecond⟩ := h.exists_node
  have hlate := hsecond.command 1 payeeKey
  have hfail : blockCreate transparent 3 minerKey minerSecret [second, first] [latePayment] =
      .ok [] := by
    rw [blockCreate, h.no_staking]
    rfl
  refine ⟨_, _, hlate, onTimer_failed (List.cons_ne_nil _ _) (childless_second _ _ _) hfail,
    List.mem_cons_self, ?_⟩
  rintro (hpool | hconfirmed)
  · cases hpool
  · exact h.not_confirmed hconfirmed

end Poverty

end Whosecoin.PendingTransactions

import Whosecoin.Ownership
import Whosecoin.Synchronisation

namespace Whosecoin.PrincipalOrder

open Library.Outcomes
open Library.ByteStrings
open Library.Maps
open Library.ForkChoice
open Cryptography
open Accounts
open Blockchains
open BlockTree
open PrincipalChain
open Pools
open Handlers
open NodeRuns
open Synchronisation

variable {S : Sodium} {stored : List BlockPtr} {bc : Blockchain}

/-- The block is preferred to its sibling, by its priority and then by the time at
which it has been stored. -/
def Preferred (stored : List BlockPtr) (block sibling : BlockPtr) : Prop :=
  Precedes blockGetPriority stored.idxOf block sibling

/-- A stored block is preferred to the block or to an ancestor of it. -/
def Outdone (stored : List BlockPtr) (block : BlockPtr) : Prop :=
  ∃ rival data prev, rival :: prev ∈ stored ∧ data :: prev <:+ block ∧
    Preferred stored (rival :: prev) (data :: prev)

section Tree

theorem times_childrenIn (hnodup : stored.Nodup) (prev : BlockPtr) :
    (childrenIn stored prev).Pairwise fun x y => stored.idxOf x < stored.idxOf y := by
  apply List.Pairwise.filter
  rw [List.pairwise_iff_getElem]
  intro i j hi hj hlt
  rw [hnodup.idxOf_getElem, hnodup.idxOf_getElem]
  exact hlt

theorem argmin_childrenIn_iff (tree : Tree stored bc) {data : Block} {prev : BlockPtr} :
    (childrenIn stored prev).argmin blockGetPriority = some (data :: prev) ↔
      data :: prev ∈ stored ∧
        ∀ rival, rival :: prev ∈ stored →
          ¬ Preferred stored (rival :: prev) (data :: prev) := by
  rw [argmin_eq_some_iff_of_times (times_childrenIn (Representation.stored_nodup tree) prev),
    mem_childrenIn, List.tail_cons, and_iff_left rfl]
  refine and_congr_right fun _ => ⟨fun h rival hrival => ?_, fun h d hd => ?_⟩
  · exact h _ (mem_childrenIn.mpr ⟨hrival, rfl⟩)
  · obtain ⟨hmem, htail⟩ := mem_childrenIn.mp hd
    rcases d with _ | ⟨rival, earlier⟩
    · exact absurd rfl (tree.ne_nil hmem)
    · obtain rfl : earlier = prev := htail
      exact h rival hmem

/-- A stored block is on the principal chain unless it has been outdone. -/
theorem suffix_iff_not_outdone (tree : Tree stored bc) {block : BlockPtr}
    (hblock : block ∈ stored) :
    block <:+ bc.principal ↔ ¬ Outdone stored block := by
  constructor
  · rintro hsuffix ⟨rival, data, prev, hrival, hdata, hpreferred⟩
    have hbest := tree.argmin_of_suffix (hdata.trans hsuffix)
    exact ((argmin_childrenIn_iff tree).mp hbest).2 rival hrival hpreferred
  · intro hnot
    have hpath : ∀ chain, chain <:+ block →
        BestPath blockGetPriority (childrenIn stored) [] chain.length chain := by
      intro chain
      induction chain with
      | nil => exact fun _ => .refl
      | cons data prev ih =>
          intro hchain
          refine .step (ih ((List.suffix_cons data prev).trans hchain)) ?_
          refine (argmin_childrenIn_iff tree).mpr ⟨?_, fun rival hrival hpreferred => ?_⟩
          · exact tree.suffix_mem hblock hchain (List.cons_ne_nil data prev)
          · exact hnot ⟨rival, data, prev, hrival, hchain, hpreferred⟩
    exact tree.suffix_of_bestPath (hpath block (List.suffix_refl block))

theorem principal_iff (tree : Tree stored bc) {block : BlockPtr} (hblock : block ∈ stored) :
    block = bc.principal ↔ ¬ Outdone stored block ∧ childrenIn stored block = [] := by
  rw [← suffix_iff_not_outdone tree hblock]
  constructor
  · rintro rfl
    exact ⟨List.suffix_refl _, tree.leaf.stop⟩
  · rintro ⟨hsuffix, hleaf⟩
    by_contra hne
    obtain ⟨data, -, hdata⟩ := walkToPrev_of_suffix bc.principal [] hsuffix hne
    have hchild := tree.argmin_of_suffix hdata
    rw [hleaf] at hchild
    cases hchild

/-- After every run of `blockchain_add_block` a stored block is on the principal chain
exactly when no preferred sibling of it or of an ancestor is stored, and it is the
principal when it has no child either. -/
theorem on_principal_chain_iff (run : AddRun stored bc) {block : BlockPtr}
    (hblock : block ∈ stored) :
    (block <:+ bc.principal ↔ ¬ Outdone stored block) ∧
      (block = bc.principal ↔ ¬ Outdone stored block ∧ childrenIn stored block = []) :=
  ⟨suffix_iff_not_outdone run.tree hblock, principal_iff run.tree hblock⟩

/-- A second genesis block of the same priority as the first one. -/
theorem on_principal_chain_iff_tie :
    ([bareBlock 3 7] <:+ (storeBlock afterGenesis.blockchain (bareBlock 3 7) []).principal ↔
        ¬ Outdone [[bareBlock 1 7], [bareBlock 3 7]] [bareBlock 3 7]) ∧
      ([bareBlock 3 7] = (storeBlock afterGenesis.blockchain (bareBlock 3 7) []).principal ↔
        ¬ Outdone [[bareBlock 1 7], [bareBlock 3 7]] [bareBlock 3 7] ∧
          childrenIn [[bareBlock 1 7], [bareBlock 3 7]] [bareBlock 3 7] = []) := by
  have hfirst : AddRun [[bareBlock 1 7]] afterGenesis.blockchain :=
    @AddRun.add _ _ [bareBlock 1 7] afterGenesis .create ⟨by simp, .inl rfl⟩ rfl
  have htie : AddRun [[bareBlock 1 7], [bareBlock 3 7]]
      (storeBlock afterGenesis.blockchain (bareBlock 3 7) []) :=
    @AddRun.add _ _ [bareBlock 3 7] ⟨true, _, []⟩ hfirst ⟨by simp, .inl rfl⟩ rfl
  exact on_principal_chain_iff htie (by simp)

end Tree

section Runs

variable {pk : PublicKey} {sk : SecretKey} {events more : List Event} {store store' : Store}

theorem addBlock_unique {pool pool₁ pool₂ : Pool} {block : BlockPtr} {added₁ added₂ : Bool}
    {bc₁ bc₂ : Blockchain} (h₁ : addBlock bc pool block = .ok (added₁, bc₁, pool₁))
    (h₂ : addBlock bc pool block = .ok (added₂, bc₂, pool₂)) :
    (⟨bc₁, pool₁⟩ : Store) = ⟨bc₂, pool₂⟩ := by
  rw [h₁, Except.ok.injEq, Prod.mk.injEq, Prod.mk.injEq] at h₂
  obtain ⟨-, rfl, rfl⟩ := h₂
  rfl

theorem step_unique {event : Event} {store₁ store₂ : Store}
    (h₁ : NodeRuns.Step S pk sk store event store₁)
    (h₂ : NodeRuns.Step S pk sk store event store₂) : store₁ = store₂ := by
  cases h₁ with
  | pending hgenuine => cases h₂ with | pending hgenuine' => rfl
  | accept hblock hne hadd =>
      cases h₂ with | accept hblock' hne' hadd' => exact addBlock_unique hadd hadd'
  | create hmay hblock hne hadd =>
      cases h₂ with | create hmay' hblock' hne' hadd' => exact addBlock_unique hadd hadd'
  | fail hmay hblock => cases h₂ with | fail hmay' hblock' => rfl

theorem events_ne_nil (run : Run S pk sk events store) : events ≠ [] := by
  cases run with
  | start => exact List.cons_ne_nil _ _
  | step run hstep => exact List.append_ne_nil_of_right_ne_nil _ (List.cons_ne_nil _ _)

theorem run_unique (run : Run S pk sk events store) (run' : Run S pk sk events store') :
    store = store' := by
  induction run generalizing store' with
  | start hblock hne hadd =>
      generalize hevents : [Event.created _ _ _ _] = events at run'
      cases run' with
      | start hblock' hne' hadd' =>
          cases hevents
          exact addBlock_unique hadd hadd'
      | step run' hstep' =>
          have hnil := (List.append_inj' ((List.nil_append _).trans hevents) rfl).1
          exact absurd hnil.symm (events_ne_nil run')
  | @step events mid store event run hstep ih =>
      generalize hevents : events ++ [event] = events' at run'
      cases run' with
      | start hblock' hne' hadd' =>
          have hnil := (List.append_inj' (hevents.trans (List.nil_append _).symm) rfl).1
          exact absurd hnil (events_ne_nil run)
      | step run' hstep' =>
          obtain ⟨rfl, hevent⟩ := List.append_inj' hevents rfl
          cases hevent
          obtain rfl := ih run'
          exact step_unique hstep hstep'

theorem blocks_grow_addBlock {pool pool' : Pool} {block : BlockPtr} {added : Bool}
    {bc' : Blockchain} (h : addBlock bc pool block = .ok (added, bc', pool')) :
    bc.blocks <+: bc'.blocks := by
  obtain ⟨r, hr, -, rfl⟩ := addBlock_ok h
  rcases blockchainAddBlock_cases hr with ⟨-, rfl⟩ | ⟨data, prev, rfl, hnew, hstored⟩
  · exact List.prefix_refl _
  · rw [hstored.blocks_eq, Map.set_of_get_eq_none _ hnew]
    exact List.prefix_append _ _

theorem blocks_grow_step {event : Event} (h : NodeRuns.Step S pk sk store event store') :
    store.blockchain.blocks <+: store'.blockchain.blocks := by
  cases h with
  | pending hgenuine => exact List.prefix_refl _
  | accept hblock hne hadd => exact blocks_grow_addBlock hadd
  | create hmay hblock hne hadd => exact blocks_grow_addBlock hadd
  | fail hmay hblock => exact List.prefix_refl _

theorem blocks_grow_run (run : Run S pk sk events store)
    (run' : Run S pk sk (events ++ more) store') :
    store.blockchain.blocks <+: store'.blockchain.blocks := by
  induction more using List.reverseRecOn generalizing store' with
  | nil =>
      rw [List.append_nil] at run'
      rw [run_unique run run']
  | append_singleton more event ih =>
      rw [← List.append_assoc] at run'
      generalize hevents : (events ++ more) ++ [event] = all at run'
      cases run' with
      | start hblock hne hadd =>
          have hnil := (List.append_inj' (hevents.trans (List.nil_append _).symm) rfl).1
          exact absurd (List.append_eq_nil_iff.mp hnil).1 (events_ne_nil run)
      | step run' hstep =>
          obtain ⟨rfl, -⟩ := List.append_inj' hevents rfl
          exact (ih run').trans (blocks_grow_step hstep)

end Runs

section Nodes

variable {a b : State}

/-- The blocks of a node in the order in which it has stored them. -/
def storedOf (state : State) : List BlockPtr :=
  state.application.blockchain.blocks.map Prod.snd

theorem tree_of_reachable (h : Reachable S a) : Tree (storedOf a) a.application.blockchain := by
  obtain ⟨stored, built⟩ := (MalformedMessages.nodeRun_of_running h.run).builtRun
  have htree := built.tree
  have hstored : storedOf a = stored := by
    rw [storedOf, htree.blocks_eq, List.map_map]
    exact List.map_id stored
  exact hstored ▸ htree

theorem storedOf_grows (ha : Reachable S a) (h : Relation.ReflTransGen (Moves S) a b) :
    storedOf a <+: storedOf b := by
  induction h with
  | refl => exact List.prefix_refl _
  | @tail b c hmoves hmove ih =>
      obtain ⟨events, run⟩ := (reachable_later ha hmoves).run
      obtain ⟨more, run'⟩ := hmove.continues.run events run
      exact ih.trans ((blocks_grow_run run run').map Prod.snd)

theorem Preferred.mono {earlier later : List BlockPtr} (hgrown : earlier <+: later)
    {x y : BlockPtr} (hx : x ∈ earlier) (hy : y ∈ earlier) :
    Preferred later x y ↔ Preferred earlier x y := by
  rw [Preferred, Preferred, Precedes, Precedes, hgrown.idxOf_eq_of_mem hx,
    hgrown.idxOf_eq_of_mem hy]

theorem Outdone.later (ha : Reachable S a) (h : Relation.ReflTransGen (Moves S) a b)
    {block : BlockPtr} (hblock : block ∈ storedOf a) (houtdone : Outdone (storedOf a) block) :
    Outdone (storedOf b) block := by
  obtain ⟨rival, data, prev, hrival, hdata, hpreferred⟩ := houtdone
  have hgrown := storedOf_grows ha h
  have hsibling := (tree_of_reachable ha).suffix_mem hblock hdata (List.cons_ne_nil data prev)
  exact ⟨rival, data, prev, hgrown.mem hrival, hdata,
    (Preferred.mono hgrown hrival hsibling).mpr hpreferred⟩

/-- What the choice of the principal promises from one moment to a later one: no
block that is stored beside the principal chain comes onto it, and the principal is
passed on to a descendant, or at a fork to a block of less priority. -/
structure Advances (a b : State) : Prop where
  abandoned : ∀ block ∈ storedOf a, block <:+ b.application.blockchain.principal →
    block <:+ a.application.blockchain.principal
  improved : a.application.blockchain.principal <:+ b.application.blockchain.principal ∨
    ∃ rival data prev, data :: prev <:+ a.application.blockchain.principal ∧
      rival :: prev <:+ b.application.blockchain.principal ∧
        blockGetPriority (rival :: prev) < blockGetPriority (data :: prev)

theorem principal_stored (h : Reachable S a) {data : Block} {prev : BlockPtr}
    (hsuffix : data :: prev <:+ a.application.blockchain.principal) :
    data :: prev ∈ storedOf a := by
  have htree := tree_of_reachable h
  exact (mem_childrenIn.mp (List.argmin_mem (htree.argmin_of_suffix hsuffix))).1

theorem fork_cases (x y : BlockPtr) : x <:+ y ∨ (∃ data, data :: y <:+ x) ∨
    ∃ data rival prev, data ≠ rival ∧ data :: prev <:+ x ∧ rival :: prev <:+ y := by
  induction x with
  | nil => exact Or.inl List.nil_suffix
  | cons data prev ih =>
      have hup := List.suffix_cons data prev
      rcases ih with hsuffix | ⟨d, hd⟩ | ⟨d, rival, p, hne, hd, hrival⟩
      · rcases eq_or_ne prev y with rfl | hne
        · exact Or.inr (Or.inl ⟨data, List.suffix_refl _⟩)
        · obtain ⟨rival, -, hrival⟩ := walkToPrev_of_suffix y [] hsuffix hne
          rcases eq_or_ne data rival with rfl | hother
          · exact Or.inl hrival
          · exact Or.inr (Or.inr ⟨data, rival, prev, hother, List.suffix_refl _, hrival⟩)
      · exact Or.inr (Or.inl ⟨d, hd.trans hup⟩)
      · exact Or.inr (Or.inr ⟨d, rival, p, hne, hd.trans hup, hrival⟩)

/-- Where the principal chain has changed, the newcomer has the lesser priority, as a
tie goes to the block that was there. -/
theorem priority_lt_of_fork (ha : Reachable S a) (h : Relation.ReflTransGen (Moves S) a b)
    {data rival : Block} {prev : BlockPtr} (hne : data ≠ rival)
    (hdata : data :: prev <:+ a.application.blockchain.principal)
    (hrival : rival :: prev <:+ b.application.blockchain.principal) :
    blockGetPriority (rival :: prev) < blockGetPriority (data :: prev) := by
  have hgrown := storedOf_grows ha h
  have htree := tree_of_reachable ha
  have htree' := tree_of_reachable (reachable_later ha h)
  have hstored := principal_stored ha hdata
  have hbest := (argmin_childrenIn_iff htree).mp (htree.argmin_of_suffix hdata)
  have hbest' := (argmin_childrenIn_iff htree').mp (htree'.argmin_of_suffix hrival)
  rcases not_precedes_iff.mp (hbest'.2 data (hgrown.mem hstored)) with hlt | ⟨heq, htime⟩
  · exact hlt
  · have hearly : rival :: prev ∈ storedOf a := by
      rw [hgrown.mem_iff_idxOf_lt_length] at hstored ⊢
      exact htime.trans_lt hstored
    rw [← hgrown.idxOf_eq_of_mem hearly, ← hgrown.idxOf_eq_of_mem hstored] at htime
    rcases not_precedes_iff.mp (hbest.2 rival hearly) with hlt | ⟨-, htime'⟩
    · exact absurd heq hlt.ne'
    · have hsame := (List.idxOf_inj hearly).mp (le_antisymm htime htime')
      exact absurd (List.cons.inj hsame).1.symm hne

theorem advances_of_moves (ha : Reachable S a) (h : Relation.ReflTransGen (Moves S) a b) :
    Advances a b := by
  have htree' := tree_of_reachable (reachable_later ha h)
  constructor
  · intro block hblock hsuffix
    rw [suffix_iff_not_outdone (tree_of_reachable ha) hblock]
    intro houtdone
    have hlater := (storedOf_grows ha h).mem hblock
    exact (suffix_iff_not_outdone htree' hlater).mp hsuffix (houtdone.later ha h hblock)
  · rcases fork_cases a.application.blockchain.principal b.application.blockchain.principal with
      hsuffix | ⟨data, hdata⟩ | ⟨data, rival, prev, hne, hdata, hrival⟩
    · exact Or.inl hsuffix
    · have hmem := (storedOf_grows ha h).mem (principal_stored ha hdata)
      have hchild := mem_childrenIn.mpr ⟨hmem, rfl⟩
      rw [List.tail_cons, htree'.leaf.stop] at hchild
      cases hchild
    · exact Or.inr ⟨rival, data, prev, hdata, hrival,
        priority_lt_of_fork ha h hne hdata hrival⟩

theorem moves_of_genesis {stored : List BlockPtr} {rival : Block}
    (tree : Tree stored a.application.blockchain)
    {payload : List UInt8} (hlength : payload.length < 2 ^ 32) {tuple : TupleParser.Tuple}
    (hparse : TupleParser.tupleParse ⟨payload.length, payload ++ []⟩ = .ok (some tuple))
    (hblock : Blocks.blockCreateFromTuple S tuple (blockchainGetBlock a.application.blockchain) =
      .ok [rival])
    (hovertakes : Reorganisations.Overtakes a.application.blockchain [rival]) :
    ∃ b, Moves S a b ∧ b.application.blockchain.principal = [rival] := by
  have haddable :=
    Representation.addable_of_blockCreateFromTuple tree hblock (List.cons_ne_nil _ _)
  obtain ⟨r, hr, hspec⟩ := blockchainAddBlock_spec tree haddable
  obtain ⟨pool, hadd, -⟩ := Reorganisations.addBlock_spec hr a.application.pool
  rcases Reorganisations.overtakes_cases tree haddable hr with ⟨hnot, -⟩ |
    ⟨-, -, hprincipal⟩
  · exact absurd hovertakes hnot
  have hreceive : receiveBlock S a tuple = .ok
      { a with application :=
        { a.application with blockchain := r.blockchain, pool := pool } } := by
    rw [receiveBlock, hblock, ok_bind, if_neg (List.cons_ne_nil _ _),
      addBlockToState_of_addBlock hadd, ok_bind]
    have hroot : ∀ state : State, forkAt S state (List.tail [rival]) = .ok state :=
      fun state => rfl
    simp only [hroot]
    split_ifs <;> rfl
  have hmessage :=
    @MalformedMessages.handleMessage_messageCreate S a 1 Messages.guidNull 9 payload
    [] hlength
  obtain ⟨vs, hrep, -⟩ := TupleFormat.represents_of_tupleParse hparse
  rw [if_pos (by decide), MalformedMessages.dispatch_eq hparse hrep (by decide) rfl] at hmessage
  exact ⟨_, .receive (hmessage.trans hreceive), hprincipal⟩

/-- A node whose two blocks give way to the genesis block of another miner. -/
theorem advances_of_moves_rival : ∃ a b first second rival, Reachable transparent a ∧
    Moves transparent a b ∧ a.application.blockchain.principal = [second, first] ∧
    b.application.blockchain.principal = [rival] ∧ rival ≠ first ∧ Advances a b := by
  obtain ⟨first, second, h⟩ := PendingTransactions.exists_spent
  obtain ⟨network, hsecond⟩ := h.exists_node
  obtain ⟨hovertakes, hfind⟩ := Ownership.rivalGenesis_overtakes h
  have hne : Ownership.rivalGenesis ≠ [] := by decide +kernel
  have hkeys : TransparentKeyPair (Bytes.ofList _ [6]) (Bytes.ofList _ [6]) := by
    rw [TransparentKeyPair]
    decide
  have hcreate := Chains.eq_ok_of_toOption hne
  obtain ⟨rival, hrival⟩ : ∃ rival, Ownership.rivalGenesis = [rival] :=
    Chains.eq_cons_of_blockCreate hcreate hne
  have hother : [rival] ≠ [first] := by
    have hne' : Ownership.rivalGenesis ≠ Chains.minedBlock 1 [] [] := by decide +kernel
    rwa [h.minedBlock_eq.1, hrival] at hne'
  obtain ⟨bytes, hwrite, hsize⟩ := @PendingTransactions.exists_size Ownership.rivalGenesis
    (by decide +kernel)
  rw [hrival, BlockSchema.blockWrite_eq, List.nil_append, Except.ok.injEq] at hwrite
  subst hwrite
  have hcreate' :
      Blocks.blockCreate transparent 1 (Bytes.ofList _ [6]) (Bytes.ofList _ [6]) [] [] =
      .ok [rival] := hcreate.trans (congrArg Except.ok hrival)
  obtain ⟨tuple, hparse, hblock⟩ :=
    BlockDelivery.exists_tuple_of_blockCreate transparent_complete
    hkeys (by simp) hcreate' (by omega) hfind []
  obtain ⟨b, hmoves, hprincipal⟩ :=
    moves_of_genesis (tree_of_reachable hsecond) (by omega) hparse
    hblock (hrival ▸ hovertakes)
  exact ⟨_, b, first, second, rival, hsecond, hmoves, rfl, hprincipal,
    fun heq => hother (congrArg (fun data => [data]) heq),
    advances_of_moves hsecond (.single hmoves)⟩

end Nodes

end Whosecoin.PrincipalOrder

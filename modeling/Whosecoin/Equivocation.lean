import Whosecoin.NodeRuns
import Whosecoin.Reorganisations
import Whosecoin.HistoryBinding

namespace Whosecoin.Equivocation

open Library.Outcomes
open Library.ByteStrings
open Cryptography
open TupleParser
open Accounts
open Blocks
open BlockSchema
open Blockchains
open BlockTree
open PrincipalChain
open Chains
open Whosecoin.Representation
open Pools
open Messages
open Handlers
open NodeRuns

variable {S : Sodium} {pk : PublicKey} {sk : SecretKey}

/-- The block is signed with the key. -/
def Own (pk : PublicKey) : BlockPtr → Prop
  | [] => False
  | data :: _ => data.publicKey = pk

/-- The hashes of the blocks that the node has signed. -/
def signed (events : List Event) : List Hash :=
  events.filterMap fun
    | .created _ _ block _ => some (blockGetHash block)
    | _ => none

/-- Nobody else signs for the key: what the node accepts under it has been signed
by the node before. -/
def Unforged (pk : PublicKey) (events : List Event) : Prop :=
  ∀ before block added after, events = before ++ .accepted block added :: after →
    Own pk block → blockGetHash block ∈ signed before

theorem Unforged.of_concat {events : List Event} {event : Event}
    (h : Unforged pk (events ++ [event])) : Unforged pk events := by
  intro before block added after hsplit hown
  refine h before block added (after ++ [event]) ?_ hown
  rw [hsplit, List.append_assoc, List.cons_append]

theorem Unforged.last {events : List Event} {block : BlockPtr} {added : Bool}
    (h : Unforged pk (events ++ [.accepted block added])) (hown : Own pk block) :
    blockGetHash block ∈ signed events :=
  h events block added [] rfl hown

/-- At most one block on each parent, or without a parent, is signed with the key. -/
def Honest (pk : PublicKey) (bc : Blockchain) : Prop :=
  ∀ b c, Stored bc b → Stored bc c → Own pk b → Own pk c → b.tail = c.tail → b = c

theorem isSome_storedAs {bc : Blockchain} {data : Block} {prev : BlockPtr} {r : AddResult}
    (h : StoredAs bc data prev r) {hash : Hash}
    (hhash : (bc.blocks.get hash).isSome ∨ hash = data.hash) :
    (r.blockchain.blocks.get hash).isSome := by
  rw [h.blocks_eq, Library.Maps.Map.get_set]
  split_ifs with heq
  · rfl
  · exact hhash.resolve_right heq

/-- The node is honest, and no block that it has signed is missing. -/
structure Faithful (pk : PublicKey) (events : List Event) (bc : Blockchain) : Prop where
  honest : Honest pk bc
  known : ∀ hash ∈ signed events, (bc.blocks.get hash).isSome

section Steps

variable {bc : Blockchain} {block : BlockPtr} {r : AddResult} {events : List Event}

theorem Faithful.accept (h : Faithful pk events bc) (hcall : blockchainAddBlock bc block = .ok r)
    (hforged : Own pk block → blockGetHash block ∈ signed events) :
    Faithful pk events r.blockchain := by
  rcases blockchainAddBlock_cases hcall with ⟨-, rfl⟩ | ⟨data, prev, rfl, hnew, hstored⟩
  · exact h
  · have hother : ¬ Own pk (data :: prev) := by
      intro hown
      have hknown := h.known _ (hforged hown)
      rw [blockGetHash, hnew] at hknown
      cases hknown
    constructor
    · intro b c hb hc hownb hownc
      rw [stored_storedAs_iff hnew hstored] at hb hc
      rcases hb with hb | rfl
      · rcases hc with hc | rfl
        · exact h.honest b c hb hc hownb hownc
        · exact absurd hownc hother
      · exact absurd hownb hother
    · intro hash hmem
      exact isSome_storedAs hstored (.inl (h.known hash hmem))

theorem childless_iff (run : NodeRun S bc) {prev : BlockPtr} (hprev : Stored bc prev) :
    blockGetChildWithPublicKey bc prev pk = [] ↔
      ∀ child, Stored bc child → child.tail = prev → ¬ Own pk child := by
  obtain ⟨stored, built⟩ := run.builtRun
  have rep := represents_of_builtRun built
  simp only [stored_iff built.tree] at hprev ⊢
  rw [blockGetChildWithPublicKey]
  constructor
  · intro hnone child hchild htail hown
    have hmem := (rep.children_iff prev hprev child).mpr ⟨hchild, htail⟩
    rcases child with _ | ⟨data, prev'⟩
    · exact hown
    cases hfind : (bc.children prev).find? fun child =>
      child.head?.map Block.publicKey = some pk with
    | none =>
        have hne := List.find?_eq_none.mp hfind _ hmem
        rw [decide_eq_true_eq] at hne
        exact hne (congrArg some hown)
    | some found =>
        rw [hfind, Option.getD_some] at hnone
        subst hnone
        have hmatch := List.find?_some hfind
        simp at hmatch
  · intro hall
    cases hfind : (bc.children prev).find? fun child =>
      child.head?.map Block.publicKey = some pk with
    | none => rfl
    | some found =>
        obtain ⟨hstored, htail⟩ :=
          (rep.children_iff prev hprev found).mp (List.mem_of_find?_eq_some hfind)
        have hmatch := List.find?_some hfind
        rw [decide_eq_true_eq] at hmatch
        rcases found with _ | ⟨data, prev'⟩
        · rfl
        · exact absurd (Option.some.inj hmatch) (hall _ hstored htail)

theorem Faithful.create (h : Faithful pk events bc) (prev : BlockPtr) (now : UInt64)
    (hcall : blockchainAddBlock bc block = .ok r)
    (hchildless : ∀ c, Stored bc c → c.tail = block.tail → ¬ Own pk c) :
    Faithful pk (events ++ [.created prev now block r.added]) r.blockchain := by
  have hsigned : signed (events ++ [.created prev now block r.added]) =
      signed events ++ [blockGetHash block] := by
    rw [signed, List.filterMap_append]
    rfl
  rcases blockchainAddBlock_cases hcall with ⟨⟨old, hold⟩, rfl⟩ |
    ⟨data, prev, rfl, hnew, hstored⟩
  · refine ⟨h.honest, ?_⟩
    intro hash hmem
    rw [hsigned, List.mem_append, List.mem_singleton] at hmem
    rcases hmem with hmem | rfl
    · exact h.known hash hmem
    · rw [hold]
      rfl
  · constructor
    · intro b c hb hc hownb hownc htail
      rw [stored_storedAs_iff hnew hstored] at hb hc
      rcases hb with hb | rfl
      · rcases hc with hc | rfl
        · exact h.honest b c hb hc hownb hownc htail
        · exact absurd hownb (hchildless b hb htail)
      · rcases hc with hc | rfl
        · exact absurd hownc (hchildless c hc htail.symm)
        · rfl
    · intro hash hmem
      rw [hsigned, List.mem_append, List.mem_singleton] at hmem
      refine isSome_storedAs hstored ?_
      rcases hmem with hmem | rfl
      · exact .inl (h.known hash hmem)
      · exact .inr rfl

end Steps

theorem faithful_start : Faithful pk [] blockchainCreate where
  honest := by
    intro b c hb
    simp [Stored, blockchainCreate] at hb
  known := by simp [signed]

theorem Faithful.other {events : List Event} {bc : Blockchain} (h : Faithful pk events bc)
    {event : Event} (hevent : signed [event] = []) : Faithful pk (events ++ [event]) bc := by
  refine ⟨h.honest, ?_⟩
  have hsigned : signed (events ++ [event]) = signed events ++ signed [event] :=
    List.filterMap_append
  rw [hsigned, hevent, List.append_nil]
  exact h.known

theorem faithful_of_run {events : List Event} {store : Store} (run : Run S pk sk events store)
    (hunforged : Unforged pk events) : Faithful pk events store.blockchain := by
  induction run with
  | start hblock hne hadd =>
      obtain ⟨r, hr, rfl, rfl⟩ := addBlock_ok hadd
      refine faithful_start.create _ _ hr ?_
      intro c hc
      simp [Stored, blockchainCreate] at hc
  | @step events store store' event run hstep ih =>
      have hfaithful := ih hunforged.of_concat
      cases hstep with
      | pending hgenuine => exact hfaithful.other rfl
      | accept hblock hne hadd =>
          obtain ⟨r, hr, -, rfl⟩ := addBlock_ok hadd
          exact (hfaithful.accept hr hunforged.last).other rfl
      | create hmay hblock hne hadd =>
          obtain ⟨r, hr, rfl, rfl⟩ := addBlock_ok hadd
          obtain ⟨data, rfl⟩ := eq_cons_of_blockCreate hblock hne
          refine hfaithful.create _ _ hr ?_
          exact (childless_iff run.nodeRun (hmay.stored run.nodeRun)).mp hmay.childless
      | fail hmay hblock => exact hfaithful.other rfl

section Headers

/-- The headers that are hashed for the stored blocks and for one more. -/
def headers (bc : Blockchain) (block : BlockPtr) : Set (List UInt8) :=
  {string | ∃ data prev, (Stored bc (data :: prev) ∨ data :: prev = block) ∧
    string = blockWriteHeader [] data prev data.transactions.length}

theorem hash_of_built {data : Block} {prev : BlockPtr} (built : Built S (data :: prev)) :
    data.hash = S.generichash (blockWriteHeader [] data prev data.transactions.length) := by
  cases built with
  | create hprev hcall =>
      obtain ⟨rfl, -, -, accounts, -, rfl⟩ := BlockDelivery.blockCreate_spec hcall
      rfl
  | accept hfind hcall => exact (accepted_of_blockCreateFromTuple hcall).2.hash_eq

/-- A node that creates a block on a parent without a child of its own has not
created this block before. -/
theorem create_added {bc : Blockchain} (run : NodeRun S bc) {now : UInt64}
    {prev next : BlockPtr} {txns : List Transactions.Transaction} (hprev : Stored bc prev)
    (hchildless : blockGetChildWithPublicKey bc prev pk = [])
    (hblock : blockCreate S now pk sk prev txns = .ok next) (hne : next ≠ [])
    (hfree : S.CollisionFree (headers bc next))
    (hzero : ∀ string ∈ headers bc next, S.generichash string ≠ Bytes.zero generichashBytes) :
    ∃ r, blockchainAddBlock bc next = .ok r ∧ r.added = true := by
  obtain ⟨stored, built⟩ := run.builtRun
  have rep := represents_of_builtRun built
  have hprev' := (stored_iff built.tree _).mp hprev
  rw [childless_iff run hprev] at hchildless
  have hbuilt : Built S next := .create (built.built prev hprev') hblock
  obtain ⟨r, hr, hspec⟩ := blockchainAddBlock_spec built.tree
    (addable_of_blockCreate (.inr hprev') hblock hne)
  refine ⟨r, hr, ?_⟩
  rw [hspec.added_iff]
  intro hmem
  obtain ⟨b, hb, hhash⟩ := List.mem_map.mp hmem
  rcases next with _ | ⟨data, prev₁⟩
  · exact absurd rfl hne
  rcases b with _ | ⟨data', prev₂⟩
  · exact built.tree.ne_nil hb rfl
  obtain ⟨rfl, -, -, accounts, -, hdata⟩ := BlockDelivery.blockCreate_spec hblock
  have hb' : Stored bc (data' :: prev₂) := (stored_iff built.tree _).mpr hb
  rw [blockGetHash, blockGetHash, hash_of_built (built.built _ hb), hash_of_built hbuilt] at hhash
  have hheader := HistoryBinding.header_inj
    (hfree ⟨data', prev₂, .inl hb', rfl⟩ ⟨data, prev₁, .inr rfl, rfl⟩ hhash)
  simp only [headerOf, HeaderMessage.mk.injEq] at hheader
  obtain ⟨-, hparents, -, hkeys, -⟩ := hheader
  have hsame : prev₂ = prev₁ := by
    rcases (rep.parent _ hb).2 with hnull | hparent
    · rw [List.tail_cons] at hnull
      rw [hnull] at hparents
      rcases prev₁ with _ | ⟨data₁, before⟩
      · exact hnull
      · have hnonzero := hzero _ ⟨data₁, before, .inl hprev, rfl⟩
        rw [← hash_of_built (built.built _ hprev')] at hnonzero
        exact absurd hparents.symm hnonzero
    · rw [List.tail_cons] at hparent
      rw [← rep.lookup_eq _ hparent, hparents, rep.lookup_eq _ hprev']
  refine hchildless _ hb' hsame (hkeys.trans ?_)
  rw [hdata]
  rfl

end Headers

/-- An honest node has at most one block on each parent, and the block that
`on_timer` creates is always added. -/
theorem never_equivocates {state : State} {events : List Event}
    (run : Run S state.application.publicKey state.application.secretKey events (storeOf state))
    (hunforged : Unforged state.application.publicKey events) :
    Honest state.application.publicKey state.application.blockchain ∧
      ∀ next state₁, state.application.blockchain.principal ≠ [] →
        blockGetChildWithPublicKey state.application.blockchain
          state.application.blockchain.principal state.application.publicKey = [] →
        createNext S state state.application.blockchain.principal = .ok (next, state₁) →
        next ≠ [] → S.CollisionFree (headers state.application.blockchain next) →
        (∀ string ∈ headers state.application.blockchain next,
          S.generichash string ≠ Bytes.zero generichashBytes) →
        ∃ state₂, addBlockToState state₁ next = .ok (true, state₂) := by
  refine ⟨(faithful_of_run run hunforged).honest, ?_⟩
  intro next state₁ hprincipal hchildless hcreate hne hfree hzero
  have hmay : MayExtend state.application.publicKey (storeOf state)
      state.application.blockchain.principal := ⟨hprincipal, .inl rfl, hchildless⟩
  obtain ⟨hblock, rfl⟩ := createNext_spec hcreate
  obtain ⟨r, hr, hadded⟩ := create_added run.nodeRun (hmay.stored run.nodeRun) hchildless hblock
    hne hfree hzero
  obtain ⟨pool, hadd, -⟩ := Reorganisations.addBlock_spec hr poolCreate
  rw [hadded] at hadd
  exact ⟨_, addBlockToState_of_addBlock hadd⟩

section Genesis

/-- A node whose blockchain is the genesis block that it has created. -/
def genesisState (genesis : Block) : State :=
  { initialState minerKey minerSecret 0 (fun _ => 2) (fun _ => guidNull) with
    application :=
      { (initialState minerKey minerSecret 0 (fun _ => 2) (fun _ => guidNull)).application with
        blockchain := { storeBlock blockchainCreate genesis [] with principal := [genesis] } } }

/-- The bytes that the hash of a block is taken of. -/
def headerString : BlockPtr → List UInt8
  | [] => []
  | data :: prev => blockWriteHeader [] data prev data.transactions.length

theorem exists_genesis : ∃ genesis, minedBlock 1 [] [] = [genesis] ∧
    Run transparent minerKey minerSecret [.created [] 1 [genesis] true]
      (storeOf (genesisState genesis)) := by
  have hne : minedBlock 1 [] [] ≠ [] := by decide +kernel
  have hblock := blockCreate_eq_minedBlock hne
  rcases hmined : minedBlock 1 [] [] with _ | ⟨genesis, prev⟩
  · exact absurd hmined hne
  · rw [hmined] at hblock
    obtain ⟨rfl, -⟩ := BlockDelivery.blockCreate_spec hblock
    exact ⟨genesis, rfl, .start hblock (List.cons_ne_nil _ _)
      (Reorganisations.addBlock_extend rfl poolCreate)⟩

theorem stored_genesisState {genesis : Block} {b : BlockPtr}
    (h : Stored (genesisState genesis).application.blockchain b) : b = [genesis] := by
  rw [Stored] at h
  exact List.mem_singleton.mp h

theorem headers_genesisState {genesis : Block} {next : BlockPtr} {string : List UInt8}
    (h : string ∈ headers (genesisState genesis).application.blockchain next) :
    string = headerString [genesis] ∨ string = headerString next := by
  obtain ⟨data, prev, hblock, rfl⟩ := h
  rcases hblock with hstored | hnext
  · exact Or.inl (congrArg headerString (stored_genesisState hstored))
  · exact Or.inr (congrArg headerString hnext)

/-- The node that has created the genesis block adds another block to it. -/
theorem never_equivocates_genesis :
    ∃ (genesis : Block) (next : BlockPtr) (state₁ state₂ : State),
    minedBlock 1 [] [] = [genesis] ∧ minedBlock 2 [genesis] [] = next ∧
      Honest minerKey (genesisState genesis).application.blockchain ∧
      createNext transparent (genesisState genesis) [genesis] = .ok (next, state₁) ∧
      addBlockToState state₁ next = .ok (true, state₂) := by
  obtain ⟨genesis, hgenesis, run⟩ := exists_genesis
  have hne : minedBlock 2 (minedBlock 1 [] []) [] ≠ [] := by decide +kernel
  have hstrings : transparent.generichash (headerString (minedBlock 1 [] [])) ≠
      transparent.generichash (headerString (minedBlock 2 (minedBlock 1 [] []) [])) := by
    decide +kernel
  have hzero : transparent.generichash (headerString (minedBlock 1 [] [])) ≠
        Bytes.zero generichashBytes ∧
      transparent.generichash (headerString (minedBlock 2 (minedBlock 1 [] []) [])) ≠
        Bytes.zero generichashBytes := by
    decide +kernel
  rw [hgenesis] at hne hstrings hzero
  have hcreate := @createNext_of_blockCreate _ (genesisState genesis) _ _
    (blockCreate_eq_minedBlock hne)
  have hunforged : Unforged minerKey [.created [] 1 [genesis] true] := by
    intro before block added after hsplit
    rcases before with _ | ⟨event, before⟩
    · cases hsplit
    · simp at hsplit
  obtain ⟨honest, hadded⟩ := @never_equivocates _ (genesisState genesis) _ run hunforged
  have hfree : transparent.CollisionFree
      (headers (genesisState genesis).application.blockchain (minedBlock 2 [genesis] [])) := by
    intro x hx y hy heq
    rcases headers_genesisState hx with rfl | rfl <;>
      rcases headers_genesisState hy with rfl | rfl
    · rfl
    · exact absurd heq hstrings
    · exact absurd heq.symm hstrings
    · rfl
  obtain ⟨state₂, hadd⟩ := hadded _ _ (List.cons_ne_nil _ _) rfl hcreate hne hfree (by
    intro string hstring
    rcases headers_genesisState hstring with rfl | rfl
    · exact hzero.1
    · exact hzero.2)
  exact ⟨genesis, _, _, state₂, hgenesis, rfl, honest, hcreate, hadd⟩

end Genesis

end Whosecoin.Equivocation

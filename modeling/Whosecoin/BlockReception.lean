import Whosecoin.LedgerRefinement
import Whosecoin.MalformedTuples
import Whosecoin.NodeRuns

namespace Whosecoin.BlockReception

open Library.Outcomes
open Library.ByteStrings
open Cryptography
open TupleParser
open TupleFormat
open Transactions
open TransactionSchema
open Accounts
open Blocks
open BlockSchema
open Blockchains
open Pools
open Messages
open Networks
open Handlers
open MalformedTuples
open NodeRuns

variable {S : Sodium}

section Ledger

variable {prev : BlockPtr} {height : UInt32}

theorem applyTransactions_returns_iff (accounts : Library.Maps.Map PublicKey AccountPtr)
    (txns : List (Option Transaction)) :
    Returns (applyTransactions prev height accounts txns) ↔ none ∉ txns := by
  induction txns generalizing accounts with
  | nil => simp [applyTransactions]
  | cons txn txns ih =>
      cases txn with
      | none => simp [applyTransactions]
      | some txn =>
          rw [applyTransactions, LedgerRefinement.applyTransaction_eq_some]
          simp only [ih, List.mem_cons, reduceCtorEq, false_or]

theorem areTransactionsValid_returns_iff (pk : PublicKey) (txns : List (Option Transaction)) :
    Returns (areTransactionsValid prev pk height txns) ↔ none ∉ txns :=
  applyTransactions_returns_iff _ txns

end Ledger

section Acceptance

/-- The header names a creator who may stake on the parent and has signed it. -/
structure HeaderPasses (S : Sodium) (m : BlockMessage) (prev : BlockPtr) : Prop where
  staking : isStakingAllowed prev m.header.publicKey = true
  sortition : (S.vrfVerify m.header.publicKey m.header.sortitionProof
    (blockComputeSeed S prev).toList).isSome = true
  delegate : isDelegateAllowed prev m.header.publicKey m.header.delegate = true
  signature : S.signVerifyDetached (Bytes.ofList signBytes m.signature) (m.hash S prev).toList
    m.header.publicKey = true

variable {m : BlockMessage} {prev : BlockPtr}

theorem accept_of_not_passes (hshort : m.signature.length ≤ signBytes)
    (h : ¬ HeaderPasses S m prev) : m.accept S prev = .ok [] := by
  have hmemcpy := @memcpy_append _ _ _ [] (Eq.refl m.signature.length) hshort
  rw [List.append_nil] at hmemcpy
  rw [BlockMessage.accept, hmemcpy, ok_bind]
  cases hstaking : isStakingAllowed prev m.header.publicKey with
  | false => rfl
  | true =>
      cases hverify : S.vrfVerify m.header.publicKey m.header.sortitionProof
          (blockComputeSeed S prev).toList with
      | none => rfl
      | some sortitionHash =>
          cases hallowed : isDelegateAllowed prev m.header.publicKey m.header.delegate with
          | false => rfl
          | true =>
              cases hsigned : S.signVerifyDetached (Bytes.ofList signBytes m.signature)
                  (m.hash S prev).toList m.header.publicKey with
              | false => rfl
              | true => exact absurd ⟨hstaking, by rw [hverify]; rfl, hallowed, hsigned⟩ h

/-- Only a copied signature that does not fit and a refused transaction under a
valid header make the program fail. -/
theorem accept_returns_iff :
    Returns (m.accept S prev) ↔ m.signature.length ≤ signBytes ∧
      (HeaderPasses S m prev → ∀ t ∈ m.transactions, t.Verifies S) := by
  rcases Nat.lt_or_ge signBytes m.signature.length with hlong | hshort
  · rw [accept_of_long prev hlong]
    simp [Nat.not_le.mpr hlong]
  · by_cases hpasses : HeaderPasses S m prev
    · have hmemcpy := @memcpy_append _ _ _ [] (Eq.refl m.signature.length) hshort
      rw [List.append_nil] at hmemcpy
      obtain ⟨sortitionHash, hverify⟩ := Option.isSome_iff_exists.mp hpasses.sortition
      rw [BlockMessage.accept, hmemcpy, ok_bind, hpasses.staking, hverify]
      simp only [hpasses.delegate, hpasses.signature, Bool.not_true, Bool.false_eq_true, if_false]
      rw [returns_bind]
      constructor
      · rintro ⟨result, hledger, -⟩
        have hnone := (areTransactionsValid_returns_iff _ _).mp ⟨result, hledger⟩
        refine ⟨hshort, fun _ t ht => ?_⟩
        by_contra hverifies
        exact hnone (List.mem_map.mpr ⟨t, ht, if_neg hverifies⟩)
      · rintro ⟨-, hall⟩
        rw [map_verified (hall hpasses)]
        obtain ⟨accounts, hledger, -⟩ := LedgerRefinement.areTransactionsValid_spec prev
          m.header.publicKey (1 + blockGetHeight prev)
          (m.transactions.map fun t => t.transaction S)
        exact ⟨_, hledger, returns_ok _⟩
    · rw [accept_of_not_passes hshort hpasses]
      simp [hshort, hpasses]

theorem accept_of_passes (hshort : m.signature.length ≤ signBytes) (h : HeaderPasses S m prev)
    (hall : ∀ t ∈ m.transactions, t.Verifies S) :
    ∃ sortitionHash accounts, m.accept S prev =
      .ok (m.block S prev sortitionHash accounts :: prev) := by
  obtain ⟨sortitionHash, hverify⟩ := Option.isSome_iff_exists.mp h.sortition
  obtain ⟨accounts, hledger, -⟩ := LedgerRefinement.areTransactionsValid_spec prev
    m.header.publicKey (1 + blockGetHeight prev) (m.txns S)
  refine ⟨sortitionHash, accounts, ?_⟩
  rw [accept_eq_ok_iff]
  exact ⟨rfl, sortitionHash, accounts,
    ⟨hshort, h.staking, hverify, h.delegate, hall, h.signature⟩, hledger, rfl⟩

end Acceptance

section Adding

variable {a b : State}

theorem addBlockToState_returns (run : Representation.NodeRun S a.application.blockchain)
    {block : BlockPtr} (hne : block ≠ [])
    (hparent : block.tail = [] ∨ Representation.Stored a.application.blockchain block.tail) :
    Returns (addBlockToState a block) := by
  obtain ⟨stored, built⟩ := run.builtRun
  rw [Representation.stored_iff built.tree] at hparent
  obtain ⟨r, hr, -⟩ := PrincipalChain.blockchainAddBlock_spec built.tree ⟨hne, hparent⟩
  obtain ⟨pool, hadd, -⟩ := Reorganisations.addBlock_spec hr a.application.pool
  exact ⟨_, addBlockToState_of_addBlock hadd⟩

theorem broadcastBlock_returns_iff {block : BlockPtr} {bytes : List UInt8} (hne : block ≠ [])
    (hwrite : blockWrite [] block = .ok bytes) :
    Returns (broadcastBlock a block) ↔ messageHeaderSize + bytes.length < 2 ^ 31 := by
  rw [broadcastBlock, require, if_pos hne, hwrite]
  simp only [ok_bind, networkBroadcast, broadcastMessage, sharedBufferCreate,
    messageCreate_length]
  split_ifs with hsize
  · exact ⟨fun _ => hsize, fun _ => returns_ok _⟩
  · exact ⟨fun h => absurd h (not_returns_error _), fun h => absurd h hsize⟩

theorem added_iff {block : BlockPtr} {added : Bool}
    (h : addBlockToState a block = .ok (added, b)) :
    added = true ↔ a.application.blockchain.blocks.get (blockGetHash block) = none := by
  obtain ⟨bc, pool, hadd, rfl⟩ := addBlockToState_spec h
  obtain ⟨r, hr, rfl, rfl⟩ := addBlock_ok hadd
  rcases blockchainAddBlock_cases hr with ⟨⟨old, hold⟩, rfl⟩ |
    ⟨data, prev, rfl, hnew, hstored⟩
  · simp [hold]
  · simp [hstored.added, blockGetHash, hnew]

theorem eq_of_not_added {block : BlockPtr} (h : addBlockToState a block = .ok (false, b)) :
    b = a := by
  obtain ⟨bc, pool, hadd, rfl⟩ := addBlockToState_spec h
  obtain ⟨r, hr, hrefused, rfl⟩ := addBlock_ok hadd
  rcases blockchainAddBlock_cases hr with ⟨-, rfl⟩ | ⟨data, prev, rfl, -, hstored⟩
  · rw [addBlock, hr] at hadd
    cases hadd
    rfl
  · rw [hstored.added] at hrefused
    cases hrefused

theorem stored_of_added {block : BlockPtr} (h : addBlockToState a block = .ok (true, b)) :
    Representation.Stored b.application.blockchain block := by
  obtain ⟨bc, pool, hadd, rfl⟩ := addBlockToState_spec h
  obtain ⟨r, hr, hadded, rfl⟩ := addBlock_ok hadd
  rcases blockchainAddBlock_cases hr with ⟨-, rfl⟩ | ⟨data, prev, rfl, hnew, hstored⟩
  · cases hadded
  · exact (Representation.stored_storedAs_iff hnew hstored _).mpr (.inr rfl)

theorem blockCreate_returns (S : Sodium) (now : UInt64) (pk : PublicKey) (sk : SecretKey)
    (prev : BlockPtr) (txns : List Transaction) :
    Returns (blockCreate S now pk sk prev txns) := by
  rw [blockCreate]
  split_ifs with hstaking hdelegates
  · exact returns_ok []
  · exact returns_ok []
  · rw [returns_bind]
    obtain ⟨accounts, hledger, -⟩ :=
      LedgerRefinement.areTransactionsValid_spec prev pk (1 + blockGetHeight prev) txns
    exact ⟨_, hledger, returns_ok _⟩

theorem blockWrite_returns {block : BlockPtr} (hne : block ≠ []) (buf : List UInt8) :
    Returns (blockWrite buf block) := by
  rcases block with _ | ⟨data, prev⟩
  · exact absurd rfl hne
  · exact returns_ok _

/-- The block that the node creates on top of `prev` takes less than 2^31 bytes. -/
def ForkFits (S : Sodium) (state : State) (prev : BlockPtr) : Prop :=
  prev ≠ [] →
    blockGetChildWithPublicKey state.application.blockchain prev state.application.publicKey =
      [] →
    ∀ next bytes, blockCreate S (state.application.times 0) state.application.publicKey
        state.application.secretKey prev state.application.pool.list = .ok next → next ≠ [] →
      state.application.blockchain.blocks.get (blockGetHash next) = none →
      blockWrite [] next = .ok bytes → messageHeaderSize + bytes.length < 2 ^ 31

theorem forkAt_returns_iff (run : Representation.NodeRun S a.application.blockchain)
    {prev : BlockPtr}
    (hprev : prev = [] ∨ Representation.Stored a.application.blockchain prev) :
    Returns (forkAt S a prev) ↔ ForkFits S a prev := by
  rw [forkAt, ForkFits]
  split_ifs with hmay
  · obtain ⟨next, hnext⟩ :=
      blockCreate_returns S (a.application.times 0) a.application.publicKey
      a.application.secretKey prev a.application.pool.list
    rw [createNext_of_blockCreate hnext, ok_bind]
    rcases eq_or_ne next [] with rfl | hne
    · refine ⟨fun _ _ _ next' bytes hnext' hne' => ?_, fun _ => returns_ok _⟩
      rw [hnext, Except.ok.injEq] at hnext'
      exact absurd hnext'.symm hne'
    · obtain ⟨bytes, hwrite⟩ := blockWrite_returns hne []
      have htail : next.tail = prev := by
        obtain ⟨data, rfl⟩ := Chains.eq_cons_of_blockCreate hnext hne
        rfl
      obtain ⟨⟨added, c⟩, hadd⟩ := @addBlockToState_returns S
        { a with application := { a.application with
          pool := poolCreate
          times := fun n => a.application.times (n + 1) } } run next hne (htail.symm ▸ hprev)
      have hnew := added_iff hadd
      simp only [if_neg hne]
      rw [hadd, ok_bind]
      cases added with
      | false =>
          refine ⟨fun _ _ _ next' bytes' hnext' _ hfresh => ?_, fun _ => returns_ok _⟩
          rw [hnext, Except.ok.injEq] at hnext'
          subst hnext'
          exact absurd (hnew.mpr hfresh) Bool.false_ne_true
      | true =>
          simp only [if_true]
          rw [broadcastBlock_returns_iff hne hwrite]
          constructor
          · intro hfits _ _ next' bytes' hnext' _ _ hwrite'
            rw [hnext, Except.ok.injEq] at hnext'
            subst hnext'
            rw [hwrite, Except.ok.injEq] at hwrite'
            rw [← hwrite']
            exact hfits
          · intro hfits
            exact hfits hmay.1 hmay.2 next bytes hnext hne (hnew.mp rfl) hwrite
  · refine ⟨fun _ hne hchildless => absurd ⟨hne, hchildless⟩ hmay, fun _ => returns_ok _⟩

end Adding

section Receiving

variable {a b : State} {tuple : Tuple} {ws : List Value}

/-- The parent that the node finds for a message. -/
def parentIn (state : State) (m : BlockMessage) : BlockPtr :=
  blockchainGetBlock state.application.blockchain m.header.prevHash

/-- A tuple is cut short, or the message of a block, or refused at once. -/
theorem blockCreateFromTuple_total (h : Represents tuple ws) (S : Sodium)
    (find : Hash → BlockPtr) :
    (BlockCutShort ws ∧ ¬ Returns (blockCreateFromTuple S tuple find)) ∨
      ¬ BlockCutShort ws ∧
        ((∃ m : BlockMessage, ws = m.values ∧ m.Consistent S ∧
            blockCreateFromTuple S tuple find = m.accept S (find m.header.prevHash)) ∨
          (¬ (∃ m : BlockMessage, ws = m.values ∧ m.Consistent S) ∧
            blockCreateFromTuple S tuple find = .ok [])) := by
  have hreturns := blockIsValid_returns_iff h S
  rcases hvalid : blockIsValid S tuple with e | valid
  · rw [hvalid] at hreturns
    refine Or.inl ⟨by simpa using hreturns, ?_⟩
    rw [blockCreateFromTuple, hvalid, error_bind]
    exact not_returns_error e
  · refine Or.inr ⟨hreturns.mp ⟨valid, hvalid⟩, ?_⟩
    cases valid with
    | true =>
        obtain ⟨m, rfl⟩ := exists_message_of_blockIsValid h hvalid
        have hconsistent := (blockIsValid_iff h S).mp hvalid
        exact Or.inl ⟨m, rfl, hconsistent, blockCreateFromTuple_eq h hconsistent find⟩
    | false =>
        refine Or.inr ⟨?_, by rw [blockCreateFromTuple, hvalid]; rfl⟩
        rintro ⟨m, rfl, hconsistent⟩
        rw [(blockIsValid_iff h S).mpr hconsistent] at hvalid
        cases hvalid

theorem blockCreateFromTuple_unique {tuple' : Tuple} {find : Hash → BlockPtr}
    {block block' : BlockPtr} (h : Represents tuple ws) (h' : Represents tuple' ws)
    (hrun : blockCreateFromTuple S tuple find = .ok block)
    (hrun' : blockCreateFromTuple S tuple' find = .ok block') : block' = block := by
  rcases blockCreateFromTuple_total h S find with
    ⟨-, hfails⟩ | ⟨-, ⟨m, rfl, hconsistent, haccept⟩ | ⟨hnone, hrefused⟩⟩
  · exact absurd ⟨block, hrun⟩ hfails
  · rw [haccept] at hrun
    rw [blockCreateFromTuple_eq h' hconsistent, hrun] at hrun'
    exact (Except.ok.inj hrun').symm
  · rcases blockCreateFromTuple_total h' S find with
      ⟨-, hfails⟩ | ⟨-, ⟨m, rfl, hconsistent, -⟩ | ⟨-, hrefused'⟩⟩
    · exact absurd ⟨block', hrun'⟩ hfails
    · exact absurd ⟨m, rfl, hconsistent⟩ hnone
    · rw [hrefused] at hrun
      rw [hrefused', hrun] at hrun'
      exact (Except.ok.inj hrun').symm

theorem receiveBlock_unique {tuple' : Tuple} {c : State} (h : Represents tuple ws)
    (h' : Represents tuple' ws) (hrun : receiveBlock S a tuple = .ok b)
    (hrun' : receiveBlock S a tuple' = .ok c) : c = b := by
  rw [receiveBlock, bind_eq_ok] at hrun hrun'
  obtain ⟨block, hblock, hrun⟩ := hrun
  obtain ⟨block', hblock', hrun'⟩ := hrun'
  obtain rfl := blockCreateFromTuple_unique h h' hblock hblock'
  exact Except.ok.inj (hrun'.symm.trans hrun)

/-- What a received block must be for the node to go through with it. -/
structure BlockFine (S : Sodium) (state : State) (ws : List Value) : Prop where
  whole : ¬ BlockCutShort ws
  short : ∀ m : BlockMessage, ws = m.values → m.Consistent S →
    m.signature.length ≤ signBytes
  verified : ∀ m : BlockMessage, ws = m.values → m.Consistent S →
    HeaderPasses S m (parentIn state m) → ∀ t ∈ m.transactions, t.Verifies S
  fits : ∀ (m : BlockMessage) (block : BlockPtr) (state' : State), ws = m.values →
    m.Consistent S → m.accept S (parentIn state m) = .ok block → block ≠ [] →
    addBlockToState state block = .ok (true, state') → ForkFits S state' block.tail

theorem blockFine_of_no_message (hwhole : ¬ BlockCutShort ws)
    (hnone : ¬ ∃ m : BlockMessage, ws = m.values ∧ m.Consistent S) : BlockFine S a ws where
  whole := hwhole
  short := fun m hm hconsistent => absurd ⟨m, hm, hconsistent⟩ hnone
  verified := fun m hm hconsistent => absurd ⟨m, hm, hconsistent⟩ hnone
  fits := fun m _ _ hm hconsistent => absurd ⟨m, hm, hconsistent⟩ hnone

theorem added_returns_iff (run : Representation.NodeRun S a.application.blockchain)
    {block : BlockPtr}
    (hblock : blockCreateFromTuple S tuple (blockchainGetBlock a.application.blockchain) =
      .ok block) (hne : block ≠ []) :
    Returns (addBlockToState a block >>= fun result =>
        if result.1 then forkAt S result.2 block.tail else pure result.2) ↔
      ∀ state', addBlockToState a block = .ok (true, state') →
        ForkFits S state' block.tail := by
  have hparent := Representation.parent_of_accept hblock hne
  obtain ⟨⟨added, state⟩, hadd⟩ := addBlockToState_returns run hne hparent
  rw [hadd, ok_bind]
  cases added with
  | false => simp
  | true =>
      have hkept := hparent.imp_right (addBlockToState_stored hadd)
      have hrun : Representation.NodeRun S state.application.blockchain := by
        obtain ⟨bc, pool, hstored, rfl⟩ := addBlockToState_spec hadd
        obtain ⟨r, hr, -, rfl⟩ := addBlock_ok hstored
        exact run.accept hblock hne hr
      simp only [if_true, Except.ok.injEq, Prod.mk.injEq, true_and, forall_eq']
      exact forkAt_returns_iff hrun hkept

/-- The handler of a block returns exactly on the blocks that are fine. -/
theorem receiveBlock_returns_iff (h : Represents tuple ws)
    (run : Representation.NodeRun S a.application.blockchain) :
    Returns (receiveBlock S a tuple) ↔ BlockFine S a ws := by
  rw [receiveBlock, returns_bind]
  rcases blockCreateFromTuple_total h S (blockchainGetBlock a.application.blockchain) with
    ⟨hcut, hfails⟩ | ⟨hwhole, ⟨m, rfl, hconsistent, haccept⟩ | ⟨hnone, hrefused⟩⟩
  · constructor
    · rintro ⟨block, hblock, -⟩
      exact absurd ⟨block, hblock⟩ hfails
    · intro hfine
      exact absurd hcut hfine.whole
  · constructor
    · rintro ⟨block, hblock, hrest⟩
      have haccepted := haccept.symm.trans hblock
      have hreturns := accept_returns_iff.mp ⟨block, haccepted⟩
      refine ⟨hwhole, ?_, ?_, ?_⟩
      · intro m' hm' _
        obtain rfl := BlockMessage.values_injective hm'
        exact hreturns.1
      · intro m' hm' _ hpasses
        obtain rfl := BlockMessage.values_injective hm'
        exact hreturns.2 hpasses
      · intro m' block' state' hm' _ hblock' hne hadd
        obtain rfl := BlockMessage.values_injective hm'
        obtain rfl := Except.ok.inj (haccepted.symm.trans hblock')
        rw [if_neg hne] at hrest
        exact (added_returns_iff run hblock hne).mp hrest state' hadd
    · intro hfine
      obtain ⟨block, haccepted⟩ := accept_returns_iff.mpr
        ⟨hfine.short m rfl hconsistent, hfine.verified m rfl hconsistent⟩
      have hblock := haccept.trans haccepted
      refine ⟨block, hblock, ?_⟩
      rcases eq_or_ne block [] with hnull | hne
      · rw [if_pos hnull]
        exact returns_ok a
      · rw [if_neg hne]
        refine (added_returns_iff run hblock hne).mpr ?_
        intro state' hadd
        exact hfine.fits m block state' rfl hconsistent haccepted hne hadd
  · refine ⟨fun _ => blockFine_of_no_message hwhole hnone, fun _ => ?_⟩
    exact ⟨[], hrefused, returns_ok a⟩

/-- The node adds a block that it has not known. -/
def Taken (S : Sodium) (state : State) (ws : List Value) : Prop :=
  ∃ m : BlockMessage, ws = m.values ∧ m.Consistent S ∧ HeaderPasses S m (parentIn state m) ∧
    state.application.blockchain.blocks.get (m.hash S (parentIn state m)) = none

theorem receiveBlock_of_not_taken (h : Represents tuple ws) (hnot : ¬ Taken S a ws)
    (hrun : receiveBlock S a tuple = .ok b) : b = a := by
  rw [receiveBlock, bind_eq_ok] at hrun
  obtain ⟨block, hblock, hrun⟩ := hrun
  rcases eq_or_ne block [] with hnull | hne
  · rw [if_pos hnull] at hrun
    exact (Except.ok.inj hrun).symm
  rw [if_neg hne, bind_eq_ok] at hrun
  obtain ⟨⟨added, c⟩, hadd, hrun⟩ := hrun
  have hknown : added = false := by
    rw [← Bool.not_eq_true, added_iff hadd]
    intro hfresh
    rcases block with _ | ⟨data, prev⟩
    · exact hne rfl
    obtain ⟨m, rfl, hconsistent⟩ := exists_message_of_accepted h hblock
    rw [blockCreateFromTuple_eq h hconsistent, accept_eq_ok_iff] at hblock
    obtain ⟨rfl, sortitionHash, accounts, hchecks, -, rfl⟩ := hblock
    refine hnot ⟨m, rfl, hconsistent, ?_, hfresh⟩
    exact ⟨hchecks.staking, by rw [parentIn, hchecks.sortition]; rfl, hchecks.delegate,
      hchecks.signature⟩
  subst hknown
  cases hrun
  exact eq_of_not_added hadd

theorem receiveBlock_of_taken (h : Represents tuple ws)
    (run : Representation.NodeRun S a.application.blockchain) (htaken : Taken S a ws)
    (hrun : receiveBlock S a tuple = .ok b) :
    ∃ block, ¬ Representation.Stored a.application.blockchain block ∧
      Representation.Stored b.application.blockchain block := by
  have hfine := (receiveBlock_returns_iff h run).mp ⟨b, hrun⟩
  obtain ⟨m, rfl, hconsistent, hpasses, hfresh⟩ := htaken
  obtain ⟨sortitionHash, accounts, haccept⟩ := accept_of_passes
    (hfine.short m rfl hconsistent) hpasses (hfine.verified m rfl hconsistent hpasses)
  have hblock := blockCreateFromTuple_eq h hconsistent
    (blockchainGetBlock a.application.blockchain)
  rw [receiveBlock, hblock, show blockchainGetBlock a.application.blockchain m.header.prevHash =
    parentIn a m from rfl, haccept, ok_bind, if_neg (List.cons_ne_nil _ _), bind_eq_ok] at hrun
  obtain ⟨⟨added, c⟩, hadd, hrun⟩ := hrun
  obtain rfl := (added_iff hadd).mpr hfresh
  refine ⟨m.block S (parentIn a m) sortitionHash accounts :: parentIn a m, ?_,
    forkAt_stored hrun (stored_of_added hadd)⟩
  intro hstored
  obtain ⟨stored, built⟩ := run.builtRun
  rw [Representation.stored_iff built.tree] at hstored
  have hget := built.tree.get_hash hstored
  rw [show blockGetHash (m.block S (parentIn a m) sortitionHash accounts :: parentIn a m) =
    m.hash S (parentIn a m) from rfl, hfresh] at hget
  cases hget

end Receiving

end Whosecoin.BlockReception

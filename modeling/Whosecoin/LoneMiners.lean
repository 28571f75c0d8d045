import Whosecoin.Mining

namespace Whosecoin.LoneMiners

open Library.Outcomes
open Library.Ledgers
open Cryptography
open Accounts
open Blocks
open Chains
open LedgerRefinement
open Staking
open Pools
open Networks
open Handlers
open NodeRuns
open Mining

variable {S : Sodium} {pk : PublicKey} {sk : SecretKey} {chain : BlockPtr}

/-- A chain of blocks without transactions that one key pair has created. -/
inductive Alone (S : Sodium) (pk : PublicKey) (sk : SecretKey) : BlockPtr → Prop where
  | null : Alone S pk sk []
  | mine {now : UInt64} {data : Block} {prev : BlockPtr} (alone : Alone S pk sk prev)
      (hcreate : blockCreate S now pk sk prev [] = .ok (data :: prev)) :
      Alone S pk sk (data :: prev)

namespace Alone

theorem built (alone : Alone S pk sk chain) : Built S chain := by
  induction alone with
  | null => exact .null
  | mine alone hcreate ih => exact .create ih hcreate

theorem contents (alone : Alone S pk sk chain) :
    ∀ data ∈ chain, data.publicKey = pk ∧ data.transactions = [] := by
  induction alone with
  | null => exact fun data hdata => absurd hdata List.not_mem_nil
  | mine alone hcreate ih =>
      obtain ⟨-, -, -, accounts, -, rfl⟩ := BlockDelivery.blockCreate_spec hcreate
      rintro data (_ | ⟨_, hdata⟩)
      · exact ⟨rfl, rfl⟩
      · exact ih data hdata

theorem exactLedger_eq (alone : Alone S pk sk chain) :
    exactLedger chain pk = 1024 * chain.length := by
  induction alone with
  | null => rfl
  | @mine now data prev alone hcreate ih =>
      obtain ⟨hkey, htxns⟩ := (alone.mine hcreate).contents data List.mem_cons_self
      rw [exactLedger_cons, hkey, htxns]
      show credit (exactLedger prev) pk 1024 pk = 1024 * ((prev.length + 1 : ℕ) : ℤ)
      rw [credit_apply, if_pos rfl, ih]
      push_cast
      ring

theorem firstAppearance_length (alone : Alone S pk sk chain) {first : BlockPtr}
    (hfirst : FirstAppearance chain pk first) : first.length = 1 := by
  obtain ⟨hsuffix, block, earlier, rfl, -, hnone⟩ := hfirst
  rcases earlier with _ | ⟨data, earlier⟩
  · rfl
  · have hmem : data ∈ chain :=
      hsuffix.subset (List.mem_cons_of_mem block List.mem_cons_self)
    exact absurd (Or.inl (alone.contents data hmem).1) (hnone data List.mem_cons_self)

theorem height_eq (alone : Alone S pk sk chain) :
    blockGetHeight chain = UInt32.ofNat chain.length := by
  induction alone with
  | null => rfl
  | mine alone hcreate ih =>
      obtain ⟨-, -, -, accounts, -, rfl⟩ := BlockDelivery.blockCreate_spec hcreate
      show 1 + blockGetHeight _ = _
      rw [ih, List.length_cons, UInt32.ofNat_add, add_comm]
      rfl

/-- The account of the key has 1024 for each block, and is as old as the first one. -/
theorem exists_account (alone : Alone S pk sk chain) (hne : chain ≠ [])
    (hle : chain.length ≤ 2 ^ 32) :
    ∃ account earlier, blockGetAccount chain pk = account :: earlier ∧
      account.value.toNat = 1024 * chain.length ∧
      (firstVersion account earlier).blockHeight.toNat = 1 := by
  have hrefines := refines_of_built alone.built pk
  rcases hget : blockGetAccount chain pk with _ | ⟨account, earlier⟩
  · obtain ⟨data, hdata⟩ := List.exists_mem_of_ne_nil chain hne
    exact absurd (.inl (alone.contents data hdata).1) (hrefines.null_iff.mp hget data hdata)
  refine ⟨account, earlier, rfl, ?_, ?_⟩
  · have hmod := hrefines.value_modEq
    rw [hget, alone.exactLedger_eq, accountValue] at hmod
    have hvalue : account.value.toNat ≡ 1024 * chain.length [MOD 2 ^ 64] := by
      rw [← Int.natCast_modEq_iff]
      exact_mod_cast hmod
    exact Nat.ModEq.eq_of_lt_of_lt hvalue account.value.toNat_lt (by omega)
  · obtain ⟨first, hfirst, hage⟩ := firstVersion_height alone.built hget
    have hlength := alone.firstAppearance_length hfirst
    rw [hage, toNat_blockGetHeight (built_suffix alone.built hfirst.1) (by omega), hlength]

/-- The key may go on until its 2^32 delegates are narrowed to 32 bits. -/
theorem staking_iff (alone : Alone S pk sk chain) (hle : chain.length ≤ 2 ^ 32) :
    isStakingAllowed chain pk = true ↔ chain.length < 2 ^ 32 := by
  rcases eq_or_ne chain [] with rfl | hne
  · exact iff_of_true rfl (by decide)
  obtain ⟨account, earlier, hget, hvalue, hfirst⟩ := alone.exists_account hne hle
  have hnarrow : (accountGetDelegates account).toUInt32 = 0 ↔ chain.length = 2 ^ 32 := by
    have hpos := List.length_pos_iff.mpr hne
    rw [narrowed_eq_zero_iff, hvalue, Nat.mul_div_cancel_left _ (by decide)]
    omega
  have hage : (decide (blockGetHeight chain ≤ waitingPeriod) ||
      decide ((firstVersion account earlier).blockHeight + waitingPeriod ≤
        blockGetHeight chain)) = true := by
    rw [age_iff (by omega), hfirst]
    omega
  obtain ⟨data, prev, rfl⟩ := List.exists_cons_of_ne_nil hne
  rw [isStakingAllowed]
  simp only [hget, hage]
  split_ifs with hzero
  · exact iff_of_false (by simp) (by rw [hnarrow.mp hzero]; exact lt_irrefl _)
  · exact iff_of_true rfl (lt_of_le_of_ne hle (fun h => hzero (hnarrow.mpr h)))

theorem length_le (alone : Alone S pk sk chain) : chain.length ≤ 2 ^ 32 := by
  induction alone with
  | null => exact Nat.zero_le _
  | mine alone hcreate ih =>
      obtain ⟨-, hstaking, -⟩ := BlockDelivery.blockCreate_spec hcreate
      exact (alone.staking_iff ih).mp hstaking

end Alone

/-- A node that hears of no block and pays nothing, after a number of ticks. -/
inductive Lone (S : Sodium) : Nat → Miner → Prop where
  | start {pk : PublicKey} {sk : SecretKey} {port : Int32} {times : Nat → UInt64}
      {guids : Nat → Messages.Guid} {state : State}
      (hgenesis : createGenesis S (initialState pk sk port times guids) = .ok state) :
      Lone S 0 ⟨state, restarted (initialState pk sk port times guids) state⟩
  | tick {ticks : Nat} {state state' : State} (lone : Lone S ticks ⟨state, true⟩)
      (hfresh : ¬ Collides S state) (htimer : onTimer S state = .ok state') :
      Lone S (ticks + 1) ⟨state', restarted state state'⟩
  | network {ticks : Nat} {state : State} {armed : Bool} (lone : Lone S ticks ⟨state, armed⟩)
      (network : Network) : Lone S ticks ⟨{ state with network := network }, armed⟩

theorem Lone.runs {ticks : Nat} {miner : Miner} (lone : Lone S ticks miner) : Runs S miner := by
  induction lone with
  | start hgenesis => exact .start hgenesis
  | tick lone hfresh htimer ih => exact ih.tick hfresh htimer
  | network lone network ih => exact ih.network network

/-- Every tick has added a block, until the node had 2^32 of them. -/
structure Counted (S : Sodium) (ticks : Nat) (miner : Miner) : Prop where
  alone : Alone S miner.state.application.publicKey miner.state.application.secretKey
    miner.state.application.blockchain.principal
  pool_eq : miner.state.application.pool = poolCreate
  length_eq : miner.state.application.blockchain.principal.length = min (ticks + 1) (2 ^ 32)
  ticks_le : ticks ≤ 2 ^ 32
  armed_iff : miner.armed = true ↔ ticks < 2 ^ 32

theorem counted_start {pk : PublicKey} {sk : SecretKey} {port : Int32} {times : Nat → UInt64}
    {guids : Nat → Messages.Guid} {state : State}
    (h : createGenesis S (initialState pk sk port times guids) = .ok state) :
    Counted S 0 ⟨state, restarted (initialState pk sk port times guids) state⟩ := by
  simp only [createGenesis, bind_eq_ok] at h
  obtain ⟨block, hblock, h⟩ := h
  have hne := genesis_ne_nil hblock
  rw [if_neg hne, bind_eq_ok] at h
  obtain ⟨⟨added, mid⟩, hadd, hbroadcast⟩ := h
  obtain ⟨data, rfl⟩ := eq_cons_of_blockCreate hblock hne
  have hextend :=
    @Reorganisations.addBlock_extend Blockchains.blockchainCreate data rfl poolCreate
  obtain ⟨bc, pool, hstored, rfl⟩ := addBlockToState_spec hadd
  have hsame := hextend.symm.trans hstored
  simp only [Except.ok.injEq, Prod.mk.injEq] at hsame
  obtain ⟨-, rfl, rfl⟩ := hsame
  obtain ⟨hblockchain, hpool⟩ := broadcastBlock_application hbroadcast
  have hkeys := @broadcastBlock_continues S _ _ _ hbroadcast
  have hprincipal : state.application.blockchain.principal = [data] := by
    rw [hblockchain]
    rfl
  constructor
  · show Alone S state.application.publicKey state.application.secretKey _
    rw [hprincipal, hkeys.publicKey, hkeys.secretKey]
    exact .mine .null hblock
  · exact hpool
  · show state.application.blockchain.principal.length = _
    rw [hprincipal]
    rfl
  · exact Nat.zero_le _
  · refine iff_of_true ?_ (by decide)
    show restarted _ state = true
    rw [restarted, decide_eq_true_eq, hprincipal]
    exact List.cons_ne_nil _ _

theorem Counted.tick {ticks : Nat} {state state' : State} (h : Counted S ticks ⟨state, true⟩)
    (hreachable : Reachable S state) (hfresh : ¬ Collides S state)
    (htimer : onTimer S state = .ok state') :
    Counted S (ticks + 1) ⟨state', restarted state state'⟩ := by
  have hticks := h.armed_iff.mp rfl
  have hkeys := onTimer_continues htimer
  have hlength : state.application.blockchain.principal.length = ticks + 1 :=
    h.length_eq.trans (Nat.min_eq_left hticks)
  have hstaking := h.alone.staking_iff h.alone.length_le
  rw [hlength] at hstaking
  cases hstake : mayStake state with
  | false =>
      have hlast : ticks + 1 = 2 ^ 32 := by
        have hnot : ¬ ticks + 1 < 2 ^ 32 := by
          rw [← hstaking, ← mayStake, hstake]
          exact Bool.false_ne_true
        omega
      rw [onTimer_refused hreachable hstake, Except.ok.injEq] at htimer
      subst htimer
      constructor
      · exact h.alone
      · rfl
      · show state.application.blockchain.principal.length = _
        rw [hlength, hlast]
        rfl
      · exact hticks
      · refine iff_of_false ?_ (by omega)
        rw [restarted, decide_eq_true_eq]
        exact not_not_intro rfl
  | true =>
      have hlt := hstaking.mp hstake
      obtain ⟨data, -, -, hcreate, -, hrun⟩ := onTimer_allowed hreachable hstake hfresh
      obtain ⟨hblockchain, hpool⟩ := broadcastBlock_application (hrun.symm.trans htimer)
      have hprincipal : state'.application.blockchain.principal =
          data :: state.application.blockchain.principal := by
        rw [hblockchain]
        rfl
      constructor
      · show Alone S state'.application.publicKey state'.application.secretKey _
        rw [hprincipal, hkeys.publicKey, hkeys.secretKey]
        rw [h.pool_eq] at hcreate
        exact h.alone.mine hcreate
      · exact hpool
      · show state'.application.blockchain.principal.length = _
        rw [hprincipal, List.length_cons, hlength]
        omega
      · exact hticks
      · refine iff_of_true ?_ hlt
        show restarted state state' = true
        rw [restarted, decide_eq_true_eq, hprincipal]
        exact List.cons_ne_self _ _

theorem Lone.counted {ticks : Nat} {miner : Miner} (lone : Lone S ticks miner) :
    Counted S ticks miner := by
  induction lone with
  | start hgenesis => exact counted_start hgenesis
  | tick lone hfresh htimer ih => exact ih.tick lone.runs.reachable hfresh htimer
  | network lone network ih => exact ⟨ih.alone, ih.pool_eq, ih.length_eq,
    ih.ticks_le, ih.armed_iff⟩

/-- A node that hears of no block and pays nothing adds a block on every tick and has
1024 for each, until it has 2^32 blocks. Then its balance is worth 2^32 delegates, none
of which is left in 32 bits: the next tick is its last one. -/
theorem lone_node {ticks : Nat} {miner : Miner} (lone : Lone S ticks miner) :
    ticks ≤ 2 ^ 32 ∧ (miner.armed = true ↔ ticks < 2 ^ 32) ∧
      miner.state.application.blockchain.principal.length = min (ticks + 1) (2 ^ 32) ∧
      (accountValue (blockGetAccount miner.state.application.blockchain.principal
        miner.state.application.publicKey)).toNat = 1024 * min (ticks + 1) (2 ^ 32) := by
  have hcounted := lone.counted
  have hlength := hcounted.length_eq
  refine ⟨hcounted.ticks_le, hcounted.armed_iff, hlength, ?_⟩
  have hne : miner.state.application.blockchain.principal ≠ [] := by
    rw [← List.length_pos_iff, hlength]
    omega
  obtain ⟨account, earlier, hget, hvalue, -⟩ :=
    hcounted.alone.exists_account hne hcounted.alone.length_le
  rw [hget, accountValue, hvalue, hlength]

section Samples

/-- The first two blocks of a key under the transparent scheme. -/
structure FirstBlocks (first second : Block) : Prop where
  create_first : blockCreate transparent 1 minerKey minerSecret [] [] = .ok [first]
  create_second : blockCreate transparent 2 minerKey minerSecret [first] [] = .ok [second, first]
  hash_ne : second.hash ≠ first.hash
  sizes : ∀ block ∈ [[first], [second, first]], ∃ bytes, blockWrite [] block = .ok bytes ∧
    bytes.length < 2 ^ 30

theorem exists_firstBlocks : ∃ first second, FirstBlocks first second := by
  have hne₁ : minedBlock 1 [] [] ≠ [] := by decide +kernel
  have hne₂ : minedBlock 2 (minedBlock 1 [] []) [] ≠ [] := by decide +kernel
  have hhash : blockGetHash (minedBlock 2 (minedBlock 1 [] []) []) ≠
      blockGetHash (minedBlock 1 [] []) := by
    decide +kernel
  have hsize₁ : (blockWrite [] (minedBlock 1 [] [])).toOption.any
      (fun bytes => bytes.length < 2 ^ 30) = true := by
    decide +kernel
  have hsize₂ : (blockWrite [] (minedBlock 2 (minedBlock 1 [] []) [])).toOption.any
      (fun bytes => bytes.length < 2 ^ 30) = true := by
    decide +kernel
  have hfirst := blockCreate_eq_minedBlock hne₁
  have hsecond := blockCreate_eq_minedBlock hne₂
  obtain ⟨first, hblock₁⟩ := eq_cons_of_blockCreate hfirst hne₁
  rw [hblock₁] at hfirst hsecond hhash hsize₁ hsize₂ hne₂
  obtain ⟨second, hblock₂⟩ := eq_cons_of_blockCreate hsecond hne₂
  rw [hblock₂] at hsecond hhash hsize₂
  refine ⟨first, second, hfirst, hsecond, hhash, ?_⟩
  rintro block (_ | ⟨_, _ | ⟨_, hnone⟩⟩)
  · exact PendingTransactions.exists_size hsize₁
  · exact PendingTransactions.exists_size hsize₂
  · cases hnone

theorem exists_started {first second : Block} (h : FirstBlocks first second) :
    ∃ state, Lone transparent 0 ⟨state, true⟩ ∧
      state.application.blockchain = PendingTransactions.firstChain first ∧
      blockCreate transparent (state.application.times 0) state.application.publicKey
        state.application.secretKey state.application.blockchain.principal
        state.application.pool.list = .ok [second, first] := by
  obtain ⟨bytes, hwrite, hsize⟩ := h.sizes [first] (by simp)
  obtain ⟨network, hgenesis⟩ := @createGenesis_ok transparent minerKey minerSecret 0
    (fun n => UInt64.ofNat (n + 1)) (fun _ => Messages.guidNull) _ _ h.create_first hwrite hsize
  exact ⟨_, Lone.start hgenesis, rfl, h.create_second⟩

theorem lone_node_tick : ∃ state, Lone transparent 1 ⟨state, true⟩ ∧
    state.application.blockchain.principal.length = min (1 + 1) (2 ^ 32) ∧
    (accountValue (blockGetAccount state.application.blockchain.principal
      state.application.publicKey)).toNat = 1024 * min (1 + 1) (2 ^ 32) := by
  obtain ⟨first, second, h⟩ := exists_firstBlocks
  obtain ⟨bytes, hwrite, hsize⟩ := h.sizes [second, first] (by simp)
  obtain ⟨state, hlone, hchain, hcreate⟩ := exists_started h
  have hnew : state.application.blockchain.blocks.get second.hash = none := by
    rw [hchain]
    show (Blockchains.blockchainCreate.blocks.set first.hash [first]).get second.hash = none
    rw [Library.Maps.Map.get_set, if_neg h.hash_ne]
    rfl
  have hfresh := not_collides_of_create hcreate hnew
  have hfits := forkFits_of_create hcreate hwrite hsize
  obtain ⟨state', htimer⟩ := (onTimer_returns_iff hlone.runs.reachable hfresh).mpr hfits
  have htick := hlone.tick hfresh htimer
  obtain ⟨-, harmed, hlength, hvalue⟩ := lone_node htick
  have hrestarted : restarted state state' = true := harmed.mpr (by decide)
  rw [hrestarted] at htick
  exact ⟨state', htick, hlength, hvalue⟩

end Samples

end Whosecoin.LoneMiners

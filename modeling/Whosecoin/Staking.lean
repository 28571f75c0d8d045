import Whosecoin.LedgerRefinement

namespace Whosecoin.Staking

open Library.Outcomes
open Cryptography
open Accounts
open Blocks
open Chains
open LedgerRefinement

variable {S : Sodium} {chain : BlockPtr} {pk : PublicKey}

/-- The first block of the chain in which the key is the creator, a sender or a
recipient, with its ancestors. -/
def FirstAppearance (chain : BlockPtr) (pk : PublicKey) (first : BlockPtr) : Prop :=
  first <:+ chain ∧ ∃ block earlier, first = block :: earlier ∧ Touches block pk ∧
    ∀ ancestor ∈ earlier, ¬ Touches ancestor pk

/-- The chain is young, or the key appeared long enough ago. -/
def OldEnough (chain : BlockPtr) (pk : PublicKey) : Prop :=
  (blockGetHeight chain).toNat ≤ 16 ∨ ∃ first, FirstAppearance chain pk first ∧
    (blockGetHeight first).toNat + 16 ≤ (blockGetHeight chain).toNat

/-- Who may stake: the holders of the value of a delegate, when they are old enough. -/
structure StakingRule (chain : BlockPtr) (pk : PublicKey) : Prop where
  holds : ∃ account earlier, blockGetAccount chain pk = account :: earlier ∧
    1024 ≤ account.value.toNat
  oldEnough : OldEnough chain pk

/-- The number of delegates before it is narrowed to 32 bits. -/
def delegates (chain : BlockPtr) (pk : PublicKey) : Nat :=
  (accountValue (blockGetAccount chain pk)).toNat / 1024

section Heights

theorem built_suffix (built : Built S chain) {first : BlockPtr} (hsuffix : first <:+ chain) :
    Built S first := by
  induction chain, built using Built.induction with
  | null =>
      rw [List.suffix_nil.mp hsuffix]
      exact .null
  | extend block prev hext hprev built ih =>
      rcases List.suffix_cons_iff.mp hsuffix with rfl | hlater
      · exact built
      · exact ih hlater

theorem toNat_blockGetHeight (built : Built S chain) (hlength : chain.length < 2 ^ 32) :
    (blockGetHeight chain).toNat = chain.length := by
  induction chain, built using Built.induction with
  | null => rfl
  | extend block prev hext hprev built ih =>
      rw [List.length_cons] at hlength ⊢
      have hprevious := ih (by omega)
      rw [blockGetHeight, hext.height_eq, UInt32.toNat_add, hprevious, UInt32.toNat_one]
      omega

/-- The last version of an account is the one of the first block that touches it. -/
theorem firstVersion_height (built : Built S chain) {account : Account} {earlier : AccountPtr}
    (hget : blockGetAccount chain pk = account :: earlier) :
    ∃ first, FirstAppearance chain pk first ∧
      (firstVersion account earlier).blockHeight = blockGetHeight first := by
  induction chain, built using Built.induction generalizing account earlier with
  | null => cases hget
  | extend block prev hext hprev built ih =>
      by_cases htouch : Touches block pk
      · obtain ⟨version, -, hheight, hversion⟩ := blockGetAccount_of_touches hext htouch
        rw [hget, List.cons.injEq] at hversion
        obtain ⟨rfl, rfl⟩ := hversion
        cases hprevious : blockGetAccount prev pk with
        | nil =>
            refine ⟨block :: prev, ⟨List.suffix_refl _, block, prev, rfl, htouch, ?_⟩,
              hheight⟩
            exact (refines_of_built hprev pk).null_iff.mp hprevious
        | cons previous oldest =>
            obtain ⟨first, ⟨hsuffix, hfirst⟩, hage⟩ := ih hprevious
            exact ⟨first, ⟨hsuffix.trans (List.suffix_cons _ _), hfirst⟩, hage⟩
      · obtain ⟨-, hsame⟩ := blockGetAccount_of_not_touches hext htouch
        rw [hsame] at hget
        obtain ⟨first, ⟨hsuffix, hfirst⟩, hage⟩ := ih hget
        exact ⟨first, ⟨hsuffix.trans (List.suffix_cons _ _), hfirst⟩, hage⟩

theorem FirstAppearance.unique {p q : BlockPtr} (hp : FirstAppearance chain pk p)
    (hq : FirstAppearance chain pk q) : p = q := by
  obtain ⟨hsuffix, b, earlier, rfl, hb, hnone⟩ := hp
  obtain ⟨hsuffix', c, earlier', rfl, hc, hnone'⟩ := hq
  rcases List.suffix_or_suffix_of_suffix hsuffix hsuffix' with h | h
  · rcases List.suffix_cons_iff.mp h with heq | hlater
    · exact heq
    · exact absurd hb (hnone' b (hlater.subset List.mem_cons_self))
  · rcases List.suffix_cons_iff.mp h with heq | hlater
    · exact heq.symm
    · exact absurd hc (hnone c (hlater.subset List.mem_cons_self))

end Heights

theorem oldEnough_iff {first : BlockPtr} (hfirst : FirstAppearance chain pk first) :
    OldEnough chain pk ↔ (blockGetHeight chain).toNat ≤ 16 ∨
      (blockGetHeight first).toNat + 16 ≤ (blockGetHeight chain).toNat := by
  apply or_congr_right
  constructor
  · rintro ⟨other, hother, hage⟩
    rwa [hfirst.unique hother]
  · intro hage
    exact ⟨first, hfirst, hage⟩

theorem narrowed_eq_zero_iff (account : Account) :
    (accountGetDelegates account).toUInt32 = 0 ↔ account.value.toNat / 1024 % 2 ^ 32 = 0 := by
  rw [← UInt32.toNat_inj, UInt64.toNat_toUInt32, accountGetDelegates, UInt64.toNat_div,
    UInt32.toNat_zero]
  rfl

/-- The comparison of the code, when the sum does not wrap. -/
theorem age_iff {height first : UInt32} (hfirst : first.toNat + 16 < 2 ^ 32) :
    (decide (height ≤ waitingPeriod) || decide (first + waitingPeriod ≤ height)) = true ↔
      height.toNat ≤ 16 ∨ first.toNat + 16 ≤ height.toNat := by
  have hsum : (first + waitingPeriod).toNat = first.toNat + 16 := by
    rw [UInt32.toNat_add]
    exact Nat.mod_eq_of_lt hfirst
  rw [Bool.or_eq_true, decide_eq_true_eq, decide_eq_true_eq, UInt32.le_iff_toNat_le,
    UInt32.le_iff_toNat_le, hsum]
  rfl

/-- The code asks for the low half of the number of delegates. -/
theorem isStakingAllowed_iff (built : Built S chain) (hne : chain ≠ [])
    (hlength : chain.length < 2 ^ 32 - 16) (pk : PublicKey) :
    isStakingAllowed chain pk = true ↔ delegates chain pk % 2 ^ 32 ≠ 0 ∧
      OldEnough chain pk := by
  obtain ⟨block, prev, rfl⟩ := List.exists_cons_of_ne_nil hne
  rw [isStakingAllowed, delegates]
  cases hget : blockGetAccount (block :: prev) pk with
  | nil => simp [accountValue]
  | cons account earlier =>
      obtain ⟨first, hfirst, hage⟩ := firstVersion_height built hget
      have hsum : (blockGetHeight first).toNat + 16 < 2 ^ 32 := by
        have hle := hfirst.1.length_le
        rw [toNat_blockGetHeight (built_suffix built hfirst.1) (by omega)]
        omega
      simp only [hage, accountValue]
      rw [oldEnough_iff hfirst, Ne, ← narrowed_eq_zero_iff]
      split_ifs with hnone
      · simp [hnone]
      · rw [age_iff hsum]
        exact (and_iff_right hnone).symm

theorem stakingRule_iff_delegates :
    StakingRule chain pk ↔ 0 < delegates chain pk ∧ OldEnough chain pk := by
  rw [delegates]
  constructor
  · rintro ⟨⟨account, earlier, hget, hvalue⟩, hage⟩
    rw [hget]
    exact ⟨Nat.div_pos hvalue (by decide), hage⟩
  · rintro ⟨hpos, hage⟩
    cases hget : blockGetAccount chain pk with
    | nil =>
        rw [hget] at hpos
        exact absurd hpos (by decide)
    | cons account earlier =>
        rw [hget] at hpos
        exact ⟨⟨account, earlier, hget, (Nat.div_pos_iff.mp hpos).2⟩, hage⟩

/-- The staking rule holds unless the number of delegates is lost when it is narrowed
to 32 bits. -/
theorem stakingRule_iff (built : Built S chain) (hne : chain ≠ [])
    (hlength : chain.length < 2 ^ 32 - 16) (pk : PublicKey) :
    (isStakingAllowed chain pk = true ↔ StakingRule chain pk) ↔
      ¬ (0 < delegates chain pk ∧ 2 ^ 32 ∣ delegates chain pk ∧ OldEnough chain pk) := by
  rw [isStakingAllowed_iff built hne hlength]
  rw [stakingRule_iff_delegates, Nat.dvd_iff_mod_eq_zero]
  constructor
  · rintro hsame ⟨hpos, hzero, hage⟩
    exact (hsame.mpr ⟨hpos, hage⟩).1 hzero
  · intro hnarrow
    constructor
    · rintro ⟨hlow, hage⟩
      refine ⟨Nat.pos_of_ne_zero ?_, hage⟩
      intro hzero
      exact hlow (by rw [hzero, Nat.zero_mod])
    · rintro ⟨hpos, hage⟩
      exact ⟨fun hzero => hnarrow ⟨hpos, hzero, hage⟩, hage⟩

section Samples

/-- A chain of empty blocks of the miner. -/
def minedChain (n : Nat) : BlockPtr :=
  (List.range n).foldl (fun prev now => minedBlock (UInt64.ofNat now) prev []) []

/-- With a payment to the payee in the eighteenth block. -/
def paidChain : BlockPtr :=
  minedBlock 17 (minedChain 17) [payment 1 1024 0]

theorem built_paidChain : Built transparent paidChain := by
  have hchain : ∀ n, Built transparent (minedChain n) := by
    intro n
    induction n with
    | zero => exact .null
    | succ n ih =>
        rw [minedChain, List.range_succ, List.foldl_append]
        exact built_minedBlock ih _ []
  exact built_minedBlock (hchain 17) 17 _

/-- The miner may stake on this chain. The payee holds as much as one delegate is worth, but
appears in the last block only. -/
theorem stakingRule_iff_payee : paidChain.length = 18 ∧ StakingRule paidChain minerKey ∧
    delegates paidChain payeeKey = 1 ∧ ¬ StakingRule paidChain payeeKey := by
  have hallowed : isStakingAllowed paidChain minerKey = true ∧
      isStakingAllowed paidChain payeeKey = false := by
    decide +kernel
  have hdelegates : delegates paidChain minerKey = 17 ∧ delegates paidChain payeeKey = 1 := by
    decide +kernel
  have hlength : paidChain.length = 18 := by decide +kernel
  have hne : paidChain ≠ [] := List.ne_nil_of_length_pos (by omega)
  have hminer := (stakingRule_iff built_paidChain hne (by omega) minerKey).mpr (by
    rintro ⟨-, hdvd, -⟩
    rw [hdelegates.1] at hdvd
    exact absurd hdvd (by decide))
  have hpayee := (stakingRule_iff built_paidChain hne (by omega) payeeKey).mpr (by
    rintro ⟨-, hdvd, -⟩
    rw [hdelegates.2] at hdvd
    exact absurd hdvd (by decide))
  refine ⟨hlength, hminer.mp hallowed.1, hdelegates.2, ?_⟩
  intro hrule
  have hpaid := hpayee.mpr hrule
  rw [hallowed.2] at hpaid
  cases hpaid

/-- A payment of 2^42, for which nobody has the coins, leaves the payee with 2^32
delegates, and the code counts none. -/
theorem rich_payee_refused : ∃ stored bc, BuiltRun transparent stored bc ∧ ∃ chain ∈ stored,
    chain.length = 1 ∧ StakingRule chain payeeKey ∧
      isStakingAllowed chain payeeKey = false := by
  have hne : minedBlock 1 [] [payment 1 (2 ^ 42) 0] ≠ [] := by decide +kernel
  have hnew : blockGetHash (minedBlock 1 [] [payment 1 (2 ^ 42) 0]) ∉
      ([] : List BlockPtr).map blockGetHash := List.not_mem_nil
  obtain ⟨bc, hrun⟩ := BuiltRun.create.mine (.inl rfl) 1 [payment 1 (2 ^ 42) 0] hne hnew
  refine ⟨_, bc, hrun, _, List.mem_append_right _ List.mem_cons_self, ?_, ?_, ?_⟩
  · decide +kernel
  · rw [stakingRule_iff_delegates]
    constructor
    · decide +kernel
    · left
      decide +kernel
  · decide +kernel

end Samples

end Whosecoin.Staking

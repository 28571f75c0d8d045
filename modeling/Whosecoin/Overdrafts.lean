import Whosecoin.LedgerRefinement

namespace Whosecoin.Overdrafts

open Library.Outcomes
open Library.ByteStrings
open Library.Maps
open Library.Ledgers
open Cryptography
open Transactions
open Accounts
open Blocks
open Chains
open LedgerRefinement

/-- No sender of the chain ever spends more than its exact balance at the time. -/
def NoOverdraft (chain : BlockPtr) : Prop :=
  ∀ block prev, block :: prev <:+ chain →
    Covered (credit (exactLedger prev) block.publicKey 1024) (block.transactions.map transferOf)

/-- The 64-bit balance that a chain stores. -/
def storedBalance (chain : BlockPtr) (pk : PublicKey) : Int :=
  (accountValue (blockGetAccount chain pk)).toNat

/-- Each transaction keeps what its sender spends in this block within the
balance stored at the parent, the coinbase if the sender is the creator, and
what the earlier transactions of the block pay to it. -/
def Solvent (prev : BlockPtr) (creator : PublicKey) (txns : List Transaction) : Prop :=
  ∀ before txn after, txns = before ++ txn :: after →
    sent ((before ++ [txn]).map transferOf) txn.sender ≤
      storedBalance prev txn.sender + (if creator = txn.sender then 1024 else 0) +
        received (before.map transferOf) txn.sender

/-- Every block of the chain is solvent on top of the ones before it. -/
def SolventChain (chain : BlockPtr) : Prop :=
  ∀ block prev, block :: prev <:+ chain → Solvent prev block.publicKey block.transactions

theorem solvent_iff (prev : BlockPtr) (creator : PublicKey) (txns : List Transaction) :
    Solvent prev creator txns ↔
      Covered (credit (storedBalance prev) creator 1024) (txns.map transferOf) := by
  rw [covered_iff]
  constructor
  · intro h before t after heq
    obtain ⟨before, rest, rfl, rfl, hrest⟩ := List.map_eq_append_iff.mp heq
    obtain ⟨txn, after, rfl, rfl, rfl⟩ := List.map_eq_cons_iff.mp hrest
    simpa [credit_apply, transferOf] using h before txn after rfl
  · intro h before txn after heq
    have := h (before.map transferOf) (transferOf txn) (after.map transferOf) (by simp [heq])
    simpa [credit_apply, transferOf] using this

theorem forall_suffix_cons {motive : Block → BlockPtr → Prop} {block : Block}
    {prev : BlockPtr} :
    (∀ b p, b :: p <:+ block :: prev → motive b p) ↔
      motive block prev ∧ ∀ b p, b :: p <:+ prev → motive b p := by
  simp only [List.suffix_cons_iff, List.cons.injEq]
  constructor
  · intro h
    exact ⟨h block prev (.inl ⟨rfl, rfl⟩), fun b p hp => h b p (.inr hp)⟩
  · rintro ⟨h, hrest⟩ b p (⟨rfl, rfl⟩ | hp)
    · exact h
    · exact hrest b p hp

theorem noOverdraft_cons {block : Block} {prev : BlockPtr} :
    NoOverdraft (block :: prev) ↔
      Covered (credit (exactLedger prev) block.publicKey 1024)
        (block.transactions.map transferOf) ∧ NoOverdraft prev :=
  forall_suffix_cons

theorem solventChain_cons {block : Block} {prev : BlockPtr} :
    SolventChain (block :: prev) ↔
      Covered (credit (storedBalance prev) block.publicKey 1024)
        (block.transactions.map transferOf) ∧ SolventChain prev := by
  rw [← solvent_iff]
  exact forall_suffix_cons

theorem exactLedger_nonneg {chain : BlockPtr} (h : NoOverdraft chain) (pk : PublicKey) :
    0 ≤ exactLedger chain pk := by
  induction chain generalizing pk with
  | nil => exact le_refl _
  | cons block prev ih =>
      obtain ⟨hcovered, hprev⟩ := noOverdraft_cons.mp h
      rw [exactLedger_cons]
      refine applyBatch_nonneg (ih hprev) (by norm_num) ?_ hcovered pk
      simp [batchOf, transferOf]

theorem storedBalance_eq {S : Sodium} {chain : BlockPtr} (built : Built S chain)
    (pk : PublicKey) : storedBalance chain pk = exactLedger chain pk % 2 ^ 64 := by
  have hlt := (accountValue (blockGetAccount chain pk)).toNat_lt
  have hmod := value_modEq built pk
  rw [Int.ModEq, Int.emod_eq_of_lt (by omega) (by exact_mod_cast hlt)] at hmod
  exact hmod

theorem storedBalance_le {S : Sodium} {chain : BlockPtr} (built : Built S chain)
    (h : NoOverdraft chain) (pk : PublicKey) : storedBalance chain pk ≤ exactLedger chain pk := by
  have hnonneg := exactLedger_nonneg h pk
  rw [storedBalance_eq built]
  omega

theorem noOverdraft_of_solventChain {S : Sodium} {chain : BlockPtr} (built : Built S chain)
    (h : SolventChain chain) : NoOverdraft chain := by
  induction chain, built using Built.induction with
  | null => simp [NoOverdraft]
  | extend block prev hext hprev built ih =>
      obtain ⟨hsolvent, hrest⟩ := solventChain_cons.mp h
      refine noOverdraft_cons.mpr ⟨hsolvent.mono fun pk => ?_, ih hrest⟩
      rw [credit_apply, credit_apply]
      exact add_le_add_left (storedBalance_le hprev (ih hrest) pk) _

section Supply

/-- Every account that a chain touches, and one more. -/
def keysOf (chain : BlockPtr) (pk : PublicKey) : List PublicKey :=
  pk :: chain.flatMap fun block =>
    block.publicKey :: block.transactions.flatMap fun txn => [txn.sender, txn.recipient]

theorem batch_within_keysOf {chain : BlockPtr} (pk : PublicKey) {block : Block}
    (hblock : block ∈ chain) :
    (batchOf block.publicKey block.transactions).Within (keysOf chain pk).toFinset := by
  have hkey : ∀ k ∈ block.publicKey :: block.transactions.flatMap
      (fun txn => [txn.sender, txn.recipient]), k ∈ (keysOf chain pk).toFinset := by
    intro k hk
    rw [List.mem_toFinset, keysOf]
    exact List.mem_cons_of_mem _ (List.mem_flatMap.mpr ⟨block, hblock, hk⟩)
  refine ⟨hkey _ List.mem_cons_self, fun t ht => ?_⟩
  obtain ⟨txn, htxn, rfl⟩ := List.mem_map.mp ht
  have hmem : ∀ k ∈ [txn.sender, txn.recipient], k ∈ (keysOf chain pk).toFinset := fun k hk =>
    hkey k (List.mem_cons_of_mem _ (List.mem_flatMap.mpr ⟨txn, htxn, hk⟩))
  exact ⟨hmem _ (by simp [transferOf]), hmem _ (by simp [transferOf])⟩

theorem exactLedger_le {chain : BlockPtr} (h : NoOverdraft chain) (pk : PublicKey) :
    exactLedger chain pk ≤ 1024 * chain.length := by
  have hwithin : ∀ b ∈ chain.map (fun block => batchOf block.publicKey block.transactions),
      b.Within (keysOf chain pk).toFinset := by
    intro b hb
    obtain ⟨block, hblock, rfl⟩ := List.mem_map.mp hb
    exact batch_within_keysOf pk hblock
  have hnonneg : ∀ k, 0 ≤ replay 1024
      (chain.map fun block => batchOf block.publicKey block.transactions) k :=
    exactLedger_nonneg h
  have hkey : pk ∈ (keysOf chain pk).toFinset := by simp [keysOf]
  calc
    exactLedger chain pk ≤ _ := replay_le hnonneg _ hwithin hkey
    _ = 1024 * chain.length := by rw [List.length_map, nsmul_eq_mul, mul_comm]

theorem solventChain_of_noOverdraft {S : Sodium} {chain : BlockPtr} (built : Built S chain)
    (hlength : 1024 * chain.length < 2 ^ 64) (h : NoOverdraft chain) : SolventChain chain := by
  induction chain, built using Built.induction with
  | null => simp [SolventChain]
  | extend block prev hext hprev built ih =>
      obtain ⟨hcovered, hrest⟩ := noOverdraft_cons.mp h
      rw [List.length_cons] at hlength
      refine solventChain_cons.mpr ⟨hcovered.mono fun pk => ?_, ih (by omega) hrest⟩
      have hnonneg := exactLedger_nonneg hrest pk
      have hle := exactLedger_le hrest pk
      have hstored : storedBalance prev pk = exactLedger prev pk := by
        rw [storedBalance_eq hprev]
        exact Int.emod_eq_of_lt hnonneg (by omega)
      rw [credit_apply, credit_apply, hstored]

end Supply

/-- Whatever the creators and the senders of its blocks, a chain has no overdraft
if its blocks are solvent, and only then while the coins created fit 64 bits. -/
theorem noOverdraft_solventChain {S : Sodium} {chain : BlockPtr} (built : Built S chain) :
    (SolventChain chain → NoOverdraft chain) ∧
      (1024 * chain.length < 2 ^ 64 → NoOverdraft chain → SolventChain chain) :=
  ⟨noOverdraft_of_solventChain built, solventChain_of_noOverdraft built⟩

/-- A block that pays out part of its creator's first reward. -/
theorem noOverdraft_solventChain_payment :
    let genesis := minedBlock 1 [] []
    let chain := minedBlock 2 genesis [payment 1 100 0]
    (SolventChain chain → NoOverdraft chain) ∧
      (1024 * chain.length < 2 ^ 64 → NoOverdraft chain → SolventChain chain) :=
  noOverdraft_solventChain (built_minedBlock (built_minedBlock .null 1 []) 2 [payment 1 100 0])

/-- A genesis block in which an unknown sender pays one coin. -/
def overdraftBlock : BlockPtr :=
  minedBlock 1 [] [payment 9 1 0]

theorem overdraftBlock_built : Built transparent overdraftBlock ∧
    ¬ NoOverdraft overdraftBlock := by
  refine ⟨built_minedBlock .null 1 [payment 9 1 0], fun h => ?_⟩
  have hshape : overdraftBlock.map (fun block => (block.publicKey, block.transactions)) =
      [(minerKey, [payment 9 1 0])] := by
    decide +kernel
  obtain ⟨block, prev, hchain, hblock, hprev⟩ := List.map_eq_cons_iff.mp hshape
  obtain ⟨hcreator, htxns⟩ := Prod.mk.inj hblock
  have hcovered := h block prev (hchain ▸ List.suffix_rfl)
  rw [htxns, hcreator, List.map_eq_nil_iff.mp hprev] at hcovered
  have hne : minerKey ≠ (payment 9 1 0).sender := by decide
  have hbalance : (credit (exactLedger []) minerKey 1024) (payment 9 1 0).sender = 0 := by
    rw [credit_apply, if_neg hne]
    rfl
  have hle : ((payment 9 1 0).value.toNat : Int) ≤ _ := hcovered.head
  rw [show (transferOf (payment 9 1 0)).sender = (payment 9 1 0).sender from rfl, hbalance] at hle
  exact absurd hle (by decide)

end Whosecoin.Overdrafts

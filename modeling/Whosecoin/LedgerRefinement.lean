import Whosecoin.Chains
import Whosecoin.Library.Ledgers

/-!
The accounts along a chain refine the replay of its blocks on plain balances, modulo
`2 ^ 64`.
-/

namespace Whosecoin.LedgerRefinement

open Library.Outcomes
open Library.ByteStrings
open Library.Maps
open Library.Ledgers
open Cryptography
open Transactions
open Accounts
open Blocks
open Blockchains
open Chains

/-- The block creates, debits or credits the account. -/
def Touches (block : Block) (pk : PublicKey) : Prop :=
  block.publicKey = pk ∨ ∃ txn ∈ block.transactions, txn.sender = pk ∨ txn.recipient = pk

section Views

variable (prev : BlockPtr) (height : UInt32)

/-- The account as the block under construction sees it. -/
def view (accounts : Map PublicKey AccountPtr) (pk : PublicKey) : AccountPtr :=
  (accounts.get pk).getD (blockGetAccount prev pk)

/-- Every entry is one version of this block on top of the ancestors' account. -/
def Layered (accounts : Map PublicKey AccountPtr) : Prop :=
  ∀ pk account, accounts.get pk = some account →
    ∃ value, account = ⟨value, height⟩ :: blockGetAccount prev pk

variable {prev height}

theorem get_updateAccount {accounts : Map PublicKey AccountPtr}
    (hlayered : Layered prev height accounts) (pk pk' : PublicKey) (change : UInt64 → UInt64) :
    (updateAccount prev height accounts pk change).get pk' =
      if pk' = pk then
        some (⟨change (accountValue (view prev accounts pk)),
          height⟩ :: blockGetAccount prev pk)
      else accounts.get pk' := by
  rw [updateAccount, view]
  cases hget : accounts.get pk with
  | none => simp [Map.get_set]
  | some account =>
      obtain ⟨value, rfl⟩ := hlayered pk account hget
      simp [Map.get_set, accountValue]

theorem layered_updateAccount {accounts : Map PublicKey AccountPtr}
    (hlayered : Layered prev height accounts) (pk : PublicKey) (change : UInt64 → UInt64) :
    Layered prev height (updateAccount prev height accounts pk change) := by
  intro pk' account hget
  rw [get_updateAccount hlayered] at hget
  split_ifs at hget with h
  · subst h
    exact ⟨_, (Option.some.inj hget).symm⟩
  · exact hlayered pk' account hget

theorem accountValue_updateAccount {accounts : Map PublicKey AccountPtr}
    (hlayered : Layered prev height accounts) (pk pk' : PublicKey) (change : UInt64 → UInt64) :
    accountValue (view prev (updateAccount prev height accounts pk change) pk') =
      if pk' = pk then change (accountValue (view prev accounts pk))
      else accountValue (view prev accounts pk') := by
  rw [view, get_updateAccount hlayered]
  split_ifs with h
  · rfl
  · rfl

theorem applyTransaction_eq_some (accounts : Map PublicKey AccountPtr) (txn : Transaction) :
    applyTransaction prev height accounts txn =
      some (updateAccount prev height
        (updateAccount prev height accounts txn.sender (· - txn.value))
        txn.recipient (· + txn.value)) := by
  simp [applyTransaction]

end Views

section Residues

/-- A stored balance modulo `2 ^ 64`. -/
def residue (value : UInt64) : ZMod (2 ^ 64) :=
  (value.toNat : ZMod (2 ^ 64))

theorem residue_add (a b : UInt64) : residue (a + b) = residue a + residue b := by
  rw [residue, UInt64.toNat_add, ZMod.natCast_mod, Nat.cast_add]
  rfl

theorem residue_sub (a b : UInt64) : residue (a - b) = residue a - residue b := by
  have h := residue_add (a - b) b
  rw [sub_add_cancel] at h
  rw [h, add_sub_cancel_right]

theorem residue_eq_intCast_iff (value : UInt64) (balance : Int) :
    residue value = (balance : ZMod (2 ^ 64)) ↔
      (value.toNat : Int) ≡ balance [ZMOD 2 ^ 64] := by
  rw [residue, ← Int.cast_natCast, ZMod.intCast_eq_intCast_iff]
  norm_num

end Residues

/-- A transaction with its exact value. -/
def transferOf (txn : Transaction) : Transfer PublicKey Int :=
  ⟨txn.sender, txn.recipient, txn.value.toNat⟩

def batchOf (pk : PublicKey) (txns : List Transaction) : Batch PublicKey Int :=
  ⟨pk, txns.map transferOf⟩

/-- The balances after replaying a chain from genesis in unbounded integers. -/
def exactLedger (chain : BlockPtr) : PublicKey → Int :=
  replay 1024 (chain.map fun block => batchOf block.publicKey block.transactions)

theorem exactLedger_cons (block : Block) (prev : BlockPtr) :
    exactLedger (block :: prev) =
      applyBatch 1024 (exactLedger prev) (batchOf block.publicKey block.transactions) :=
  rfl

section Steps

/-- The reduction of the exact balances to the stored ones. -/
abbrev reduction : Int →+ ZMod (2 ^ 64) :=
  Int.castAddHom (ZMod (2 ^ 64))

theorem reduction_value (value : UInt64) : reduction (value.toNat : Int) = residue value := by
  simp [residue]

theorem residue_coinbase : residue coinbaseTransaction = reduction 1024 :=
  (reduction_value coinbaseTransaction).symm

variable (prev : BlockPtr) (height : UInt32)

/-- The value of every account while a block is checked, modulo `2 ^ 64`. -/
def residues (accounts : Map PublicKey AccountPtr) (pk : PublicKey) : ZMod (2 ^ 64) :=
  residue (accountValue (view prev accounts pk))

/-- What a loop over `txns` leaves of the account map. -/
structure Applied (accounts : Map PublicKey AccountPtr) (txns : List Transaction)
    (result : Map PublicKey AccountPtr) : Prop where
  layered : Layered prev height result
  residues_eq : residues prev result =
    applyTransfers (residues prev accounts) (txns.map fun txn => (transferOf txn).map reduction)
  get_isSome : ∀ pk, (result.get pk).isSome ↔
    (accounts.get pk).isSome ∨ ∃ txn ∈ txns, txn.sender = pk ∨ txn.recipient = pk

variable {prev height}

theorem residues_updateAccount {accounts : Map PublicKey AccountPtr}
    (hlayered : Layered prev height accounts) (pk : PublicKey) (change : UInt64 → UInt64)
    (v : ZMod (2 ^ 64)) (hchange : ∀ value, residue (change value) = residue value + v) :
    residues prev (updateAccount prev height accounts pk change) =
      credit (residues prev accounts) pk v := by
  funext pk'
  rw [residues, accountValue_updateAccount hlayered, credit_apply]
  by_cases h : pk' = pk
  · simp [h, hchange, residues]
  · simp [h, Ne.symm h, residues]

theorem applied_applyTransaction {accounts : Map PublicKey AccountPtr}
    (hlayered : Layered prev height accounts) (txn : Transaction) :
    ∃ result, applyTransaction prev height accounts txn = some result ∧
      Applied prev height accounts [txn] result := by
  have hsender := layered_updateAccount hlayered txn.sender (· - txn.value)
  refine ⟨_, applyTransaction_eq_some accounts txn, ?_, ?_, ?_⟩
  · exact layered_updateAccount hsender txn.recipient (· + txn.value)
  · rw [residues_updateAccount hsender txn.recipient _ (residue txn.value)
        (fun value => residue_add value txn.value),
      residues_updateAccount hlayered txn.sender _ (-residue txn.value)
        (fun value => by rw [residue_sub, sub_eq_add_neg])]
    simp [applyTransfers, applyTransfer, transferOf, Transfer.map, residue]
  · intro pk
    rw [get_updateAccount hsender, get_updateAccount hlayered]
    split_ifs with hr hs
    · simp [hr]
    · simp [hs]
    · simp [Ne.symm hr, Ne.symm hs]

theorem Applied.trans {accounts next result : Map PublicKey AccountPtr} {txn : Transaction}
    {txns : List Transaction} (hfirst : Applied prev height accounts [txn] next)
    (hrest : Applied prev height next txns result) :
    Applied prev height accounts (txn :: txns) result where
  layered := hrest.layered
  residues_eq := by
    rw [hrest.residues_eq, hfirst.residues_eq]
    rfl
  get_isSome := by
    intro pk
    rw [hrest.get_isSome, hfirst.get_isSome]
    simp [or_assoc]

theorem applied_applyTransactions {accounts : Map PublicKey AccountPtr}
    (hlayered : Layered prev height accounts) (txns : List Transaction) :
    ∃ result, applyTransactions prev height accounts (txns.map some) = .ok (some result) ∧
      Applied prev height accounts txns result := by
  induction txns generalizing accounts with
  | nil =>
      refine ⟨accounts, rfl, hlayered, rfl, ?_⟩
      simp
  | cons txn txns ih =>
      obtain ⟨next, hnext, hfirst⟩ := applied_applyTransaction hlayered txn
      obtain ⟨result, hresult, hrest⟩ := ih hfirst.layered
      refine ⟨result, ?_, hfirst.trans hrest⟩
      rw [List.map_cons, applyTransactions, hnext]
      exact hresult

end Steps

section Chains

/-- The version of an account that the block itself stores. -/
def storedVersion (pk : PublicKey) (block : Block) : Option Account :=
  (block.accounts.get pk).bind List.head?

/-- The value of every account on a chain, modulo `2 ^ 64`. -/
def storedResidues (chain : BlockPtr) (pk : PublicKey) : ZMod (2 ^ 64) :=
  residue (accountValue (blockGetAccount chain pk))

variable {block : Block} {prev : BlockPtr}

theorem blockGetAccount_cons (block : Block) (prev : BlockPtr) (pk : PublicKey) :
    blockGetAccount (block :: prev) pk = view prev block.accounts pk := by
  rw [blockGetAccount, view]
  cases block.accounts.get pk <;> rfl

theorem coinbase_spec (prev : BlockPtr) (pk : PublicKey) (height : UInt32) :
    let accounts := Map.set [] pk
      (⟨accountValue (blockGetAccount prev pk) + coinbaseTransaction, height⟩ ::
        blockGetAccount prev pk)
    Layered prev height accounts ∧
      residues prev accounts = credit (storedResidues prev) pk (reduction 1024) := by
  constructor
  · intro pk' account hget
    rw [Map.get_set] at hget
    split_ifs at hget with h
    · subst h
      exact ⟨_, (Option.some.inj hget).symm⟩
    · simp at hget
  · funext pk'
    rw [credit_apply, residues, view, Map.get_set]
    split_ifs with h h' h'
    · subst h
      simp only [Option.getD_some, accountValue, residue_add, residue_coinbase]
      rfl
    · exact absurd h.symm h'
    · exact absurd h'.symm h
    · rw [add_zero]
      rfl

/-- The creator and the transactions decide whether a block is refused. -/
theorem areTransactionsValid_spec (prev : BlockPtr) (pk : PublicKey) (height : UInt32)
    (txns : List Transaction) :
    ∃ accounts, areTransactionsValid prev pk height (txns.map some) = .ok (some accounts) ∧
      Layered prev height accounts ∧
      residues prev accounts =
        applyBatch (reduction 1024) (storedResidues prev) ((batchOf pk txns).map reduction) ∧
      ∀ k, (accounts.get k).isSome ↔ pk = k ∨ ∃ txn ∈ txns, txn.sender = k ∨
        txn.recipient = k := by
  obtain ⟨hlayered, hresidues⟩ := coinbase_spec prev pk height
  obtain ⟨accounts, hrun, happlied⟩ := applied_applyTransactions hlayered txns
  refine ⟨accounts, hrun, happlied.layered, ?_, fun k => ?_⟩
  · rw [happlied.residues_eq, hresidues]
    simp [applyBatch, batchOf, Batch.map, Function.comp_def]
  · rw [happlied.get_isSome, Map.get_set]
    by_cases h : k = pk
    · simp [h]
    · simp [h, Ne.symm h]

theorem extends_layered (hext : Extends block prev) :
    Layered prev block.height block.accounts := by
  obtain ⟨accounts, hrun, hlayered, -, -⟩ :=
    areTransactionsValid_spec prev block.publicKey block.height block.transactions
  rw [hext.accounts_eq, Except.ok.injEq, Option.some.injEq] at hrun
  exact hrun ▸ hlayered

theorem extends_get_isSome (hext : Extends block prev) (pk : PublicKey) :
    (block.accounts.get pk).isSome ↔ Touches block pk := by
  obtain ⟨accounts, hrun, -, -, hget⟩ :=
    areTransactionsValid_spec prev block.publicKey block.height block.transactions
  rw [hext.accounts_eq, Except.ok.injEq, Option.some.injEq] at hrun
  exact hrun ▸ hget pk

theorem storedResidues_cons (hext : Extends block prev) :
    storedResidues (block :: prev) =
      applyBatch (reduction 1024) (storedResidues prev)
        ((batchOf block.publicKey block.transactions).map reduction) := by
  obtain ⟨accounts, hrun, -, hresidues, -⟩ :=
    areTransactionsValid_spec prev block.publicKey block.height block.transactions
  rw [hext.accounts_eq, Except.ok.injEq, Option.some.injEq] at hrun
  subst hrun
  rw [← hresidues]
  funext pk
  rw [storedResidues, blockGetAccount_cons, residues]

/-- The sparse 64-bit ledger is the plain replay modulo `2 ^ 64`. -/
theorem storedResidues_eq {S : Sodium} {chain : BlockPtr} (built : Built S chain) :
    storedResidues chain = reduction ∘ exactLedger chain := by
  induction chain, built using Built.induction with
  | null =>
      funext pk
      simp [storedResidues, residue, accountValue, blockGetAccount, exactLedger, replay]
  | extend block prev hext hprev built ih =>
      rw [storedResidues_cons hext, ih, exactLedger_cons, map_applyBatch]

theorem blockGetAccount_of_touches (hext : Extends block prev) {pk : PublicKey}
    (htouch : Touches block pk) :
    ∃ account, storedVersion pk block = some account ∧ account.blockHeight = block.height ∧
      blockGetAccount (block :: prev) pk = account :: blockGetAccount prev pk := by
  obtain ⟨account, hget⟩ :=
    Option.isSome_iff_exists.mp ((extends_get_isSome hext pk).mpr htouch)
  obtain ⟨value, rfl⟩ := extends_layered hext pk account hget
  exact ⟨_, by rw [storedVersion, hget]; rfl, rfl, by rw [blockGetAccount, hget]⟩

theorem blockGetAccount_of_not_touches (hext : Extends block prev) {pk : PublicKey}
    (htouch : ¬ Touches block pk) :
    storedVersion pk block = none ∧
      blockGetAccount (block :: prev) pk = blockGetAccount prev pk := by
  rw [← extends_get_isSome hext, Option.not_isSome_iff_eq_none] at htouch
  exact ⟨by rw [storedVersion, htouch]; rfl, by rw [blockGetAccount, htouch]⟩

/-- What `block_get_account` finds for one key, against the path to the block. -/
structure Refines (chain : BlockPtr) (pk : PublicKey) : Prop where
  null_iff : blockGetAccount chain pk = [] ↔ ∀ block ∈ chain, ¬ Touches block pk
  value_modEq : ((accountValue (blockGetAccount chain pk)).toNat : Int) ≡
    exactLedger chain pk [ZMOD 2 ^ 64]
  versions_eq : blockGetAccount chain pk = chain.filterMap (storedVersion pk)
  stored_iff : ∀ block ∈ chain, (storedVersion pk block).isSome ↔ Touches block pk
  height_eq : ∀ block ∈ chain, ∀ account, storedVersion pk block = some account →
    account.blockHeight = block.height

theorem value_modEq {S : Sodium} {chain : BlockPtr} (built : Built S chain) (pk : PublicKey) :
    ((accountValue (blockGetAccount chain pk)).toNat : Int) ≡
      exactLedger chain pk [ZMOD 2 ^ 64] :=
  (residue_eq_intCast_iff _ _).mp (congrFun (storedResidues_eq built) pk)

theorem versions_eq {S : Sodium} {chain : BlockPtr} (built : Built S chain) (pk : PublicKey) :
    blockGetAccount chain pk = chain.filterMap (storedVersion pk) := by
  induction chain, built using Built.induction with
  | null => rfl
  | extend block prev hext hprev built ih =>
      by_cases htouch : Touches block pk
      · obtain ⟨account, hstored, -, hget⟩ := blockGetAccount_of_touches hext htouch
        rw [hget, List.filterMap_cons, hstored, ih]
      · obtain ⟨hstored, hget⟩ := blockGetAccount_of_not_touches hext htouch
        rw [hget, List.filterMap_cons, hstored, ih]

theorem storedVersion_spec {S : Sodium} {chain : BlockPtr} (built : Built S chain)
    (pk : PublicKey) :
    ∀ block ∈ chain, ((storedVersion pk block).isSome ↔ Touches block pk) ∧
      ∀ account, storedVersion pk block = some account →
        account.blockHeight = block.height := by
  induction chain, built using Built.induction with
  | null => simp
  | extend block prev hext hprev built ih =>
      rintro b (_ | ⟨_, hb⟩)
      · by_cases htouch : Touches block pk
        · obtain ⟨account, hstored, hheight, -⟩ := blockGetAccount_of_touches hext htouch
          simp [hstored, htouch, hheight]
        · obtain ⟨hstored, -⟩ := blockGetAccount_of_not_touches hext htouch
          simp [hstored, htouch]
      · exact ih b hb

theorem refines_of_built {S : Sodium} {chain : BlockPtr} (built : Built S chain)
    (pk : PublicKey) : Refines chain pk where
  null_iff := by
    rw [versions_eq built, List.filterMap_eq_nil_iff]
    constructor
    · intro h block hb htouch
      rw [← (storedVersion_spec built pk block hb).1, h block hb] at htouch
      simp at htouch
    · intro h block hb
      rw [← Option.not_isSome_iff_eq_none, (storedVersion_spec built pk block hb).1]
      exact h block hb
  value_modEq := value_modEq built pk
  versions_eq := versions_eq built pk
  stored_iff := fun block hb => (storedVersion_spec built pk block hb).1
  height_eq := fun block hb => (storedVersion_spec built pk block hb).2

/-- Every stored block of every run refines the replay of its path, for every
key. -/
theorem blockGetAccount_refines {S : Sodium} {stored : List BlockPtr} {bc : Blockchain}
    (run : BuiltRun S stored bc) (chain : BlockPtr) (hstored : chain ∈ stored)
    (pk : PublicKey) : Refines chain pk :=
  refines_of_built (run.built chain hstored) pk

/-- The payee's account after a payment in the second block of a chain. -/
theorem blockGetAccount_refines_payment :
    let genesis := minedBlock 1 [] []
    Refines (minedBlock 2 genesis [payment 1 100 0]) payeeKey := by
  intro genesis
  obtain ⟨bc₁, run₁⟩ := BuiltRun.create.mine (.inl rfl) 1 [] (by decide +kernel)
    (by decide +kernel)
  obtain ⟨bc₂, run₂⟩ :=
    run₁.mine (.inr (List.mem_singleton_self genesis)) 2 [payment 1 100 0]
    (by decide +kernel) (by decide +kernel)
  exact blockGetAccount_refines run₂ _ (by simp) payeeKey

end Chains

end Whosecoin.LedgerRefinement

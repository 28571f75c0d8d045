import Whosecoin.BlockSchema
import Whosecoin.LedgerRefinement

namespace Whosecoin.AlikeChains

open Library.Outcomes
open Library.Ledgers
open Library.Maps
open Cryptography
open Transactions
open TransactionSchema
open Accounts
open Blocks
open BlockSchema
open Chains
open LedgerRefinement

/-- The blocks agree in all that is read of an ancestor. Signatures, which no hash
covers, may differ. -/
structure Alike (b c : Block) : Prop where
  hash_eq : b.hash = c.hash
  publicKey_eq : b.publicKey = c.publicKey
  sortitionSeed_eq : b.sortitionSeed = c.sortitionSeed
  height_eq : b.height = c.height
  accounts_eq : b.accounts = c.accounts

section Readers

variable {p q : BlockPtr} (h : List.Forall₂ Alike p q)

include h

theorem blockGetAccount_alike (pk : PublicKey) : blockGetAccount p pk = blockGetAccount q pk := by
  induction h with
  | nil => rfl
  | cons hhead _ ih => rw [blockGetAccount, blockGetAccount, hhead.accounts_eq, ih]

theorem blockGetHeight_alike : blockGetHeight p = blockGetHeight q := by
  cases h with
  | nil => rfl
  | cons hhead _ => exact hhead.height_eq

theorem blockGetHash_alike : blockGetHash p = blockGetHash q := by
  cases h with
  | nil => rfl
  | cons hhead _ => exact hhead.hash_eq

theorem blockComputeSeed_alike (S : Sodium) : blockComputeSeed S p = blockComputeSeed S q := by
  cases h with
  | nil => rfl
  | cons hhead _ =>
      rw [blockComputeSeed, blockComputeSeed, hhead.sortitionSeed_eq, hhead.publicKey_eq]

theorem isStakingAllowed_alike (pk : PublicKey) :
    isStakingAllowed p pk = isStakingAllowed q pk := by
  have haccount := blockGetAccount_alike h pk
  have hheight := blockGetHeight_alike h
  cases h with
  | nil => rfl
  | cons _ _ =>
      rw [isStakingAllowed, isStakingAllowed, haccount, hheight]

theorem isDelegateAllowed_alike (pk : PublicKey) (delegate : UInt32) :
    isDelegateAllowed p pk delegate = isDelegateAllowed q pk delegate := by
  have haccount := blockGetAccount_alike h pk
  cases h with
  | nil => rfl
  | cons _ _ => rw [isDelegateAllowed, isDelegateAllowed, haccount]

theorem updateAccount_alike (height : UInt32) (accounts : Map PublicKey AccountPtr)
    (pk : PublicKey) (change : UInt64 → UInt64) :
    updateAccount p height accounts pk change = updateAccount q height accounts pk change := by
  rw [updateAccount, updateAccount, blockGetAccount_alike h]

theorem applyTransaction_alike (height : UInt32) (accounts : Map PublicKey AccountPtr)
    {t u : Transaction} (htransfer : transferOf t = transferOf u) :
    applyTransaction p height accounts t = applyTransaction q height accounts u := by
  simp only [transferOf, Transfer.mk.injEq, Nat.cast_inj, UInt64.toNat_inj] at htransfer
  obtain ⟨hsender, hrecipient, hvalue⟩ := htransfer
  simp only [applyTransaction, updateAccount_alike h, hsender, hrecipient, hvalue]

theorem applyTransactions_alike (height : UInt32) (accounts : Map PublicKey AccountPtr)
    {ts us : List Transaction} (htransfers : ts.map transferOf = us.map transferOf) :
    applyTransactions p height accounts (ts.map some) =
      applyTransactions q height accounts (us.map some) := by
  induction ts generalizing us accounts with
  | nil =>
      obtain rfl := List.map_eq_nil_iff.mp htransfers.symm
      rfl
  | cons t ts ih =>
      cases us with
      | nil => cases htransfers
      | cons u us =>
          obtain ⟨hhead, htail⟩ := List.cons.inj htransfers
          rw [List.map_cons, List.map_cons, applyTransactions, applyTransactions,
            applyTransaction_alike h height accounts hhead]
          cases applyTransaction q height accounts u with
          | none => rfl
          | some next => exact ih next htail

theorem areTransactionsValid_alike (pk : PublicKey) (height : UInt32) {ts us : List Transaction}
    (htransfers : ts.map transferOf = us.map transferOf) :
    areTransactionsValid p pk height (ts.map some) =
      areTransactionsValid q pk height (us.map some) := by
  rw [areTransactionsValid, areTransactionsValid, blockGetAccount_alike h]
  exact applyTransactions_alike h height _ htransfers

/-- Blocks of one creator and one hash, with the same transfers, are alike on top of
chains that are. -/
theorem alike_of_extends {S : Sodium} {b c : Block} (hb : Extends b p) (hc : Extends c q)
    (hhash : b.hash = c.hash) (hpublic : b.publicKey = c.publicKey)
    (htransfers : b.transactions.map transferOf = c.transactions.map transferOf)
    (hbseed : b.sortitionSeed = blockComputeSeed S p)
    (hcseed : c.sortitionSeed = blockComputeSeed S q) : Alike b c := by
  have hheight : b.height = c.height := by
    rw [hb.height_eq, hc.height_eq, blockGetHeight_alike h]
  refine ⟨hhash, hpublic, ?_, hheight, ?_⟩
  · rw [hbseed, hcseed, blockComputeSeed_alike h]
  · have hledger := hb.accounts_eq
    rw [hpublic, hheight, areTransactionsValid_alike h _ _ htransfers, hc.accounts_eq,
      Except.ok.injEq, Option.some.injEq] at hledger
    exact hledger.symm

section Acceptance

variable {S : Sodium} {m : BlockMessage}

theorem hash_alike : m.hash S p = m.hash S q := by
  rw [BlockMessage.hash, BlockMessage.hash, blockGetHash_alike h]

theorem checks_alike {sortitionHash : VrfOutput} (hchecks : m.Checks S p sortitionHash) :
    m.Checks S q sortitionHash where
  signature_length := hchecks.signature_length
  staking := by
    rw [← isStakingAllowed_alike h]
    exact hchecks.staking
  sortition := by
    rw [← blockComputeSeed_alike h]
    exact hchecks.sortition
  delegate := by
    rw [← isDelegateAllowed_alike h]
    exact hchecks.delegate
  transactions := hchecks.transactions
  signature := by
    rw [← hash_alike h]
    exact hchecks.signature

/-- A message becomes the same block on top of chains that are alike. -/
theorem accept_alike {block : Block} (haccept : m.accept S p = .ok (block :: p)) :
    m.accept S q = .ok (block :: q) := by
  rw [accept_eq_ok_iff] at haccept ⊢
  obtain ⟨-, sortitionHash, accounts, hchecks, hledger, rfl⟩ := haccept
  refine ⟨rfl, sortitionHash, accounts, checks_alike h hchecks, ?_, ?_⟩
  · rw [← blockGetHeight_alike h, ← areTransactionsValid_alike h _ _ rfl]
    exact hledger
  · simp only [BlockMessage.block, hash_alike h, blockComputeSeed_alike h, blockGetHeight_alike h]

end Acceptance

end Readers

end Whosecoin.AlikeChains

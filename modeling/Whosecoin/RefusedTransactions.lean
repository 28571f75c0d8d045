import Whosecoin.BlockReception
import Whosecoin.BlockRelay

namespace Whosecoin.RefusedTransactions

open Library.Outcomes
open Library.ByteStrings
open Cryptography
open TupleParser
open TupleFormat
open Transactions
open TransactionSchema
open Accounts
open Blocks
open BlockSchema
open BlockReception

variable {S : Sodium} {tuple : Tuple} {m : BlockMessage}

def transactionCount (tuple : Tuple) : Outcome Nat := do
  return tupleSize (← tupleGetTuple tuple 2)

/-- What becomes of the element at a position of the list of transactions. -/
def transactionAt (S : Sodium) (tuple : Tuple) (i : Nat) : Outcome (Option Transaction) := do
  let txns ← tupleGetTuple tuple 2
  transactionCreateFromTuple S (← tupleGetTuple txns i)

/-- A refused transaction takes its block with it, and the transactions of a block
are those of its tuple, one by one. -/
structure RefusedCleanly (S : Sodium) (tuple : Tuple) (find : Hash → BlockPtr) : Prop where
  refused : (∃ i, transactionAt S tuple i = .ok none) →
    blockCreateFromTuple S tuple find = .ok []
  count : ∀ block prev, blockCreateFromTuple S tuple find = .ok (block :: prev) →
    transactionCount tuple = .ok block.transactions.length
  listed : ∀ block prev, blockCreateFromTuple S tuple find = .ok (block :: prev) →
    ∀ (i : Nat) (txn : Transaction), block.transactions[i]? = some txn →
      transactionAt S tuple i = .ok (some txn)

section Positions

variable (h : Represents tuple m.values)

include h

theorem transactionCount_eq : transactionCount tuple = .ok m.transactions.length := by
  obtain ⟨-, txns, -, -, -, hget, -, hsub⟩ := exists_parts h
  rw [transactionCount, hget, ok_bind, hsub.tupleSize_eq, List.length_map]
  rfl

theorem transactionAt_eq {i : Nat} {t : TransactionMessage} (hi : m.transactions[i]? = some t) :
    transactionAt S tuple i = .ok (if t.Verifies S then some (t.transaction S) else none) := by
  obtain ⟨-, txns, -, -, -, hget, -, hsub⟩ := exists_parts h
  have hsigned : (m.transactions.map fun t => Value.tuple t.values)[i]? =
      some (.tuple t.values) := by
    rw [List.getElem?_map, hi, Option.map_some]
  obtain ⟨signedTxn, hget', hsub'⟩ := hsub.tupleGetTuple_eq hsigned
  rw [transactionAt, hget, ok_bind, hget', ok_bind, transactionCreateFromTuple_eq hsub']

theorem transactionAt_of_none {i : Nat} (hi : m.transactions[i]? = none) :
    transactionAt S tuple i = .error .assertion := by
  obtain ⟨-, txns, -, -, -, hget, -, hsub⟩ := exists_parts h
  have hnone : (m.transactions.map fun t => Value.tuple t.values)[i]?.map Value.tag ≠
      some .tupleStart := by
    rw [List.getElem?_map, hi]
    simp
  rw [transactionAt, hget, ok_bind, hsub.tupleGetTuple_error hnone, error_bind]

theorem refused_iff :
    (∃ i, transactionAt S tuple i = .ok none) ↔ ∃ t ∈ m.transactions, ¬ t.Verifies S := by
  constructor
  · rintro ⟨i, hi⟩
    cases hget : m.transactions[i]? with
    | none =>
        rw [transactionAt_of_none h hget] at hi
        cases hi
    | some t =>
        refine ⟨t, List.mem_of_getElem? hget, ?_⟩
        intro hverifies
        rw [transactionAt_eq h hget, if_pos hverifies] at hi
        cases hi
  · rintro ⟨t, ht, hrefused⟩
    obtain ⟨i, hi⟩ := List.mem_iff_getElem?.mp ht
    exact ⟨i, by rw [transactionAt_eq h hi, if_neg hrefused]⟩

theorem accepted_transactions (hconsistent : m.Consistent S) {find : Hash → BlockPtr}
    {block : Block} {prev : BlockPtr}
    (hrun : blockCreateFromTuple S tuple find = .ok (block :: prev)) :
    block.transactions = m.txns S ∧ ∀ t ∈ m.transactions, t.Verifies S := by
  rw [blockCreateFromTuple_eq h hconsistent, accept_eq_ok_iff] at hrun
  obtain ⟨-, sortitionHash, accounts, hchecks, -, rfl⟩ := hrun
  exact ⟨rfl, hchecks.transactions⟩

theorem refusedCleanly_of (hconsistent : m.Consistent S) {find : Hash → BlockPtr}
    (hrefused : (∃ t ∈ m.transactions, ¬ t.Verifies S) →
      blockCreateFromTuple S tuple find = .ok []) : RefusedCleanly S tuple find where
  refused := fun hnull => hrefused ((refused_iff h).mp hnull)
  count := by
    intro block prev hrun
    rw [transactionCount_eq h, (accepted_transactions h hconsistent hrun).1, BlockMessage.txns,
      List.length_map]
  listed := by
    intro block prev hrun i txn hi
    obtain ⟨htxns, hall⟩ := accepted_transactions h hconsistent hrun
    rw [htxns, BlockMessage.txns, List.getElem?_map, Option.map_eq_some_iff] at hi
    obtain ⟨t, ht, rfl⟩ := hi
    rw [transactionAt_eq h ht, if_pos (hall t (List.mem_of_getElem? ht))]

end Positions

/-- The block of a refused transaction is refused cleanly exactly when its header
is refused first. -/
theorem refusedCleanly_iff {ws : List Value} (h : Represents tuple ws)
    (hvalid : blockIsValid S tuple = .ok true) (find : Hash → BlockPtr) :
    ∃ m : BlockMessage, ws = m.values ∧
      (RefusedCleanly S tuple find ↔ (∀ t ∈ m.transactions, t.Verifies S) ∨
        m.signature.length ≤ signBytes ∧ ¬ HeaderPasses S m (find m.header.prevHash)) := by
  obtain ⟨m, rfl⟩ := exists_message_of_blockIsValid h hvalid
  have hconsistent := (blockIsValid_iff h S).mp hvalid
  have hrun := blockCreateFromTuple_eq h hconsistent find
  refine ⟨m, rfl, ?_, ?_⟩
  · intro hclean
    by_cases hall : ∀ t ∈ m.transactions, t.Verifies S
    · exact Or.inl hall
    · have hnull := hall
      push Not at hnull
      have hrefused := hclean.refused ((refused_iff h).mpr hnull)
      obtain ⟨hshort, hpasses⟩ := accept_returns_iff.mp ⟨[], hrun.symm.trans hrefused⟩
      exact Or.inr ⟨hshort, fun hheader => hall (hpasses hheader)⟩
  · intro hcases
    apply refusedCleanly_of h hconsistent
    rintro ⟨t, ht, hrefused⟩
    rcases hcases with hall | ⟨hshort, hheader⟩
    · exact absurd (hall t ht) hrefused
    · rw [hrun, accept_of_not_passes hshort hheader]

section Forged

open BlockRelay
open Chains
open BlockIdentity

/-- A block of genuine transactions. -/
theorem refusedCleanly_iff_payment : ∃ tuple,
    Represents tuple (paymentBlockMessage []).values ∧ ∃ m : BlockMessage,
      (paymentBlockMessage []).values = m.values ∧
      (RefusedCleanly transparent tuple (fun _ => []) ↔
        (∀ t ∈ m.transactions, t.Verifies transparent) ∨
          m.signature.length ≤ signBytes ∧ ¬ HeaderPasses transparent m []) := by
  obtain ⟨tuple, -, hrep⟩ := exists_parsed (paymentBlockMessage []) []
  have hvalid := (blockIsValid_iff hrep _).mpr (paymentBlockMessage_consistent [])
  exact ⟨tuple, hrep, refusedCleanly_iff hrep hvalid fun _ => []⟩

/-- A payment that its sender has not signed. -/
def forgedMessage : TransactionMessage :=
  { paymentMessage [] with signature := Bytes.zero _ }

/-- A genesis block with that payment, as the miner signs it. -/
def forgedBlockMessage : BlockMessage :=
  { paymentBlockMessage [] with transactions := [forgedMessage] }

theorem forgedBlockMessage_consistent : forgedBlockMessage.Consistent transparent where
  count_eq := by
    simp only [forgedBlockMessage, paymentBlockMessage, paymentHeader, List.length_singleton]
    rfl
  merkleRoot_eq := by
    have hunsigned : forgedMessage.unsigned = (paymentMessage []).unsigned := by
      simp only [forgedMessage, TransactionMessage.unsigned, TransactionMessage.fields]
    simp only [BlockMessage.leaves, forgedBlockMessage, paymentBlockMessage, paymentHeader,
      List.map_cons, List.map_nil, merkleRootOfHashes_singleton, hunsigned]

theorem forgedBlockMessage_passes : HeaderPasses transparent forgedBlockMessage [] := by
  have hchecks := paymentBlockMessage_checks []
  have hhash : forgedBlockMessage.hash transparent [] =
      (paymentBlockMessage []).hash transparent [] := by
    simp only [BlockMessage.hash, forgedBlockMessage]
  refine ⟨hchecks.staking, ?_, hchecks.delegate, ?_⟩
  · exact Option.isSome_iff_exists.mpr ⟨_, hchecks.sortition⟩
  · rw [hhash]
    exact hchecks.signature

/-- The miner's block with a forged payment makes the program fail. -/
theorem forged_payment_aborts : ∃ buffer tuple, tupleParse buffer = .ok (some tuple) ∧
    blockIsValid transparent tuple = .ok true ∧ transactionAt transparent tuple 0 = .ok none ∧
    ¬ Returns (blockCreateFromTuple transparent tuple fun _ => []) ∧
    ¬ RefusedCleanly transparent tuple fun _ => [] := by
  obtain ⟨tuple, hparse, hrep⟩ := exists_parsed forgedBlockMessage []
  have hunsigned : ¬ forgedMessage.Verifies transparent := by decide +kernel
  have hnull : transactionAt transparent tuple 0 = .ok none := by
    rw [@transactionAt_eq transparent _ _ hrep 0 forgedMessage rfl, if_neg hunsigned]
  have hfails : ¬ Returns (blockCreateFromTuple transparent tuple fun _ => []) := by
    rw [blockCreateFromTuple_eq hrep forgedBlockMessage_consistent, accept_returns_iff]
    rintro ⟨-, hall⟩
    exact hunsigned (hall forgedBlockMessage_passes _ (List.mem_singleton_self _))
  refine ⟨_, tuple, hparse, (blockIsValid_iff hrep _).mpr forgedBlockMessage_consistent, hnull,
    hfails, ?_⟩
  intro hclean
  exact hfails ⟨[], hclean.refused ⟨0, hnull⟩⟩

end Forged

end Whosecoin.RefusedTransactions

import Whosecoin.BlockSchema
import Whosecoin.Chains

namespace Whosecoin.BlockIdentity

open Library.Outcomes
open Library.ByteStrings
open Cryptography
open TupleParser
open TupleFormat
open Transactions
open TransactionSchema
open Accounts
open Blocks
open BlockSchema
open Chains

/-- The previous hash that a header asks for. -/
def prevHashOf (header : Tuple) : Outcome Hash := do
  let prevBlock ← tupleGetBinary header 1
  memcpy generichashBytes prevBlock.data generichashBytes

/-- The block has the hash of the received header bytes, and no parent only
where the header asks for none. -/
def Identified (S : Sodium) (header : Tuple) (prevHash : Hash) (block : BlockPtr) : Prop :=
  blockGetHash block = S.generichash header.bytes ∧
    (block.tail = [] → prevHash = Bytes.zero generichashBytes)

theorem prevHashOf_eq {header : Tuple} {m : HeaderMessage} (h : Represents header m.fields) :
    prevHashOf header = .ok m.prevHash := by
  obtain ⟨after, hprev⟩ := @tupleGetBinary_ofBytes _ _ 1 h _ generichashBytes_lt m.prevHash rfl
  rw [prevHashOf, hprev, ok_bind, memcpy_toList]

/-- A lookup that only returns blocks under their own hash. -/
def FindsByHash (find : Hash → BlockPtr) : Prop :=
  ∀ hash, find hash ≠ [] → blockGetHash (find hash) = hash

/-- The program writes within its fields, and a block that it makes of the tuple is
identified by the header. -/
structure Identifies (S : Sodium) (tuple : Tuple) (find : Hash → BlockPtr) (header : Tuple)
    (prevHash : Hash) : Prop where
  inside : ¬ Overruns S tuple
  identified : ∀ block, blockCreateFromTuple S tuple find = .ok block → block ≠ [] →
    Identified S header prevHash block

theorem identified_of_accept_iff {S : Sodium} {find : Hash → BlockPtr} (hfind : FindsByHash find)
    {m : BlockMessage} {header : Tuple} (hsub : Represents header m.header.fields) {data : Block}
    {prev : BlockPtr} (haccept : m.accept S (find m.header.prevHash) = .ok (data :: prev)) :
    Identified S header m.header.prevHash (data :: prev) ↔
      find m.header.prevHash ≠ [] ∨ m.header.prevHash = Bytes.zero generichashBytes := by
  rw [accept_eq_ok_iff] at haccept
  obtain ⟨rfl, sortitionHash, accounts, -, -, rfl⟩ := haccept
  rw [Identified, hsub.bytes_eq]
  change m.hash S (find m.header.prevHash) = S.generichash (Value.tuple m.header.fields).encode ∧
    (find m.header.prevHash = [] → _) ↔ _
  constructor
  · rintro ⟨-, hzero⟩
    rcases eq_or_ne (find m.header.prevHash) [] with hnull | hfound
    · exact .inr (hzero hnull)
    · exact .inl hfound
  · intro hcases
    have hprev : blockGetHash (find m.header.prevHash) = m.header.prevHash := by
      rcases eq_or_ne (find m.header.prevHash) [] with hnull | hfound
      · rcases hcases with hfound | hzero
        · exact absurd hnull hfound
        · rw [hnull, hzero]
          rfl
      · exact hfind _ hfound
    constructor
    · rw [BlockMessage.hash, hprev]
    · intro hnull
      rcases hcases with hfound | hzero
      · exact absurd hnull hfound
      · exact hzero

/-- A received block is identified by its header exactly when its signature fits and
the header's parent was found or the header asks for none. -/
theorem identified_iff {S : Sodium} {buffer : Buffer} {tuple : Tuple}
    (hparse : tupleParse buffer = .ok (some tuple)) {find : Hash → BlockPtr}
    (hfind : FindsByHash find) (hreceived : Received S tuple find) :
    ∃ header prevHash signature, tupleGetTuple tuple 0 = .ok header ∧
      prevHashOf header = .ok prevHash ∧ tupleGetBinary tuple 1 = .ok signature ∧
      (Identifies S tuple find header prevHash ↔ signature.length ≤ signBytes ∧
        (find prevHash ≠ [] ∨ prevHash = Bytes.zero generichashBytes)) := by
  obtain ⟨vs, hrep, -⟩ := represents_of_tupleParse hparse
  obtain ⟨m, rfl, hconsistent⟩ := exists_message_of_received hrep hreceived
  obtain ⟨header, -, after, hheader, hsignature, -, hsub, -⟩ := exists_parts hrep
  refine ⟨header, m.header.prevHash, _, hheader, prevHashOf_eq hsub, hsignature, ?_⟩
  rcases received_cases hrep hconsistent hreceived with
    ⟨hover, hlong⟩ | ⟨data, prev, hinside, hshort, hrun, haccept⟩
  · exact iff_of_false (fun h => h.inside hover) (fun h => absurd hlong h.1.not_gt)
  · rw [← identified_of_accept_iff hfind hsub haccept, and_iff_right hshort]
    constructor
    · intro h
      exact h.identified _ hrun (List.cons_ne_nil _ _)
    · intro h
      refine ⟨hinside, fun block' hrun' _ => ?_⟩
      rwa [← Except.ok.inj (hrun.symm.trans hrun')]

section Orphans

/-- The header of a genesis block of the miner, but for the parent it asks for. -/
def minerHeader (prevHash : Hash) : HeaderMessage where
  timestamp := 1
  prevHash := prevHash
  merkleRoot := Bytes.zero _
  publicKey := minerKey
  sortitionProof := transparent.vrfProve minerSecret (blockComputeSeed transparent []).toList
  delegate := 0
  count := 0

/-- An empty block that asks for some parent, signed as a genesis block. -/
def minerMessage (prevHash : Hash) : BlockMessage where
  header := minerHeader prevHash
  signature := (transparent.signDetached (transparent.generichash
    (Value.tuple (minerHeader (Bytes.zero _)).fields).encode).toList minerSecret).toList
  signatureFits := by
    rw [Bytes.length_eq]
    decide
  transactions := []

theorem minerMessage_consistent (prevHash : Hash) :
    (minerMessage prevHash).Consistent transparent :=
  ⟨rfl, rfl⟩

/-- What a node without blocks makes of the message. -/
def orphan (prevHash : Hash) : BlockPtr :=
  ((minerMessage prevHash).accept transparent []).toOption.getD []

theorem accept_eq_orphan {prevHash : Hash} (hne : orphan prevHash ≠ []) :
    (minerMessage prevHash).accept transparent [] = .ok (orphan prevHash) := by
  rw [orphan] at hne ⊢
  cases hrun : (minerMessage prevHash).accept transparent [] with
  | ok block => rfl
  | error e =>
      rw [hrun] at hne
      exact absurd rfl hne

theorem exists_tuple_of_minerMessage {prevHash : Hash} (hne : orphan prevHash ≠ []) :
    ∃ buffer tuple, tupleParse buffer = .ok (some tuple) ∧
      Represents tuple (minerMessage prevHash).values ∧
      blockCreateFromTuple transparent tuple (fun _ => []) = .ok (orphan prevHash) := by
  obtain ⟨tuple, hparse, hrep⟩ := exists_parsed (minerMessage prevHash) []
  refine ⟨_, tuple, hparse, hrep, ?_⟩
  rw [blockCreateFromTuple_eq hrep (minerMessage_consistent prevHash)]
  exact accept_eq_orphan hne

theorem identified_iff_genesis :
    ∃ buffer tuple header prevHash signature, tupleParse buffer = .ok (some tuple) ∧
      tupleGetTuple tuple 0 = .ok header ∧ prevHashOf header = .ok prevHash ∧
      tupleGetBinary tuple 1 = .ok signature ∧
      blockCreateFromTuple transparent tuple (fun _ => []) = .ok (orphan (Bytes.zero _)) ∧
      (Identifies transparent tuple (fun _ => []) header prevHash ↔
        signature.length ≤ signBytes ∧
          (([] : BlockPtr) ≠ [] ∨ prevHash = Bytes.zero generichashBytes)) := by
  have hne : orphan (Bytes.zero _) ≠ [] := by decide +kernel
  obtain ⟨buffer, tuple, hparse, -, hrun⟩ := exists_tuple_of_minerMessage hne
  have hfind : FindsByHash fun _ => [] := fun _ h => absurd rfl h
  obtain ⟨header, prevHash, signature, hheader, hprev, hsignature, hiff⟩ :=
    identified_iff hparse hfind (.inr ⟨_, hrun, hne⟩)
  exact ⟨buffer, tuple, header, prevHash, signature, hparse, hheader, hprev, hsignature, hrun,
    hiff⟩

/-- A node without blocks accepts a block that asks for a parent nobody has. -/
theorem orphan_accepted :
    ∃ buffer tuple header, tupleParse buffer = .ok (some tuple) ∧
      tupleGetTuple tuple 0 = .ok header ∧ prevHashOf header = .ok (Bytes.ofList _ [7]) ∧
      ∃ block, blockCreateFromTuple transparent tuple (fun _ => []) = .ok block ∧
        block ≠ [] ∧ ¬ Identified transparent header (Bytes.ofList _ [7]) block := by
  have hne : orphan (Bytes.ofList _ [7]) ≠ [] := by decide +kernel
  have hnull : (orphan (Bytes.ofList _ [7])).tail = [] := by decide +kernel
  obtain ⟨buffer, tuple, hparse, hrep, hrun⟩ := exists_tuple_of_minerMessage hne
  obtain ⟨header, -, -, hheader, -, -, hsub, -⟩ := exists_parts hrep
  refine ⟨buffer, tuple, header, hparse, hheader, prevHashOf_eq hsub, _, hrun, hne, ?_⟩
  rintro ⟨-, hzero⟩
  exact absurd (hzero hnull) (by decide)

end Orphans

end Whosecoin.BlockIdentity

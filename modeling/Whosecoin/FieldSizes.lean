import Whosecoin.BlockIdentity
import Whosecoin.BlockRelay

namespace Whosecoin.FieldSizes

open Library.Outcomes
open Library.ByteStrings
open Cryptography
open TupleParser
open TupleFormat
open Transactions
open Accounts (BlockPtr Block)
open TransactionSchema
open Blocks
open BlockSchema
open BlockIdentity

/-- A `memcpy` of `count` bytes of a binary to a field of `capacity` bytes. -/
structure Copy where
  capacity : Nat
  source : Buffer
  count : Nat

/-- What the copy leaves in the field. -/
def Copy.run (copy : Copy) : Outcome (List UInt8) :=
  (memcpy copy.capacity copy.source.data copy.count).map Bytes.toList

/-- The copy fills the field with the binary. -/
structure Copy.Exact (copy : Copy) : Prop where
  count_eq : copy.count = copy.capacity
  length_eq : copy.source.length = copy.capacity

/-- The copy is exact, and leaves these bytes in the field. -/
structure Copy.Fills (copy : Copy) (field : List UInt8) : Prop where
  exact : copy.Exact
  run : copy.run = .ok field

/-- The copies of `transaction_create_from_tuple`. -/
def transactionCopies (tuple : Tuple) : Outcome (List Copy) := do
  let txn ← tupleGetTuple tuple 0
  let signature ← tupleGetBinary tuple 1
  let sender ← tupleGetBinary txn 0
  let recipient ← tupleGetBinary txn 1
  return [⟨publicKeyBytes, sender, sender.length⟩,
    ⟨publicKeyBytes, recipient, recipient.length⟩, ⟨signBytes, signature, signature.length⟩]

/-- The copies of `block_create_from_tuple`, with those of its transactions. The
hash of the parent is handed to `find`, which compares as many bytes as a hash has. -/
def blockCopies (tuple : Tuple) : Outcome (List Copy) := do
  let header ← tupleGetTuple tuple 0
  let signature ← tupleGetBinary tuple 1
  let txns ← tupleGetTuple tuple 2
  let prevBlock ← tupleGetBinary header 1
  let merkleRoot ← tupleGetBinary header 2
  let publicKey ← tupleGetBinary header 3
  let sortitionProof ← tupleGetBinary header 4
  let copies ← (List.range (tupleSize txns)).mapM fun i => do
    transactionCopies (← tupleGetTuple txns i)
  return ⟨generichashBytes, prevBlock, generichashBytes⟩ ::
    ⟨generichashBytes, merkleRoot, generichashBytes⟩ ::
    ⟨publicKeyBytes, publicKey, publicKeyBytes⟩ ::
    ⟨vrfProofBytes, sortitionProof, vrfProofBytes⟩ ::
    ⟨signBytes, signature, signature.length⟩ :: copies.flatten

variable {S : Sodium} {tuple : Tuple}

/-- The fields of a transaction that are copied, in the order of the copies. -/
def transactionFields (txn : Transaction) : List (List UInt8) :=
  [txn.sender.toList, txn.recipient.toList, txn.signature.toList]

theorem fills_toList {n : Nat} (b : Bytes n) (after : List UInt8) :
    Copy.Fills ⟨n, ⟨n, b.toList ++ after⟩, n⟩ b.toList where
  exact := ⟨rfl, rfl⟩
  run := by
    rw [Copy.run, memcpy_toList]
    rfl

theorem transactionCopies_fill {t : TransactionMessage} (h : Represents tuple t.values) :
    ∃ copies, transactionCopies tuple = .ok copies ∧
      List.Forall₂ Copy.Fills copies (transactionFields (t.transaction S)) := by
  have hunsigned : t.values[0]? = some (.tuple t.fields) := rfl
  obtain ⟨txn, hget, hsub⟩ := h.tupleGetTuple_eq hunsigned
  obtain ⟨after, hsignature⟩ :=
    @tupleGetBinary_ofBytes _ _ 1 h signBytes (by decide) t.signature rfl
  obtain ⟨after₁, hsender⟩ :=
    @tupleGetBinary_ofBytes _ _ 0 hsub publicKeyBytes (by decide) t.sender rfl
  obtain ⟨after₂, hrecipient⟩ :=
    @tupleGetBinary_ofBytes _ _ 1 hsub publicKeyBytes (by decide) t.recipient rfl
  simp only [transactionCopies, hget, hsignature, hsender, hrecipient, ok_bind, pure_eq_ok]
  exact ⟨_, rfl, .cons (fills_toList t.sender after₁) (.cons (fills_toList t.recipient after₂)
    (.cons (fills_toList t.signature after) .nil))⟩

theorem transactionsCopies_fill {ms : List TransactionMessage}
    (h : Represents tuple (ms.map fun t => .tuple t.values)) :
    ∃ copies, (List.range (tupleSize tuple)).mapM (fun i => do
        transactionCopies (← tupleGetTuple tuple i)) = .ok copies ∧
      List.Forall₂ Copy.Fills copies.flatten
        (ms.flatMap fun t => transactionFields (t.transaction S)) := by
  obtain ⟨copies, hcopies, hall⟩ := mapM_range_forall₂ (R := List.Forall₂ Copy.Fills)
    (fun i => do transactionCopies (← tupleGetTuple tuple i))
    (ms.map fun t => transactionFields (t.transaction S)) (by
      intro i c hi
      rw [List.getElem?_map, Option.map_eq_some_iff] at hi
      obtain ⟨t, hi, rfl⟩ := hi
      have hsigned : (ms.map fun t => Value.tuple t.values)[i]? = some (.tuple t.values) := by
        rw [List.getElem?_map, hi, Option.map_some]
      obtain ⟨sub, hget, hsub⟩ := h.tupleGetTuple_eq hsigned
      rw [hget, ok_bind]
      exact transactionCopies_fill hsub)
  rw [List.length_map] at hcopies
  refine ⟨copies, ?_, ?_⟩
  · rw [h.tupleSize_eq, List.length_map]
    exact hcopies
  · rw [List.flatMap_def]
    exact List.rel_flatten hall

/-- All copies of a valid block but that of its own signature fill their fields. -/
theorem blockCopies_eq {m : BlockMessage} (h : Represents tuple m.values) :
    ∃ after front rest, tupleGetBinary tuple 1 =
        .ok ⟨m.signature.length, m.signature ++ after⟩ ∧
      blockCopies tuple = .ok (front ++
        ⟨signBytes, ⟨m.signature.length, m.signature ++ after⟩,
          m.signature.length⟩ :: rest) ∧
      List.Forall₂ Copy.Fills front [m.header.prevHash.toList, m.header.merkleRoot.toList,
        m.header.publicKey.toList, m.header.sortitionProof.toList] ∧
      List.Forall₂ Copy.Fills rest
        (m.transactions.flatMap fun t => transactionFields (t.transaction S)) := by
  obtain ⟨header, txns, after, hget, hsignature, hget', hsub, hsub'⟩ := exists_parts h
  obtain ⟨after₁, hprev⟩ :=
    @tupleGetBinary_ofBytes _ _ 1 hsub generichashBytes (by decide) m.header.prevHash rfl
  obtain ⟨after₂, hroot⟩ :=
    @tupleGetBinary_ofBytes _ _ 2 hsub generichashBytes (by decide) m.header.merkleRoot rfl
  obtain ⟨after₃, hpublic⟩ :=
    @tupleGetBinary_ofBytes _ _ 3 hsub publicKeyBytes (by decide) m.header.publicKey rfl
  obtain ⟨after₄, hproof⟩ :=
    @tupleGetBinary_ofBytes _ _ 4 hsub vrfProofBytes (by decide) m.header.sortitionProof rfl
  obtain ⟨copies, hcopies, hfill⟩ := @transactionsCopies_fill S _ _ hsub'
  simp only [blockCopies, hget, hsignature, hget', hprev, hroot, hpublic, hproof, hcopies,
    ok_bind, pure_eq_ok]
  exact ⟨after, [_, _, _, _], _, rfl, rfl, .cons (fills_toList _ after₁)
    (.cons (fills_toList _ after₂) (.cons (fills_toList _ after₃)
      (.cons (fills_toList _ after₄) .nil))), hfill⟩

/-- Where a block is returned, the copies have left its fields. -/
theorem copies_of_block {find : Hash → BlockPtr} {data : Block} {prev : BlockPtr}
    {vs : List Value} (h : Represents tuple vs)
    (hrun : blockCreateFromTuple S tuple find = .ok (data :: prev)) :
    ∃ copies prevHash, blockCopies tuple = .ok copies ∧ find prevHash = prev ∧
      List.Forall₂ (fun copy field => copy.run = .ok field) copies
        ([prevHash.toList, data.merkleRoot.toList, data.publicKey.toList,
          data.sortitionProof.toList, data.signature.toList] ++
            data.transactions.flatMap transactionFields) := by
  obtain ⟨m, rfl, hconsistent⟩ := exists_message_of_accepted h hrun
  rw [blockCreateFromTuple_eq h hconsistent] at hrun
  obtain ⟨rfl, sortitionHash, accounts, hchecks, -, rfl⟩ := (accept_eq_ok_iff _ _ _ _ _).mp hrun
  obtain ⟨after, front, rest, -, hcopies, hfront, hrest⟩ := @blockCopies_eq S _ m h
  have hrun : ∀ {copies fields}, List.Forall₂ Copy.Fills copies fields →
      List.Forall₂ (fun (copy : Copy) field => copy.run = .ok field) copies fields :=
    fun hfill => hfill.imp fun _ _ => Copy.Fills.run
  have hown : Copy.run ⟨signBytes, ⟨m.signature.length, m.signature ++ after⟩,
      m.signature.length⟩ = .ok (Bytes.ofList signBytes m.signature).toList := by
    rw [Copy.run, memcpy_append rfl hchecks.signature_length]
    rfl
  have htxns : (m.block S (find m.header.prevHash) sortitionHash accounts).transactions.flatMap
      transactionFields = m.transactions.flatMap fun t => transactionFields (t.transaction S) :=
    List.flatMap_map _ _ _
  refine ⟨_, m.header.prevHash, hcopies, rfl, ?_⟩
  rw [htxns]
  exact List.rel_append (hrun hfront) (.cons hown (hrun hrest))

theorem Copy.exact_of_forall {copies : List Copy} {fields : List (List UInt8)}
    (h : List.Forall₂ Copy.Fills copies fields) : ∀ copy ∈ copies, copy.Exact := by
  intro copy hcopy
  obtain ⟨i, hlt, rfl⟩ := List.getElem_of_mem hcopy
  exact (h.get hlt (h.length_eq ▸ hlt)).exact

/-- The copies are exact when the block's signature has the size of one, which no
validator looks at. -/
theorem copiesExact_iff {ws : List Value} (h : Represents tuple ws)
    (hvalid : blockIsValid S tuple = .ok true) :
    ∃ signature copies, tupleGetBinary tuple 1 = .ok signature ∧
      blockCopies tuple = .ok copies ∧
      ((∀ copy ∈ copies, copy.Exact) ↔ signature.length = signBytes) := by
  obtain ⟨m, rfl⟩ := exists_message_of_blockIsValid h hvalid
  obtain ⟨after, front, rest, hsignature, hcopies, hfront, hrest⟩ := @blockCopies_eq S _ m h
  refine ⟨_, _, hsignature, hcopies, ?_, ?_⟩
  · intro hall
    exact (hall _ (List.mem_append_right _ List.mem_cons_self)).length_eq
  · intro hlength copy hcopy
    rcases List.mem_append.mp hcopy with hmem | hmem
    · exact Copy.exact_of_forall hfront copy hmem
    · rcases List.mem_cons.mp hmem with rfl | hmem
      · exact ⟨hlength, hlength⟩
      · exact Copy.exact_of_forall hrest copy hmem

/-- The eight copies of the miner's block with a payment. -/
theorem copiesExact_iff_payment : ∃ tuple copies, blockIsValid transparent tuple = .ok true ∧
    blockCopies tuple = .ok copies ∧ copies.length = 8 ∧ ∀ copy ∈ copies, copy.Exact := by
  obtain ⟨tuple, -, hrep⟩ := exists_parsed (BlockRelay.paymentBlockMessage []) []
  have hvalid := (blockIsValid_iff hrep transparent).mpr
    (BlockRelay.paymentBlockMessage_consistent [])
  obtain ⟨after, front, rest, hsignature, hcopies, hfront, hrest⟩ :=
    @blockCopies_eq transparent _ _ hrep
  obtain ⟨signature, copies, hsignature', hcopies', hiff⟩ := copiesExact_iff hrep hvalid
  rw [hsignature, Except.ok.injEq] at hsignature'
  rw [hcopies, Except.ok.injEq] at hcopies'
  subst hsignature' hcopies'
  refine ⟨tuple, _, hvalid, hcopies, ?_, hiff.mpr (Bytes.length_eq _)⟩
  rw [List.length_append, List.length_cons, hfront.length_eq, hrest.length_eq]
  rfl

/-- A valid block whose signature has one byte too many. -/
def longMessage : BlockMessage where
  header := minerHeader (Bytes.zero _)
  signature := List.replicate 65 0
  signatureFits := by decide
  transactions := []

/-- The program copies more than the field for the signature holds. -/
theorem long_signature_overflows : ∃ buffer tuple copies, tupleParse buffer = .ok (some tuple) ∧
    blockIsValid transparent tuple = .ok true ∧ blockCopies tuple = .ok copies ∧
    (∃ copy ∈ copies, copy.capacity < copy.count) ∧ (¬ ∀ copy ∈ copies, copy.Exact) ∧
    ∀ find, blockCreateFromTuple transparent tuple find = .error .outOfBounds := by
  obtain ⟨tuple, hparse, hrep⟩ := exists_parsed longMessage []
  have hconsistent : longMessage.Consistent transparent := ⟨rfl, rfl⟩
  have hvalid := (blockIsValid_iff hrep transparent).mpr hconsistent
  obtain ⟨after, front, rest, -, hcopies, -⟩ := @blockCopies_eq transparent _ _ hrep
  have hown : (⟨signBytes, ⟨longMessage.signature.length, longMessage.signature ++ after⟩,
      longMessage.signature.length⟩ : Copy) ∈ front ++
        ⟨signBytes, ⟨longMessage.signature.length, longMessage.signature ++ after⟩,
          longMessage.signature.length⟩ :: rest :=
    List.mem_append_right _ List.mem_cons_self
  refine ⟨_, tuple, _, hparse, hvalid, hcopies, ⟨_, hown, ?_⟩, ?_, ?_⟩
  · show signBytes < longMessage.signature.length
    decide
  · intro hall
    have hexact : longMessage.signature.length = signBytes := (hall _ hown).length_eq
    exact absurd hexact (by decide)
  · intro find
    rw [blockCreateFromTuple_eq hrep hconsistent, BlockMessage.accept, memcpy]
    rfl

end Whosecoin.FieldSizes

import Whosecoin.TransactionSchema
import Whosecoin.MerkleRoots

/-!
The validators of `block.c` accept exactly the tuples of a message type, and a message
becomes a block by checks on its fields and on the parent.
-/

namespace Whosecoin.BlockSchema

open Library.Outcomes
open Library.ByteStrings
open Library.Maps
open Cryptography
open TupleParser
open TupleFormat
open Transactions
open TransactionSchema
open Accounts
open Blocks

/-- The header tuples that the validator lets through. -/
structure HeaderMessage where
  timestamp : UInt64
  prevHash : Hash
  merkleRoot : Hash
  publicKey : PublicKey
  sortitionProof : VrfProof
  delegate : UInt32
  count : UInt32

/-- The seven elements of a header, in their order. -/
def HeaderMessage.fields (m : HeaderMessage) : List Value :=
  [ofU64 m.timestamp, ofBytes generichashBytes_lt m.prevHash,
    ofBytes generichashBytes_lt m.merkleRoot, ofBytes publicKeyBytes_lt m.publicKey,
    ofBytes vrfProofBytes_lt m.sortitionProof, ofU32 m.delegate, ofU32 m.count]

/-- The header that the program writes for a block. -/
def headerOf (block : Block) (prev : BlockPtr) (count : Nat) : HeaderMessage where
  timestamp := block.timestamp
  prevHash := blockGetHash prev
  merkleRoot := block.merkleRoot
  publicKey := block.publicKey
  sortitionProof := block.sortitionProof
  delegate := block.delegate
  count := UInt32.ofNat count

/-- The block tuples that the validator lets through, up to the number of
transactions and the Merkle root. -/
structure BlockMessage where
  header : HeaderMessage
  signature : List UInt8
  signatureFits : signature.length < 2 ^ 32
  transactions : List TransactionMessage

namespace BlockMessage

variable (m : BlockMessage)

/-- The three elements of a block: header, signature and transactions. -/
def values : List Value :=
  [.tuple m.header.fields, .binary m.signature m.signatureFits,
    .tuple (m.transactions.map fun t => .tuple t.values)]

/-- The hashes of the transactions as they were received. -/
def leaves (S : Sodium) : List Hash :=
  m.transactions.map fun t => S.generichash t.unsigned.encode

/-- The checks of `block_is_valid` that are not about the shape. -/
structure Consistent (S : Sodium) : Prop where
  count_eq : m.transactions.length = m.header.count.toNat
  merkleRoot_eq : merkleRootOfHashes S (m.leaves S) = m.header.merkleRoot

end BlockMessage

theorem HeaderMessage.fields_injective : Function.Injective HeaderMessage.fields := by
  intro m m' h
  simp only [HeaderMessage.fields, List.cons.injEq, and_true] at h
  obtain ⟨htimestamp, hprev, hroot, hpublic, hproof, hdelegate, hcount⟩ := h
  cases m
  cases m'
  simp only [HeaderMessage.mk.injEq]
  exact ⟨ofU64_injective htimestamp, ofBytes_injective _ hprev, ofBytes_injective _ hroot,
    ofBytes_injective _ hpublic, ofBytes_injective _ hproof, ofU32_injective hdelegate,
    ofU32_injective hcount⟩

theorem BlockMessage.values_injective : Function.Injective BlockMessage.values := by
  intro m m' h
  simp only [BlockMessage.values, List.cons.injEq, and_true, Value.tuple.injEq,
    Value.binary.injEq] at h
  obtain ⟨hheader, hsignature, htxns⟩ := h
  have hinj : Function.Injective fun t : TransactionMessage => Value.tuple t.values :=
    fun t u heq => TransactionMessage.values_injective (Value.tuple.inj heq)
  cases m
  cases m'
  simp only [BlockMessage.mk.injEq]
  exact ⟨HeaderMessage.fields_injective hheader, hsignature,
    List.map_injective_iff.mpr hinj htxns⟩

theorem blockWriteHeader_eq (buf : List UInt8) (block : Block) (prev : BlockPtr) (count : Nat) :
    blockWriteHeader buf block prev count =
      buf ++ (Value.tuple (headerOf block prev count).fields).encode := by
  simp only [blockWriteHeader, tupleWriteBinary_eq (by decide : generichashBytes < 2 ^ 32),
    tupleWriteBinary_eq (by decide : vrfProofBytes < 2 ^ 32), tupleWriteU64_eq, tupleWriteU32_eq,
    tupleWriteStart, tupleWriteEnd, HeaderMessage.fields, headerOf, Value.encode, encodeAll]
  simp

/-- The message that the program writes for a block. -/
def messageOf (block : Block) (prev : BlockPtr) : BlockMessage where
  header := headerOf block prev block.transactions.length
  signature := block.signature.toList
  signatureFits := by
    rw [block.signature.length_eq]
    decide
  transactions := block.transactions.map TransactionMessage.ofTransaction

theorem foldl_transactionWrite (buf : List UInt8) (txns : List Transaction) :
    txns.foldl transactionWrite buf = buf ++
      encodeAll (txns.map fun txn => .tuple (TransactionMessage.ofTransaction txn).values) := by
  induction txns generalizing buf with
  | nil => simp [encodeAll]
  | cons txn txns ih =>
      rw [List.foldl_cons, ih, transactionWrite_eq, List.map_cons, encodeAll, List.append_assoc]

theorem blockWrite_eq (buf : List UInt8) (block : Block) (prev : BlockPtr) :
    blockWrite buf (block :: prev) =
      .ok (buf ++ (Value.tuple (messageOf block prev).values).encode) := by
  simp only [blockWrite, blockWriteHeader_eq, foldl_transactionWrite,
    tupleWriteBinary_eq (by decide : signBytes < 2 ^ 32), tupleWriteStart, tupleWriteEnd,
    BlockMessage.values, messageOf, Value.encode, encodeAll, List.map_map]
  simp [ofBytes, Value.encode, Function.comp_def]

section Validators

variable {tuple : Tuple} {vs : List Value}

theorem isHeaderValid_iff (h : Represents tuple vs) :
    isHeaderValid tuple = .ok true ↔ ∃ m : HeaderMessage, vs = m.fields := by
  rw [isHeaderValid, guard_iff, not_not, h.tupleSize_eq, typeCheck_iff h, typeCheck_iff h,
    lengthCheck_iff h generichashBytes_lt, typeCheck_iff h,
    lengthCheck_iff h generichashBytes_lt, typeCheck_iff h, lengthCheck_iff h publicKeyBytes_lt,
    typeCheck_iff h, lengthCheck_iff h vrfProofBytes_lt, typeCheck_iff h, typeCheck_iff h]
  constructor
  · rintro ⟨hsize, ⟨v, hv, hvtag⟩, -, ⟨prevHash, h₁⟩, -, ⟨merkleRoot, h₂⟩, -,
      ⟨publicKey, h₃⟩, -, ⟨proof, h₄⟩, ⟨d, hd, hdtag⟩, ⟨c, hc, hctag⟩, -⟩
    obtain ⟨payload, rfl⟩ := exists_scalar_of_tag hvtag
    obtain ⟨timestamp, htimestamp⟩ := exists_ofU64 payload
    obtain ⟨payload', rfl⟩ := exists_scalar_of_tag hdtag
    obtain ⟨delegate, hdelegate⟩ := exists_ofU32 payload'
    obtain ⟨payload'', rfl⟩ := exists_scalar_of_tag hctag
    obtain ⟨count, hcount⟩ := exists_ofU32 payload''
    refine ⟨⟨timestamp, prevHash, merkleRoot, publicKey, proof, delegate, count⟩, ?_⟩
    rcases vs with _ | ⟨v₀, _ | ⟨v₁, _ | ⟨v₂, _ | ⟨v₃, vs⟩⟩⟩⟩ <;>
      try simp at hsize
    rcases vs with _ | ⟨v₄, _ | ⟨v₅, _ | ⟨v₆, _ | ⟨v₇, vs⟩⟩⟩⟩ <;>
      try simp at hsize
    simp_all [HeaderMessage.fields]
  · rintro ⟨m, rfl⟩
    exact ⟨rfl, ⟨_, rfl, rfl⟩, ⟨_, rfl, rfl⟩, ⟨_, rfl⟩, ⟨_, rfl, rfl⟩,
      ⟨_, rfl⟩, ⟨_, rfl, rfl⟩,
      ⟨_, rfl⟩, ⟨_, rfl, rfl⟩, ⟨_, rfl⟩, ⟨_, rfl, rfl⟩, ⟨_, rfl, rfl⟩, rfl⟩

theorem isTransactionTupleValid_iff (h : Represents tuple vs) (i : Nat) :
    isTransactionTupleValid tuple i = .ok true ↔
      ∃ m : TransactionMessage, vs[i]? = some (.tuple m.values) := by
  rw [isTransactionTupleValid, typeCheck_iff h, subTuple_iff h]
  constructor
  · rintro ⟨-, sub, ws, -, hi, hsub, hvalid⟩
    obtain ⟨m, rfl⟩ := (transactionIsValid_iff hsub).mp hvalid
    exact ⟨m, hi⟩
  · rintro ⟨m, hi⟩
    obtain ⟨sub, hget, hsub⟩ := h.tupleGetTuple_eq hi
    exact ⟨⟨_, hi, rfl⟩, sub, _, hget, hi, hsub,
      (transactionIsValid_iff hsub).mpr ⟨m, rfl⟩⟩

theorem exists_eq_map {α β : Type} {f : α → β} {ys : List β}
    (h : ∀ y ∈ ys, ∃ x, y = f x) :
    ∃ xs : List α, ys = xs.map f := by
  induction ys with
  | nil => exact ⟨[], rfl⟩
  | cons y ys ih =>
      rw [List.forall_mem_cons] at h
      obtain ⟨x, rfl⟩ := h.1
      obtain ⟨xs, rfl⟩ := ih h.2
      exact ⟨x :: xs, rfl⟩

theorem allTransactionsValid_iff (h : Represents tuple vs) :
    (List.range (tupleSize tuple)).allM (isTransactionTupleValid tuple) = .ok true ↔
      ∃ ms : List TransactionMessage, vs = ms.map fun m => .tuple m.values := by
  rw [allM_eq_ok_true, h.tupleSize_eq]
  simp only [isTransactionTupleValid_iff h, List.mem_range]
  constructor
  · intro hall
    refine exists_eq_map fun v hv => ?_
    obtain ⟨i, hlt, rfl⟩ := List.getElem_of_mem hv
    obtain ⟨m, hm⟩ := hall i hlt
    rw [List.getElem?_eq_getElem hlt] at hm
    exact ⟨m, Option.some.inj hm⟩
  · rintro ⟨ms, rfl⟩ i hlt
    rw [List.length_map] at hlt
    exact ⟨ms[i], by rw [List.getElem?_map, List.getElem?_eq_getElem hlt]; rfl⟩

theorem merkleRootFromTuple_eq {ms : List TransactionMessage}
    (h : Represents tuple (ms.map fun m => .tuple m.values)) (S : Sodium) :
    merkleRootFromTuple S tuple =
      .ok (merkleRootOfHashes S (ms.map fun m => S.generichash m.unsigned.encode)) := by
  have hloop : (List.range (tupleSize tuple)).mapM (fun i => do
      let signedTxn ← tupleGetTuple tuple i
      let txn ← tupleGetTuple signedTxn 0
      return S.generichash txn.bytes) =
      .ok (ms.map fun m => S.generichash m.unsigned.encode) := by
    rw [h.tupleSize_eq, List.length_map,
      ← List.length_map (fun m : TransactionMessage => S.generichash m.unsigned.encode)]
    refine mapM_range _ _ fun i hash hi => ?_
    rw [List.getElem?_map, Option.map_eq_some_iff] at hi
    obtain ⟨m, hm, rfl⟩ := hi
    have hsigned : (ms.map fun m => Value.tuple m.values)[i]? = some (.tuple m.values) := by
      rw [List.getElem?_map, hm, Option.map_some]
    obtain ⟨signedTxn, hget, hsub⟩ := h.tupleGetTuple_eq hsigned
    have hunsigned : m.values[0]? = some (.tuple m.fields) := rfl
    obtain ⟨txn, hget', hsub'⟩ := hsub.tupleGetTuple_eq hunsigned
    rw [hget, ok_bind, hget', ok_bind, hsub'.bytes_eq]
    rfl
  rw [merkleRootFromTuple, hloop]
  rfl

theorem exists_message_of_blockIsValid (h : Represents tuple vs) {S : Sodium}
    (hvalid : blockIsValid S tuple = .ok true) : ∃ m : BlockMessage, vs = m.values := by
  rw [blockIsValid, guard_iff, not_not, h.tupleSize_eq, typeCheck_iff h, typeCheck_iff h,
    typeCheck_iff h, subTuple_iff h] at hvalid
  obtain ⟨hsize, -, ⟨v, hv, hvtag⟩, -, header, hs, -, hheader, hsub, hrest⟩ := hvalid
  obtain ⟨signature, fits, rfl⟩ := exists_binary_of_tag hvtag
  rw [subTuple_iff h] at hrest
  obtain ⟨txns, ts, -, htxns, hsub', hrest⟩ := hrest
  rw [check_iff, isHeaderValid_iff hsub] at hrest
  obtain ⟨⟨m, rfl⟩, hrest⟩ := hrest
  have hcount := @tupleGetU32_eq _ _ 6 hsub m.count rfl
  rw [hcount, ok_bind, guard_iff, check_iff, allTransactionsValid_iff hsub'] at hrest
  obtain ⟨-, ⟨ms, rfl⟩, -⟩ := hrest
  refine ⟨⟨m, signature, fits, ms⟩, ?_⟩
  rcases vs with _ | ⟨v₀, _ | ⟨v₁, _ | ⟨v₂, _ | ⟨v₃, vs⟩⟩⟩⟩ <;>
    try simp at hsize
  simp_all [BlockMessage.values]

theorem exists_parts {m : BlockMessage} (h : Represents tuple m.values) :
    ∃ header txns after, tupleGetTuple tuple 0 = .ok header ∧
      tupleGetBinary tuple 1 = .ok ⟨m.signature.length, m.signature ++ after⟩ ∧
      tupleGetTuple tuple 2 = .ok txns ∧ Represents header m.header.fields ∧
      Represents txns (m.transactions.map fun t => .tuple t.values) := by
  have hheader : m.values[0]? = some (.tuple m.header.fields) := rfl
  have hsignature : m.values[1]? = some (.binary m.signature m.signatureFits) := rfl
  have htxns : m.values[2]? = some (.tuple (m.transactions.map fun t => .tuple t.values)) := rfl
  obtain ⟨header, hget, hsub⟩ := h.tupleGetTuple_eq hheader
  obtain ⟨after, hget'⟩ := h.tupleGetBinary_eq hsignature
  obtain ⟨txns, hget'', hsub'⟩ := h.tupleGetTuple_eq htxns
  exact ⟨header, txns, after, hget, hget', hget'', hsub, hsub'⟩

theorem blockIsValid_iff {m : BlockMessage} (h : Represents tuple m.values) (S : Sodium) :
    blockIsValid S tuple = .ok true ↔ m.Consistent S := by
  obtain ⟨header, txns, -, hget, -, hget', hsub, hsub'⟩ := exists_parts h
  have hheader := (isHeaderValid_iff hsub).mpr ⟨m.header, rfl⟩
  have hall := (allTransactionsValid_iff hsub').mpr ⟨m.transactions, rfl⟩
  have hcount := @tupleGetU32_eq _ _ 6 hsub m.header.count rfl
  obtain ⟨after, hroot⟩ :=
    @tupleGetBinary_ofBytes _ _ 2 hsub _ generichashBytes_lt m.header.merkleRoot rfl
  have hread : readBytes (m.header.merkleRoot.toList ++ after) 0 generichashBytes =
      .ok m.header.merkleRoot.toList :=
    readBytes_eq_ok.mpr ⟨m.header.merkleRoot.length_eq, [], after, rfl, rfl⟩
  rw [blockIsValid, guard_iff, not_not, h.tupleSize_eq, typeCheck_iff h, typeCheck_iff h,
    typeCheck_iff h, hget, ok_bind, hget', ok_bind, check_iff, hcount, ok_bind, guard_iff,
    not_not, check_iff, merkleRootFromTuple_eq hsub', ok_bind, hroot, ok_bind, hread, ok_bind,
    hsub'.tupleSize_eq, List.length_map]
  have hcompare : (pure (decide (memcmp (merkleRootOfHashes S (m.leaves S)).toList
      m.header.merkleRoot.toList = 0)) : Outcome Bool) = .ok true ↔
      merkleRootOfHashes S (m.leaves S) = m.header.merkleRoot := by
    rw [pure_eq_ok, Except.ok.injEq, decide_eq_true_eq, memcmp_eq_zero_iff
      ((Bytes.length_eq _).trans (Bytes.length_eq _).symm)]
    exact ⟨Bytes.ext, congrArg Bytes.toList⟩
  constructor
  · rintro ⟨-, -, -, -, -, hlength, -, hmerkle⟩
    exact ⟨hlength, hcompare.mp hmerkle⟩
  · rintro ⟨hlength, hmerkle⟩
    rw [hsub'.tupleSize_eq, List.length_map] at hall
    exact ⟨rfl, ⟨_, rfl, rfl⟩, ⟨_, rfl, rfl⟩, ⟨_, rfl, rfl⟩, hheader, hlength, hall,
      hcompare.mpr hmerkle⟩

end Validators

namespace BlockMessage

variable (S : Sodium) (m : BlockMessage) (prev : BlockPtr)

/-- The hash of the block that the program makes of a message: it names the
parent that was found, not the one that the message asks for. -/
def hash : Hash :=
  S.generichash
    (Value.tuple ({ m.header with prevHash := blockGetHash prev } : HeaderMessage).fields).encode

/-- The transactions that the program makes of a message. -/
def txns : List Transaction :=
  m.transactions.map fun t => t.transaction S

/-- The block that the program makes of a message, on a given parent. -/
def block (sortitionHash : VrfOutput) (accounts : Map PublicKey AccountPtr) : Block where
  timestamp := m.header.timestamp
  merkleRoot := m.header.merkleRoot
  publicKey := m.header.publicKey
  sortitionProof := m.header.sortitionProof
  signature := Bytes.ofList signBytes m.signature
  delegate := m.header.delegate
  transactions := m.txns S
  hash := m.hash S prev
  sortitionSeed := blockComputeSeed S prev
  sortitionHash := sortitionHash
  sortitionPriority := delegateHash S sortitionHash m.header.delegate
  height := 1 + blockGetHeight prev
  accounts := accounts

/-- The checks that a block on a given parent has to pass. -/
structure Checks (sortitionHash : VrfOutput) : Prop where
  signature_length : m.signature.length ≤ signBytes
  staking : isStakingAllowed prev m.header.publicKey = true
  sortition : S.vrfVerify m.header.publicKey m.header.sortitionProof
    (blockComputeSeed S prev).toList = some sortitionHash
  delegate : isDelegateAllowed prev m.header.publicKey m.header.delegate = true
  transactions : ∀ t ∈ m.transactions, t.Verifies S
  signature : S.signVerifyDetached (Bytes.ofList signBytes m.signature) (m.hash S prev).toList
    m.header.publicKey = true

/-- `block_create_from_tuple` on the fields of a message. -/
def accept : Outcome BlockPtr := do
  let signature ← memcpy signBytes m.signature m.signature.length
  if !isStakingAllowed prev m.header.publicKey then return []
  match S.vrfVerify m.header.publicKey m.header.sortitionProof
      (blockComputeSeed S prev).toList with
  | none => return []
  | some sortitionHash =>
      if !isDelegateAllowed prev m.header.publicKey m.header.delegate then return []
      if !S.signVerifyDetached signature (m.hash S prev).toList m.header.publicKey then return []
      match ← areTransactionsValid prev m.header.publicKey (1 + blockGetHeight prev)
          (m.transactions.map fun t => if t.Verifies S then some (t.transaction S) else none) with
      | none => return []
      | some accounts => return m.block S prev sortitionHash accounts :: prev

end BlockMessage

section Acceptance

variable {tuple : Tuple} {m : BlockMessage}

theorem transactionsFromTuple_eq {ms : List TransactionMessage}
    (h : Represents tuple (ms.map fun t => .tuple t.values)) (S : Sodium) :
    (List.range (tupleSize tuple)).mapM (fun i => do
      transactionCreateFromTuple S (← tupleGetTuple tuple i)) =
      .ok (ms.map fun t => if t.Verifies S then some (t.transaction S) else none) := by
  rw [h.tupleSize_eq, List.length_map, ← List.length_map
    (fun t : TransactionMessage => if t.Verifies S then some (t.transaction S) else none)]
  refine mapM_range _ _ fun i txn hi => ?_
  rw [List.getElem?_map, Option.map_eq_some_iff] at hi
  obtain ⟨t, ht, rfl⟩ := hi
  have hsigned : (ms.map fun t => Value.tuple t.values)[i]? = some (.tuple t.values) := by
    rw [List.getElem?_map, ht, Option.map_some]
  obtain ⟨sub, hget, hsub⟩ := h.tupleGetTuple_eq hsigned
  rw [hget, ok_bind, transactionCreateFromTuple_eq hsub]

theorem headerOf_eq {S : Sodium} (hconsistent : m.Consistent S) (prev : BlockPtr) {block : Block}
    {count : Nat} (htimestamp : block.timestamp = m.header.timestamp)
    (hroot : block.merkleRoot = m.header.merkleRoot)
    (hpublic : block.publicKey = m.header.publicKey)
    (hproof : block.sortitionProof = m.header.sortitionProof)
    (hdelegate : block.delegate = m.header.delegate) (hcount : count = m.transactions.length) :
    headerOf block prev count = { m.header with prevHash := blockGetHash prev } := by
  rw [headerOf, htimestamp, hroot, hpublic, hproof, hdelegate, hcount, hconsistent.count_eq,
    UInt32.ofNat_toNat]

theorem blockComputeHash_eq {S : Sodium} {block : Block} {prev : BlockPtr} {count : Nat}
    (h : headerOf block prev count = { m.header with prevHash := blockGetHash prev }) :
    blockComputeHash S block prev count = m.hash S prev := by
  rw [blockComputeHash, blockWriteHeader_eq, List.nil_append, h, BlockMessage.hash]

theorem verifies_of_ledger {S : Sodium} {prev : BlockPtr} {pk : PublicKey} {height : UInt32}
    {ms : List TransactionMessage} {accounts : Map PublicKey AccountPtr}
    (h : areTransactionsValid prev pk height
      (ms.map fun t => if t.Verifies S then some (t.transaction S) else none) =
        .ok (some accounts)) : ∀ t ∈ ms, t.Verifies S := by
  rw [areTransactionsValid] at h
  have hsome := applyTransactions_some h
  intro t ht
  by_contra hverifies
  have hmem : (none : Option Transaction) ∈
      ms.map fun t => if t.Verifies S then some (t.transaction S) else none :=
    List.mem_map.mpr ⟨t, ht, if_neg hverifies⟩
  rw [← hsome] at hmem
  simp at hmem

theorem map_verified {S : Sodium} {ms : List TransactionMessage}
    (hall : ∀ t ∈ ms, t.Verifies S) :
    (ms.map fun t => if t.Verifies S then some (t.transaction S) else none) =
      (ms.map fun t => t.transaction S).map some := by
  rw [List.map_map]
  exact List.map_congr_left fun t ht => if_pos (hall t ht)

theorem reduceOption_verified {S : Sodium} {ms : List TransactionMessage}
    (hall : ∀ t ∈ ms, t.Verifies S) :
    (ms.map fun t => if t.Verifies S then some (t.transaction S) else none).reduceOption =
      ms.map fun t => t.transaction S := by
  rw [map_verified hall]
  simp [List.reduceOption]

theorem blockCreateFromTuple_eq (h : Represents tuple m.values) {S : Sodium}
    (hconsistent : m.Consistent S) (find : Hash → BlockPtr) :
    blockCreateFromTuple S tuple find = m.accept S (find m.header.prevHash) := by
  have hvalid := (blockIsValid_iff h S).mpr hconsistent
  obtain ⟨header, txns, after, hget, hsignature, hget', hsub, hsub'⟩ := exists_parts h
  have htimestamp := @tupleGetU64_eq _ _ 0 hsub m.header.timestamp rfl
  have hdelegate := @tupleGetU32_eq _ _ 5 hsub m.header.delegate rfl
  obtain ⟨after₁, hprev⟩ :=
    @tupleGetBinary_ofBytes _ _ 1 hsub _ generichashBytes_lt m.header.prevHash rfl
  obtain ⟨after₂, hroot⟩ :=
    @tupleGetBinary_ofBytes _ _ 2 hsub _ generichashBytes_lt m.header.merkleRoot rfl
  obtain ⟨after₃, hpublic⟩ :=
    @tupleGetBinary_ofBytes _ _ 3 hsub _ publicKeyBytes_lt m.header.publicKey rfl
  obtain ⟨after₄, hsortition⟩ :=
    @tupleGetBinary_ofBytes _ _ 4 hsub _ vrfProofBytes_lt m.header.sortitionProof rfl
  have htxns := transactionsFromTuple_eq hsub' S
  simp only [blockCreateFromTuple, hvalid, hget, hsignature, hget', htimestamp, hprev, hroot,
    hpublic, hsortition, hdelegate, ok_bind, memcpy_toList]
  rw [htxns, BlockMessage.accept]
  rcases Nat.lt_or_ge signBytes m.signature.length with hlong | hshort
  · rw [memcpy, if_pos hlong, error_bind, memcpy, if_pos hlong, error_bind]
    rfl
  have hmemcpy := @memcpy_append _ _ _ [] (Eq.refl m.signature.length) hshort
  rw [List.append_nil] at hmemcpy
  rw [memcpy_append rfl hshort, hmemcpy, ok_bind, ok_bind]
  generalize find m.header.prevHash = prev
  cases hstaking : isStakingAllowed prev m.header.publicKey with
  | false => rfl
  | true =>
      cases hverify : S.vrfVerify m.header.publicKey m.header.sortitionProof
          (blockComputeSeed S prev).toList with
      | none => rfl
      | some sortitionHash =>
          cases hallowed : isDelegateAllowed prev m.header.publicKey m.header.delegate with
          | false => rfl
          | true =>
              simp only [Bool.not_true, Bool.false_eq_true, if_false, ok_bind]
              rw [blockComputeHash_eq (headerOf_eq hconsistent prev rfl rfl rfl rfl
                rfl (by simp))]
              cases S.signVerifyDetached (Bytes.ofList signBytes m.signature)
                  (m.hash S prev).toList m.header.publicKey with
              | false => rfl
              | true =>
                  cases hledger : areTransactionsValid prev m.header.publicKey
                      (1 + blockGetHeight prev) (m.transactions.map fun t =>
                        if t.Verifies S then some (t.transaction S) else none) with
                  | error e => rfl
                  | ok result =>
                      cases result with
                      | none => rfl
                      | some accounts =>
                          have hreduce := reduceOption_verified (verifies_of_ledger hledger)
                          simp only [ok_bind, hreduce]
                          rfl

/-- What a message has to pass on a given parent, and the block it then becomes. -/
theorem accept_eq_ok_iff (m : BlockMessage) (S : Sodium) (prev : BlockPtr) (block : Block)
    (prev' : BlockPtr) :
    m.accept S prev = .ok (block :: prev') ↔ prev' = prev ∧ ∃ sortitionHash accounts,
      m.Checks S prev sortitionHash ∧
      areTransactionsValid prev m.header.publicKey (1 + blockGetHeight prev)
        ((m.txns S).map some) = .ok (some accounts) ∧
      block = m.block S prev sortitionHash accounts := by
  constructor
  · intro h
    rw [BlockMessage.accept] at h
    rcases Nat.lt_or_ge signBytes m.signature.length with hlong | hshort
    · rw [memcpy, if_pos hlong] at h
      cases h
    have hmemcpy := @memcpy_append _ _ _ [] (Eq.refl m.signature.length) hshort
    rw [List.append_nil] at hmemcpy
    rw [hmemcpy, ok_bind] at h
    split at h
    · simp at h
    rename_i hstaking
    cases hverify : S.vrfVerify m.header.publicKey m.header.sortitionProof
        (blockComputeSeed S prev).toList with
    | none => simp [hverify] at h
    | some sortitionHash =>
        simp only [hverify] at h
        split at h
        · simp at h
        rename_i hallowed
        split at h
        · simp at h
        rename_i hsigned
        rw [bind_eq_ok] at h
        obtain ⟨result, hledger, h⟩ := h
        cases result with
        | none => simp at h
        | some accounts =>
            have hall := verifies_of_ledger hledger
            rw [map_verified hall] at hledger
            simp only [pure_eq_ok, Except.ok.injEq, List.cons.injEq] at h
            refine ⟨h.2.symm, sortitionHash, accounts, ?_, hledger, h.1.symm⟩
            exact
              { signature_length := hshort
                staking := by simpa using hstaking
                sortition := hverify
                delegate := by simpa using hallowed
                transactions := hall
                signature := by simpa using hsigned }
  · rintro ⟨rfl, sortitionHash, accounts, hchecks, hledger, rfl⟩
    have hmemcpy := @memcpy_append _ _ _ [] (Eq.refl m.signature.length) hchecks.signature_length
    rw [List.append_nil] at hmemcpy
    rw [BlockMessage.accept, hmemcpy, ok_bind, hchecks.staking, hchecks.sortition]
    simp only [hchecks.delegate, hchecks.signature, map_verified hchecks.transactions,
      Bool.not_true, Bool.false_eq_true, if_false]
    rw [BlockMessage.txns] at hledger
    rw [hledger]
    rfl

theorem signature_length_of_accept {S : Sodium} {prev prev' : BlockPtr} {block : Block}
    (h : m.accept S prev = .ok (block :: prev')) : m.signature.length ≤ signBytes := by
  obtain ⟨-, _, _, hchecks, -⟩ := (accept_eq_ok_iff _ _ _ _ _).mp h
  exact hchecks.signature_length

/-- Only consistent messages become blocks. -/
theorem exists_message_of_accepted {vs : List Value} (h : Represents tuple vs) {S : Sodium}
    {find : Hash → BlockPtr} {block : Block} {prev : BlockPtr}
    (hrun : blockCreateFromTuple S tuple find = .ok (block :: prev)) :
    ∃ m : BlockMessage, vs = m.values ∧ m.Consistent S := by
  have hvalid : blockIsValid S tuple = .ok true := by
    rw [blockCreateFromTuple, bind_eq_ok] at hrun
    obtain ⟨valid, hvalid, hrest⟩ := hrun
    cases valid with
    | true => exact hvalid
    | false => cases hrest
  obtain ⟨m, rfl⟩ := exists_message_of_blockIsValid h hvalid
  exact ⟨m, rfl, (blockIsValid_iff h S).mp hvalid⟩

/-- `block_is_valid` lets the tuple through, and the copy of its signature writes on
behind the field for it, over the delegate that has been read already. -/
def Overruns (S : Sodium) (tuple : Tuple) : Prop :=
  blockIsValid S tuple = .ok true ∧
    ∃ signature, tupleGetBinary tuple 1 = .ok signature ∧ signBytes < signature.length

theorem overruns_iff (h : Represents tuple m.values) (S : Sodium) :
    Overruns S tuple ↔ m.Consistent S ∧ signBytes < m.signature.length := by
  obtain ⟨-, -, after, -, hsignature, -⟩ := exists_parts h
  rw [Overruns, blockIsValid_iff h, hsignature]
  refine and_congr_right fun _ => ?_
  constructor
  · rintro ⟨signature, heq, hlong⟩
    rwa [← Except.ok.inj heq] at hlong
  · intro hlong
    exact ⟨_, rfl, hlong⟩

theorem accept_of_long {S : Sodium} (prev : BlockPtr) (hlong : signBytes < m.signature.length) :
    m.accept S prev = .error .outOfBounds := by
  rw [BlockMessage.accept, memcpy, if_pos hlong, error_bind]

/-- The copy is out of bounds, whatever the parent. -/
theorem blockCreateFromTuple_of_overruns {vs : List Value} (h : Represents tuple vs) {S : Sodium}
    (hover : Overruns S tuple) (find : Hash → BlockPtr) :
    blockCreateFromTuple S tuple find = .error .outOfBounds := by
  obtain ⟨m, rfl⟩ := exists_message_of_blockIsValid h hover.1
  obtain ⟨hconsistent, hlong⟩ := (overruns_iff h S).mp hover
  rw [blockCreateFromTuple_eq h hconsistent, accept_of_long _ hlong]

/-- The program makes a block of the tuple, or writes on behind its signature. -/
def Received (S : Sodium) (tuple : Tuple) (find : Hash → BlockPtr) : Prop :=
  Overruns S tuple ∨ ∃ block, blockCreateFromTuple S tuple find = .ok block ∧ block ≠ []

theorem exists_message_of_received {vs : List Value} (h : Represents tuple vs) {S : Sodium}
    {find : Hash → BlockPtr} (hreceived : Received S tuple find) :
    ∃ m : BlockMessage, vs = m.values ∧ m.Consistent S := by
  rcases hreceived with hover | ⟨block, hrun, hne⟩
  · obtain ⟨m, rfl⟩ := exists_message_of_blockIsValid h hover.1
    exact ⟨m, rfl, (blockIsValid_iff h S).mp hover.1⟩
  · cases block with
    | nil => exact absurd rfl hne
    | cons block prev => exact exists_message_of_accepted h hrun

/-- Either the signature was too long for its field, or a block was made. -/
theorem received_cases (h : Represents tuple m.values) {S : Sodium}
    (hconsistent : m.Consistent S) {find : Hash → BlockPtr} (hreceived : Received S tuple find) :
    (Overruns S tuple ∧ signBytes < m.signature.length) ∨
      ∃ data prev, ¬ Overruns S tuple ∧ m.signature.length ≤ signBytes ∧
        blockCreateFromTuple S tuple find = .ok (data :: prev) ∧
        m.accept S (find m.header.prevHash) = .ok (data :: prev) := by
  rcases hreceived with hover | ⟨block, hrun, hne⟩
  · exact .inl ⟨hover, ((overruns_iff h S).mp hover).2⟩
  · rcases block with _ | ⟨data, prev⟩
    · exact absurd rfl hne
    have haccept := hrun
    rw [blockCreateFromTuple_eq h hconsistent] at haccept
    have hshort := signature_length_of_accept haccept
    refine .inr ⟨data, prev, fun hover => ?_, hshort, hrun, haccept⟩
    exact absurd ((overruns_iff h S).mp hover).2 hshort.not_gt

theorem exists_parsed (m : BlockMessage) (after : List UInt8) :
    ∃ tuple, tupleParse ⟨(Value.tuple m.values).encode.length,
      (Value.tuple m.values).encode ++ after⟩ = .ok (some tuple) ∧ Represents tuple m.values :=
  tupleParse_of_encode rfl le_rfl

end Acceptance

end Whosecoin.BlockSchema

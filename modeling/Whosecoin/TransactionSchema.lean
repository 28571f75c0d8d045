import Whosecoin.TupleFormat
import Whosecoin.Transactions

/-!
The validator of `transaction.c` accepts exactly the tuples of a message type, from
which everything that the program computes of a transaction is read off.
-/

namespace Whosecoin.TransactionSchema

open Library.Outcomes
open Library.ByteStrings
open Cryptography
open TupleParser
open TupleFormat
open Transactions

section Fields

theorem generichashBytes_lt : generichashBytes < 2 ^ 32 := by
  decide

theorem publicKeyBytes_lt : publicKeyBytes < 2 ^ 32 := by
  decide

theorem signBytes_lt : signBytes < 2 ^ 32 := by
  decide

theorem vrfProofBytes_lt : vrfProofBytes < 2 ^ 32 := by
  decide

def ofBytes {n : Nat} (hn : n < 2 ^ 32) (b : Bytes n) : Value :=
  .binary b.toList (by rw [b.length_eq]; exact hn)

def ofU32 (v : UInt32) : Value :=
  .scalar .u32 ⟨toBigEndian 4 v.toNat, length_u32 v⟩

def ofU64 (v : UInt64) : Value :=
  .scalar .u64 ⟨toBigEndian 8 v.toNat, length_u64 v⟩

theorem tupleWriteBinary_eq {n : Nat} (hn : n < 2 ^ 32) (file : List UInt8) (b : Bytes n) :
    tupleWriteBinary file b.toList = file ++ (ofBytes hn b).encode :=
  rfl

theorem tupleWriteU32_eq (file : List UInt8) (v : UInt32) :
    tupleWriteU32 file v = file ++ (ofU32 v).encode :=
  rfl

theorem tupleWriteU64_eq (file : List UInt8) (v : UInt64) :
    tupleWriteU64 file v = file ++ (ofU64 v).encode :=
  rfl

theorem exists_ofU32 (payload : Bytes Scalar.u32.width) :
    ∃ v, Value.scalar .u32 payload = ofU32 v := by
  refine ⟨UInt32.ofNat (bigEndian payload.toList), ?_⟩
  have hlt := bigEndian_lt payload.toList
  have hpayload := toBigEndian_bigEndian payload.toList
  rw [payload.length_eq] at hlt hpayload
  rw [ofU32, Value.scalar.injEq]
  refine ⟨rfl, heq_of_eq (Bytes.ext ?_)⟩
  rw [UInt32.toNat_ofNat_of_lt' (by exact hlt)]
  exact hpayload.symm

theorem exists_ofU64 (payload : Bytes Scalar.u64.width) :
    ∃ v, Value.scalar .u64 payload = ofU64 v := by
  refine ⟨UInt64.ofNat (bigEndian payload.toList), ?_⟩
  have hlt := bigEndian_lt payload.toList
  have hpayload := toBigEndian_bigEndian payload.toList
  rw [payload.length_eq] at hlt hpayload
  rw [ofU64, Value.scalar.injEq]
  refine ⟨rfl, heq_of_eq (Bytes.ext ?_)⟩
  rw [UInt64.toNat_ofNat_of_lt' (by exact hlt)]
  exact hpayload.symm

theorem ofU32_injective : Function.Injective ofU32 := by
  intro v w h
  have hpayload : toBigEndian 4 v.toNat = toBigEndian 4 w.toNat :=
    congrArg Bytes.toList (eq_of_heq (Value.scalar.inj h).2)
  have := congrArg bigEndian hpayload
  rw [bigEndian_toBigEndian 4 _ v.toNat_lt, bigEndian_toBigEndian 4 _ w.toNat_lt] at this
  exact UInt32.toNat_inj.mp this

theorem ofU64_injective : Function.Injective ofU64 := by
  intro v w h
  have hpayload : toBigEndian 8 v.toNat = toBigEndian 8 w.toNat :=
    congrArg Bytes.toList (eq_of_heq (Value.scalar.inj h).2)
  have := congrArg bigEndian hpayload
  rw [bigEndian_toBigEndian 8 _ v.toNat_lt, bigEndian_toBigEndian 8 _ w.toNat_lt] at this
  exact UInt64.toNat_inj.mp this

theorem ofBytes_injective {n : Nat} (hn : n < 2 ^ 32) : Function.Injective (@ofBytes n hn) := by
  intro a b h
  exact Bytes.ext (Value.binary.inj h)

variable {tuple : Tuple} {vs : List Value} {i : Nat}

theorem tupleGetU32_eq (h : Represents tuple vs) {v : UInt32} (hi : vs[i]? = some (ofU32 v)) :
    tupleGetU32 tuple i = .ok v := by
  rw [tupleGetU32, h.tupleGetScalar_eq hi, Except.map, bigEndian_toBigEndian 4 _ v.toNat_lt,
    UInt32.ofNat_toNat]

theorem tupleGetU64_eq (h : Represents tuple vs) {v : UInt64} (hi : vs[i]? = some (ofU64 v)) :
    tupleGetU64 tuple i = .ok v := by
  rw [tupleGetU64, h.tupleGetScalar_eq hi, Except.map, bigEndian_toBigEndian 8 _ v.toNat_lt,
    UInt64.ofNat_toNat]

/-- One `if (tuple_get_type(..) != ..) return false;` of a validator. -/
theorem typeCheck_iff (h : Represents tuple vs) (tag : Tag) (rest : Outcome Bool) :
    (tupleGetType tuple i >>= fun byte => if byte ≠ tag.byte then pure false else rest) =
        .ok true ↔
      (∃ v, vs[i]? = some v ∧ v.tag = tag) ∧ rest = .ok true := by
  cases hi : vs[i]? with
  | none => simp [h.tupleGetType_of_none hi]
  | some v =>
      rw [h.tupleGetType_eq hi, ok_bind]
      by_cases htag : v.tag = tag
      · simp [htag]
      · simp [htag, Tag.byte_injective.eq_iff]

theorem exists_binary_of_tag {v : Value} (htag : v.tag = .binary) :
    ∃ bytes fits, v = .binary bytes fits := by
  cases v with
  | binary bytes fits => exact ⟨bytes, fits, rfl⟩
  | _ => cases htag

theorem tupleGetBinary_ofBytes (h : Represents tuple vs) {n : Nat} {hn : n < 2 ^ 32}
    {b : Bytes n} (hi : vs[i]? = some (ofBytes hn b)) :
    ∃ after, tupleGetBinary tuple i = .ok ⟨n, b.toList ++ after⟩ := by
  obtain ⟨after, hget⟩ := h.tupleGetBinary_eq hi
  exact ⟨after, by rw [hget, b.length_eq]⟩

theorem lengthCheck_iff (h : Represents tuple vs) {n : Nat} (hn : n < 2 ^ 32)
    (rest : Outcome Bool) :
    (tupleGetBinary tuple i >>= fun buf => if buf.length ≠ n then pure false else rest) =
        .ok true ↔
      (∃ b : Bytes n, vs[i]? = some (ofBytes hn b)) ∧ rest = .ok true := by
  constructor
  · intro hrun
    rcases eq_or_ne (vs[i]?.map Value.tag) (some .binary) with htag | htag
    · obtain ⟨v, hi, htag⟩ := Option.map_eq_some_iff.mp htag
      obtain ⟨bytes, fits, rfl⟩ := exists_binary_of_tag htag
      obtain ⟨after, hget⟩ := h.tupleGetBinary_eq hi
      rw [hget, ok_bind] at hrun
      split_ifs at hrun with hlength
      · cases hrun
      · exact ⟨⟨⟨bytes, not_not.mp hlength⟩, hi⟩, hrun⟩
    · rw [h.tupleGetBinary_error htag, error_bind] at hrun
      cases hrun
  · rintro ⟨⟨b, hi⟩, hrest⟩
    obtain ⟨after, hget⟩ := tupleGetBinary_ofBytes h hi
    rw [hget, ok_bind, if_neg (not_not.mpr rfl), hrest]

theorem guard_iff (c : Prop) [Decidable c] (rest : Outcome Bool) :
    (if c then pure false else rest) = .ok true ↔ ¬ c ∧ rest = .ok true := by
  split_ifs with h
  · simp [h]
  · simp [h]

theorem check_iff (test rest : Outcome Bool) :
    (test >>= fun passed => if (!passed) = true then pure false else rest) = .ok true ↔
      test = .ok true ∧ rest = .ok true := by
  rw [bind_eq_ok]
  constructor
  · rintro ⟨passed, htest, hrest⟩
    cases passed with
    | true => exact ⟨htest, hrest⟩
    | false => cases hrest
  · rintro ⟨htest, hrest⟩
    exact ⟨true, htest, hrest⟩

theorem subTuple_iff (h : Represents tuple vs) {β : Type} (rest : Tuple → Outcome β) (b : β) :
    (tupleGetTuple tuple i >>= rest) = .ok b ↔ ∃ sub ws, tupleGetTuple tuple i = .ok sub ∧
      vs[i]? = some (.tuple ws) ∧ Represents sub ws ∧ rest sub = .ok b := by
  rw [bind_eq_ok]
  constructor
  · rintro ⟨sub, hsub, hrest⟩
    rcases eq_or_ne (vs[i]?.map Value.tag) (some .tupleStart) with htag | htag
    · obtain ⟨v, hi, htag⟩ := Option.map_eq_some_iff.mp htag
      cases v with
      | tuple ws =>
          obtain ⟨sub', hsub', hrep⟩ := h.tupleGetTuple_eq hi
          rw [hsub, Except.ok.injEq] at hsub'
          exact ⟨sub, ws, hsub, hi, hsub' ▸ hrep, hrest⟩
      | _ => cases htag
    · rw [h.tupleGetTuple_error htag] at hsub
      cases hsub
  · rintro ⟨sub, ws, hsub, hi, hrep, hrest⟩
    exact ⟨sub, hsub, hrest⟩

theorem exists_scalar_of_tag {v : Value} {kind : Scalar} (htag : v.tag = .scalar kind) :
    ∃ payload, v = .scalar kind payload := by
  cases v with
  | scalar kind' payload =>
      cases htag
      exact ⟨payload, rfl⟩
  | _ => cases htag

end Fields

/-- The shape of the transaction tuples that the validator lets through; `extra`
are the elements of the inner tuple that nobody looks at. -/
structure TransactionMessage where
  sender : PublicKey
  recipient : PublicKey
  value : UInt64
  nonce : UInt32
  extra : List Value
  signature : Signature

namespace TransactionMessage

variable (m : TransactionMessage)

/-- The four fields of a transaction, and what follows them. -/
def fields : List Value :=
  ofBytes publicKeyBytes_lt m.sender :: ofBytes publicKeyBytes_lt m.recipient :: ofU64 m.value ::
    ofU32 m.nonce :: m.extra

/-- The tuple that is signed. -/
def unsigned : Value :=
  .tuple m.fields

def values : List Value :=
  [m.unsigned, ofBytes signBytes_lt m.signature]

/-- The transaction that the program makes of a message. -/
def transaction (S : Sodium) : Transaction :=
  { transactionComputeHash S
      { sender := m.sender
        recipient := m.recipient
        value := m.value
        nonce := m.nonce
        signature := Bytes.zero signBytes
        hash := Bytes.zero generichashBytes } with
    signature := m.signature }

/-- The message that the program writes for a transaction. -/
def ofTransaction (txn : Transaction) : TransactionMessage where
  sender := txn.sender
  recipient := txn.recipient
  value := txn.value
  nonce := txn.nonce
  extra := []
  signature := txn.signature

end TransactionMessage

open TransactionMessage

theorem TransactionMessage.values_injective : Function.Injective TransactionMessage.values := by
  intro m m' h
  simp only [values, unsigned, List.cons.injEq, and_true, Value.tuple.injEq, fields] at h
  obtain ⟨⟨hsender, hrecipient, hvalue, hnonce, hextra⟩, hsignature⟩ := h
  cases m
  cases m'
  simp only [TransactionMessage.mk.injEq]
  exact ⟨ofBytes_injective _ hsender, ofBytes_injective _ hrecipient, ofU64_injective hvalue,
    ofU32_injective hnonce, hextra, ofBytes_injective _ hsignature⟩

theorem transactionHashInput_eq (txn : Transaction) :
    transactionHashInput txn = (ofTransaction txn).unsigned.encode := by
  simp only [transactionHashInput, tupleWriteBinary_eq (by decide : publicKeyBytes < 2 ^ 32),
    tupleWriteU64_eq, tupleWriteU32_eq, tupleWriteStart, tupleWriteEnd, unsigned, fields,
    ofTransaction, Value.encode, encodeAll]
  simp

theorem transactionWrite_eq (buf : List UInt8) (txn : Transaction) :
    transactionWrite buf txn = buf ++ (Value.tuple (ofTransaction txn).values).encode := by
  simp only [transactionWrite, tupleWriteBinary_eq (by decide : publicKeyBytes < 2 ^ 32),
    tupleWriteBinary_eq (by decide : signBytes < 2 ^ 32), tupleWriteU64_eq, tupleWriteU32_eq,
    tupleWriteStart, tupleWriteEnd, values, unsigned, fields, ofTransaction, Value.encode,
    encodeAll]
  simp

theorem transaction_ofTransaction {S : Sodium} {txn : Transaction}
    (hhash : txn.hash = S.generichash (transactionHashInput txn)) :
    (ofTransaction txn).transaction S = txn := by
  rw [transaction, transactionComputeHash, ofTransaction]
  cases txn
  simp only [Transaction.mk.injEq, true_and]
  exact hhash.symm

theorem ofTransaction_transaction (S : Sodium) (m : TransactionMessage) :
    ofTransaction (m.transaction S) = { m with extra := [] } :=
  rfl

theorem transaction_hash (S : Sodium) (m : TransactionMessage) :
    (m.transaction S).hash = S.generichash
    ({ m with extra := [] } : TransactionMessage).unsigned.encode := by
  rw [← ofTransaction_transaction S m, ← transactionHashInput_eq]
  rfl

section Validator

variable {tuple : Tuple} {vs : List Value}

/-- The validator accepts exactly the messages. -/
theorem transactionIsValid_iff (h : Represents tuple vs) :
    transactionIsValid tuple = .ok true ↔ ∃ m : TransactionMessage, vs = m.values := by
  rw [transactionIsValid, guard_iff, not_not, h.tupleSize_eq, typeCheck_iff h, typeCheck_iff h,
    lengthCheck_iff h signBytes_lt, subTuple_iff h]
  constructor
  · rintro ⟨hsize, -, -, ⟨signature, hsignature⟩, sub, fields, -, hfields, hsub, hrest⟩
    rw [typeCheck_iff hsub, lengthCheck_iff hsub publicKeyBytes_lt, typeCheck_iff hsub,
      lengthCheck_iff hsub publicKeyBytes_lt, typeCheck_iff hsub, typeCheck_iff hsub] at hrest
    obtain ⟨-, ⟨sender, hsender⟩, -, ⟨recipient, hrecipient⟩, ⟨v, hv, hvtag⟩,
      ⟨n, hn, hntag⟩, -⟩ := hrest
    obtain ⟨payload, rfl⟩ := exists_scalar_of_tag hvtag
    obtain ⟨value, hvalue⟩ := exists_ofU64 payload
    obtain ⟨payload', rfl⟩ := exists_scalar_of_tag hntag
    obtain ⟨nonce, hnonce⟩ := exists_ofU32 payload'
    refine ⟨⟨sender, recipient, value, nonce, fields.drop 4, signature⟩, ?_⟩
    rcases fields with _ | ⟨f₀, _ | ⟨f₁, _ | ⟨f₂, _ | ⟨f₃, extra⟩⟩⟩⟩ <;>
      try simp at hn
    rcases vs with _ | ⟨v₀, _ | ⟨v₁, _ | ⟨v₂, vs⟩⟩⟩ <;> try simp at hsize
    simp_all [TransactionMessage.values, TransactionMessage.unsigned, TransactionMessage.fields]
  · rintro ⟨m, rfl⟩
    have hunsigned : m.values[0]? = some (.tuple m.fields) := rfl
    obtain ⟨sub, hget, hsub⟩ := h.tupleGetTuple_eq hunsigned
    refine ⟨rfl, ⟨_, rfl, rfl⟩, ⟨_, rfl, rfl⟩, ⟨_, rfl⟩, sub, _, hget,
      rfl, hsub, ?_⟩
    rw [typeCheck_iff hsub, lengthCheck_iff hsub publicKeyBytes_lt, typeCheck_iff hsub,
      lengthCheck_iff hsub publicKeyBytes_lt, typeCheck_iff hsub, typeCheck_iff hsub]
    exact ⟨⟨_, rfl, rfl⟩, ⟨_, rfl⟩, ⟨_, rfl, rfl⟩, ⟨_, rfl⟩, ⟨_, rfl, rfl⟩,
      ⟨_, rfl, rfl⟩, rfl⟩

theorem memcpy_append {n count : Nat} {bytes after : List UInt8} (hcount : bytes.length = count)
    (hn : count ≤ n) : memcpy n (bytes ++ after) count = .ok (Bytes.ofList n bytes) := by
  have hread : readBytes (bytes ++ after) 0 count = .ok bytes :=
    readBytes_eq_ok.mpr ⟨hcount, [], after, rfl, rfl⟩
  rw [memcpy, if_neg (by omega), hread]
  rfl

theorem memcpy_toList {n : Nat} (b : Bytes n) (after : List UInt8) :
    memcpy n (b.toList ++ after) n = .ok b := by
  rw [memcpy_append b.length_eq le_rfl, Bytes.ofList_self]

/-- The signature of the message is the sender's. -/
def TransactionMessage.Verifies (S : Sodium) (m : TransactionMessage) : Prop :=
  S.signVerifyDetached m.signature (m.transaction S).hash.toList m.sender = true

instance (S : Sodium) (m : TransactionMessage) : Decidable (m.Verifies S) :=
  inferInstanceAs (Decidable (_ = true))

theorem transactionCreateFromTuple_eq {m : TransactionMessage} (h : Represents tuple m.values)
    (S : Sodium) : transactionCreateFromTuple S tuple =
      .ok (if m.Verifies S then some (m.transaction S) else none) := by
  have hvalid := (transactionIsValid_iff h).mpr ⟨m, rfl⟩
  have hunsigned : m.values[0]? = some (.tuple m.fields) := rfl
  obtain ⟨sub, hget, hsub⟩ := h.tupleGetTuple_eq hunsigned
  obtain ⟨after, hsignature⟩ := @tupleGetBinary_ofBytes _ _ 1 h _ signBytes_lt m.signature rfl
  obtain ⟨after₀, hsender⟩ :=
    @tupleGetBinary_ofBytes _ _ 0 hsub _ publicKeyBytes_lt m.sender rfl
  obtain ⟨after₁, hrecipient⟩ :=
    @tupleGetBinary_ofBytes _ _ 1 hsub _ publicKeyBytes_lt m.recipient rfl
  have hvalue := @tupleGetU64_eq _ _ 2 hsub m.value rfl
  have hnonce := @tupleGetU32_eq _ _ 3 hsub m.nonce rfl
  simp only [transactionCreateFromTuple, hvalid, hget, hsignature, hsender, hrecipient, hvalue,
    hnonce, ok_bind, memcpy_toList, pure_eq_ok]
  change (if (!S.signVerifyDetached m.signature (m.transaction S).hash.toList m.sender) = true
    then Except.ok none else Except.ok (some (m.transaction S))) = _
  rcases Decidable.em (m.Verifies S) with hverifies | hverifies
  · rw [if_pos hverifies]
    rw [TransactionMessage.Verifies] at hverifies
    rw [hverifies]
    rfl
  · rw [if_neg hverifies]
    rw [TransactionMessage.Verifies, Bool.not_eq_true] at hverifies
    rw [hverifies]
    rfl

theorem transactionCreateFromTuple_some {S : Sodium} {txn : Transaction}
    (h : Represents tuple vs) (hrun : transactionCreateFromTuple S tuple = .ok (some txn)) :
    ∃ m : TransactionMessage, vs = m.values ∧ m.Verifies S ∧ txn = m.transaction S := by
  have hvalid : transactionIsValid tuple = .ok true := by
    rw [transactionCreateFromTuple, bind_eq_ok] at hrun
    obtain ⟨valid, hvalid, hrest⟩ := hrun
    cases valid with
    | true => exact hvalid
    | false => cases hrest
  obtain ⟨m, rfl⟩ := (transactionIsValid_iff h).mp hvalid
  rw [transactionCreateFromTuple_eq h, Except.ok.injEq] at hrun
  split_ifs at hrun with hverifies
  exact ⟨m, rfl, hverifies, (Option.some.inj hrun).symm⟩

end Validator

end Whosecoin.TransactionSchema

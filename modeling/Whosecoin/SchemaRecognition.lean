import Whosecoin.MalformedTuples

namespace Whosecoin.SchemaRecognition

open Library.Outcomes
open Library.ByteStrings
open Cryptography
open TupleParser
open TupleFormat
open Transactions
open TransactionSchema
open MalformedTuples

variable {tuple : Tuple} {vs : List Value}

/-- The elements of a signed transaction. -/
def SignedTransaction (vs : List Value) : Prop :=
  ∃ (sender recipient : PublicKey) (value : UInt64) (nonce : UInt32) (signature : Signature),
    vs = [.tuple [ofBytes publicKeyBytes_lt sender, ofBytes publicKeyBytes_lt recipient,
      ofU64 value, ofU32 nonce], ofBytes signBytes_lt signature]

/-- The validator returns, accepts the signed transactions and no other tuple, and
what the program writes for an accepted tuple is the tuple. -/
structure Recognised (S : Sodium) (tuple : Tuple) (vs : List Value) : Prop where
  decides : ∃ result, transactionIsValid tuple = .ok result ∧
    (result = true ↔ SignedTransaction vs)
  rewrites : ∀ txn, transactionCreateFromTuple S tuple = .ok (some txn) →
    transactionWrite [] txn = tuple.bytes

/-- The inner tuple agrees with a transaction's as far as the shorter of them goes,
but the number of its elements is not four. -/
def Miscounted (vs : List Value) : Prop :=
  ∃ (m : TransactionMessage) (n : Nat), (m.fields.take n).length ≠ 4 ∧
    vs = [.tuple (m.fields.take n), ofBytes signBytes_lt m.signature]

theorem fields_length (m : TransactionMessage) : m.fields.length = 4 + m.extra.length := by
  simp only [TransactionMessage.fields, List.length_cons]
  omega

theorem signedTransaction_iff :
    SignedTransaction vs ↔ ∃ m : TransactionMessage, m.extra = [] ∧ vs = m.values := by
  constructor
  · rintro ⟨sender, recipient, value, nonce, signature, rfl⟩
    exact ⟨⟨sender, recipient, value, nonce, [], signature⟩, rfl, rfl⟩
  · rintro ⟨⟨sender, recipient, value, nonce, extra, signature⟩, hextra, rfl⟩
    cases hextra
    exact ⟨sender, recipient, value, nonce, signature, rfl⟩

theorem take_fields (m : TransactionMessage) (n : Nat) :
    m.fields.take (n + 4) = { m with extra := m.extra.take n }.fields := by
  simp only [TransactionMessage.fields, List.take_succ_cons]

theorem miscounted_iff :
    Miscounted vs ↔ CutShort vs ∨ ∃ m : TransactionMessage, m.extra ≠ [] ∧
      vs = m.values := by
  constructor
  · rintro ⟨m, n, hlength, rfl⟩
    rcases Nat.lt_or_ge n 4 with hn | hn
    · exact Or.inl ⟨m, n, hn, rfl⟩
    · obtain ⟨k, rfl⟩ := Nat.exists_eq_add_of_le' hn
      rw [take_fields, fields_length] at hlength
      refine Or.inr ⟨{ m with extra := m.extra.take k }, ?_, by rw [take_fields]; rfl⟩
      intro hextra
      exact hlength (by rw [hextra]; rfl)
  · rintro (⟨m, n, hn, rfl⟩ | ⟨m, hextra, rfl⟩)
    · refine ⟨m, n, ?_, rfl⟩
      rw [List.length_take]
      omega
    · refine ⟨m, m.fields.length, ?_, by rw [List.take_length]; rfl⟩
      rw [List.take_length, fields_length]
      have hpos := List.length_pos_iff.mpr hextra
      omega

theorem transactionWrite_of_accepted {S : Sodium} {txn : Transaction} (h : Represents tuple vs)
    (hcount : ¬ Miscounted vs) (hrun : transactionCreateFromTuple S tuple = .ok (some txn)) :
    transactionWrite [] txn = tuple.bytes := by
  obtain ⟨m, rfl, -, rfl⟩ := transactionCreateFromTuple_some h hrun
  have hextra : m.extra = [] := by
    by_contra hextra
    exact hcount (miscounted_iff.mpr (Or.inr ⟨m, hextra, rfl⟩))
  have hself : ({ m with extra := [] } : TransactionMessage) = m := by
    rw [← hextra]
  rw [transactionWrite_eq, ofTransaction_transaction, hself, h.bytes_eq, List.nil_append]

/-- The validator counts the elements of the outer tuple only. -/
theorem recognised_iff (h : Represents tuple vs) (S : Sodium) :
    Recognised S tuple vs ↔ ¬ Miscounted vs := by
  constructor
  · rintro ⟨⟨result, hrun, hresult⟩, -⟩ hcount
    rcases miscounted_iff.mp hcount with hcut | ⟨m, hextra, rfl⟩
    · exact (transactionIsValid_returns_iff h).mp ⟨result, hrun⟩ hcut
    · have hvalid := (transactionIsValid_iff h).mpr ⟨m, rfl⟩
      rw [hrun, Except.ok.injEq] at hvalid
      obtain ⟨m', hextra', hvalues⟩ := signedTransaction_iff.mp (hresult.mp hvalid)
      rw [TransactionMessage.values_injective hvalues] at hextra
      exact hextra hextra'
  · intro hcount
    have hcut : ¬ CutShort vs := fun hcut => hcount (miscounted_iff.mpr (Or.inl hcut))
    obtain ⟨result, hrun⟩ := (transactionIsValid_returns_iff h).mpr hcut
    refine ⟨⟨result, hrun, ?_⟩, fun txn => transactionWrite_of_accepted h hcount⟩
    have hvalid := transactionIsValid_iff h
    rw [hrun, Except.ok.injEq] at hvalid
    rw [hvalid, signedTransaction_iff]
    constructor
    · rintro ⟨m, rfl⟩
      refine ⟨m, ?_, rfl⟩
      by_contra hextra
      exact hcount (miscounted_iff.mpr (Or.inr ⟨m, hextra, rfl⟩))
    · rintro ⟨m, -, rfl⟩
      exact ⟨m, rfl⟩

/-- A payment of nothing, with some elements behind its four fields. -/
def emptyPayment (extra : List Value) : TransactionMessage where
  sender := Bytes.zero _
  recipient := Bytes.zero _
  value := 0
  nonce := 0
  extra := extra
  signature := Bytes.zero _

/-- The payment without its nonce. -/
def withoutNonce : List Value :=
  [.tuple ((emptyPayment []).fields.take 3), ofBytes signBytes_lt (emptyPayment []).signature]

theorem exists_parsed_tuple (vs : List Value) :
    ∃ tuple, tupleParse ⟨(Value.tuple vs).encode.length, (Value.tuple vs).encode⟩ =
      .ok (some tuple) ∧ Represents tuple vs := by
  have hparsed := @tupleParse_of_encode
    ⟨(Value.tuple vs).encode.length, (Value.tuple vs).encode ++ []⟩ vs [] rfl le_rfl
  rwa [List.append_nil] at hparsed

theorem recognised_iff_emptyPayment : ∃ tuple,
    tupleParse ⟨(Value.tuple (emptyPayment []).values).encode.length,
      (Value.tuple (emptyPayment []).values).encode⟩ = .ok (some tuple) ∧
    (Recognised transparent tuple (emptyPayment []).values ↔
      ¬ Miscounted (emptyPayment []).values) := by
  obtain ⟨tuple, hparse, hrep⟩ := exists_parsed_tuple (emptyPayment []).values
  exact ⟨tuple, hparse, recognised_iff hrep transparent⟩

/-- A payment without a nonce is read past its end, and one with a fifth element is
accepted. -/
theorem miscounted_not_recognised : ∃ short long,
    tupleParse ⟨(Value.tuple withoutNonce).encode.length, (Value.tuple withoutNonce).encode⟩ =
      .ok (some short) ∧
    ¬ Returns (transactionIsValid short) ∧ ¬ Recognised transparent short withoutNonce ∧
    tupleParse ⟨(Value.tuple (emptyPayment [ofU32 0]).values).encode.length,
      (Value.tuple (emptyPayment [ofU32 0]).values).encode⟩ = .ok (some long) ∧
    transactionIsValid long = .ok true ∧
    ¬ Recognised transparent long (emptyPayment [ofU32 0]).values := by
  obtain ⟨short, hshort, hrep⟩ := exists_parsed_tuple withoutNonce
  obtain ⟨long, hlong, hrep'⟩ := exists_parsed_tuple (emptyPayment [ofU32 0]).values
  have hfails : ¬ Returns (transactionIsValid short) := by
    rw [transactionIsValid_returns_iff hrep, not_not]
    exact ⟨emptyPayment [], 3, by decide, rfl⟩
  have hvalid := (transactionIsValid_iff hrep').mpr ⟨emptyPayment [ofU32 0], rfl⟩
  refine ⟨short, long, hshort, hfails, ?_, hlong, hvalid, ?_⟩
  · rintro ⟨⟨result, hrun, -⟩, -⟩
    exact hfails ⟨result, hrun⟩
  · rintro ⟨⟨result, hrun, hresult⟩, -⟩
    rw [hvalid, Except.ok.injEq] at hrun
    obtain ⟨m, hextra, hvalues⟩ := signedTransaction_iff.mp (hresult.mp hrun.symm)
    rw [← TransactionMessage.values_injective hvalues] at hextra
    cases hextra

end Whosecoin.SchemaRecognition

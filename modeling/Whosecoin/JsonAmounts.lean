import Whosecoin.JsonOutput

namespace Whosecoin.JsonAmounts

open Library.Outcomes
open Library.ByteStrings
open Library.JsonTexts
open Library.Doubles
open Cryptography
open Transactions
open Accounts
open Blocks
open DynamicBuffers
open JsonWriters
open JsonOutput

/-- Wherever there is room for 1024 bytes, the call puts a JSON text and a comma behind
the bytes of the buffer, and the member of that name is the integer. -/
def Reports (write : DynamicBuffer → Outcome DynamicBuffer) (name : String) (n : Nat) : Prop :=
  ∀ buf, Ready buf → buf.length + 1024 < 2 ^ 31 →
    ∃ next text v, write buf = .ok next ∧ next.live = buf.live ++ (text ++ [44]) ∧
      parse text = some v ∧ v.member (ascii name) = some (.number n)

section Conversions

theorem converted_lt (undefined : ℚ → UInt64) (n : ℤ) :
    ∃ k : Nat, k < 10 ^ 20 ∧ converted undefined n = k := by
  refine ⟨(toUInt64 undefined n).toNat, ?_, rfl⟩
  exact (UInt64.toNat_lt _).trans (by decide)

theorem length_converted_le (undefined : ℚ → UInt64) (n : ℤ) :
    (integer (converted undefined n)).length ≤ 20 := by
  obtain ⟨k, hk, hconverted⟩ := converted_lt undefined n
  rw [hconverted, integer_natCast]
  exact length_decimal_le (by decide) hk

/-- An integer survives the two conversions, whatever the second one does out of range,
exactly when it has 53 significant bits. -/
theorem converted_roundTo_iff {n : Nat} (hn : n < 2 ^ 64) :
    (∀ undefined : ℚ → UInt64, converted undefined (roundTo 53 n) = n) ↔ HasBits 53 n := by
  rw [← roundTo_eq_iff (by decide)]
  constructor
  · intro hsame
    by_cases hfit : roundTo 53 n < 2 ^ 64
    · have hkept := hsame fun _ => 0
      rw [converted_of_nonneg _ (Int.natCast_nonneg _) (by exact_mod_cast hfit)] at hkept
      exact_mod_cast hkept
    · -- out of range the second conversion may give zero
      have hzero := hsame fun _ => 0
      rw [converted, toUInt64, if_neg] at hzero
      · have hn : n = 0 := by exact_mod_cast hzero.symm
        rw [hn]
        decide +kernel
      · rintro ⟨-, hlt⟩
        exact hfit (by exact_mod_cast hlt)
  · intro hsame undefined
    rw [hsame]
    exact converted_of_nonneg undefined (Int.natCast_nonneg _) (by exact_mod_cast hn)

theorem hasBits_of_lt {n : Nat} (hn : n < 2 ^ 53) : HasBits 53 n :=
  ⟨n, 0, hn, by omega⟩

end Conversions

section Reports

variable {undefined : ℚ → UInt64} {v : Json}

theorem reports_iff (hroom : documentSize undefined v < 1024) (name : String) (n : Nat) :
    Reports (writeJson undefined v) name n ↔
      (v.map (converted undefined)).member (ascii name) = some (.number n) := by
  have hemits := emits_json undefined v
  rw [documentSize] at hroom
  constructor
  · intro hreports
    obtain ⟨next, text, w, hwrite, hlive, hparse, hmember⟩ :=
      hreports _ fresh_create.ready (by decide)
    have htext := (hemits.spec _ next fresh_create.ready hwrite).1
    rw [hlive, List.append_cancel_left_eq, List.append_cancel_right_eq] at htext
    rw [htext, parse_text, Option.some.injEq] at hparse
    rw [hparse]
    exact hmember
  · intro hmember buf hbuf hfit
    have hlength : ((v.map (converted undefined)).text ++ [44]).length ≤ 1024 := by
      rw [List.length_append, List.length_singleton]
      exact hroom
    obtain ⟨next, hnext⟩ := (hemits.returns_iff buf hbuf).mpr (by omega)
    have hlive := (hemits.spec buf next hbuf hnext).1
    exact ⟨next, _, _, hnext, hlive, parse_text _, hmember⟩

theorem length_hex {n : Nat} (bytes : Bytes n) : (hex bytes.toList).chars.length = 2 * n := by
  rw [hex_chars, length_binaryToHex, bytes.length_eq]

end Reports

section Documents

variable (undefined : ℚ → UInt64)

theorem transaction_size (txn : Transaction) :
    documentSize undefined (transactionJson txn) < 1024 := by
  have hvalue := length_converted_le undefined (roundTo 53 txn.value.toNat)
  have hnonce := length_converted_le undefined (roundTo 53 txn.nonce.toNat)
  have hnames : (ascii "hash").length = 4 ∧ (ascii "sender").length = 6 ∧
      (ascii "recipient").length = 9 ∧ (ascii "value").length = 5 ∧
      (ascii "nonce").length = 5 ∧ (ascii "signature").length = 9 := by
    decide +kernel
  simp only [documentSize, transactionJson, rounded, Json.map, mapMembers, Json.text, textMembers,
    List.length_cons, List.length_append, List.length_nil, length_quoted, key, length_hex,
    hnames, generichashBytes, publicKeyBytes, signBytes]
  omega

theorem header_size (data : Block) (prev : BlockPtr) :
    documentSize undefined (headerJson data prev) < 1024 := by
  have htimestamp := length_converted_le undefined (roundTo 53 data.timestamp.toNat)
  have hcount := length_converted_le undefined (roundTo 53 data.transactions.length)
  have hnames : (ascii "timestamp").length = 9 ∧ (ascii "prev_block").length = 10 ∧
      (ascii "merkle_root").length = 11 ∧ (ascii "public_key").length = 10 ∧
      (ascii "sortition_proof").length = 15 ∧ (ascii "sortition_priority").length = 18 ∧
      (ascii "sortition_seed").length = 14 ∧ (ascii "sortition_hash").length = 14 ∧
      (ascii "signature").length = 9 ∧ (ascii "n_transactions").length = 14 := by
    decide +kernel
  simp only [documentSize, headerJson, rounded, Json.map, mapMembers, Json.text, textMembers,
    List.length_cons, List.length_append, List.length_nil, length_quoted, key, length_hex,
    hnames, generichashBytes, publicKeyBytes, vrfProofBytes, vrfOutputBytes, signBytes]
  omega

variable {undefined}

theorem reports_value_iff (txn : Transaction) :
    Reports (transactionWriteJson undefined txn) "value" txn.value.toNat ↔
      converted undefined (roundTo 53 txn.value.toNat) = txn.value.toNat := by
  have hother : ascii "hash" ≠ ascii "value" ∧ ascii "sender" ≠ ascii "value" ∧
      ascii "recipient" ≠ ascii "value" := by
    decide +kernel
  rw [transactionWriteJson_eq, reports_iff (transaction_size undefined txn)]
  simp [transactionJson, rounded, Json.map, mapMembers, Json.member, key, hother]

theorem reports_nonce_iff (txn : Transaction) :
    Reports (transactionWriteJson undefined txn) "nonce" txn.nonce.toNat ↔
      converted undefined (roundTo 53 txn.nonce.toNat) = txn.nonce.toNat := by
  have hother : ascii "hash" ≠ ascii "nonce" ∧ ascii "sender" ≠ ascii "nonce" ∧
      ascii "recipient" ≠ ascii "nonce" ∧ ascii "value" ≠ ascii "nonce" := by
    decide +kernel
  rw [transactionWriteJson_eq, reports_iff (transaction_size undefined txn)]
  simp [transactionJson, rounded, Json.map, mapMembers, Json.member, key, hother]

theorem reports_timestamp_iff (data : Block) (prev : BlockPtr) :
    Reports (blockWriteJsonHeader undefined (data :: prev)) "timestamp" data.timestamp.toNat ↔
      converted undefined (roundTo 53 data.timestamp.toNat) = data.timestamp.toNat := by
  rw [blockWriteJsonHeader_eq, reports_iff (header_size undefined data prev)]
  simp [headerJson, rounded, Json.map, mapMembers, Json.member, key]

end Documents

section Amounts

/-- The JSON text of a transaction shows its value and its nonce. -/
def ReportsTransaction (txn : Transaction) : Prop :=
  ∀ undefined : ℚ → UInt64,
    Reports (transactionWriteJson undefined txn) "value" txn.value.toNat ∧
      Reports (transactionWriteJson undefined txn) "nonce" txn.nonce.toNat

/-- The JSON text of a header shows the timestamp. -/
def ReportsHeader (data : Block) (prev : BlockPtr) : Prop :=
  ∀ undefined : ℚ → UInt64,
    Reports (blockWriteJsonHeader undefined (data :: prev)) "timestamp" data.timestamp.toNat

theorem reportsTransaction_iff (txn : Transaction) :
    ReportsTransaction txn ↔ HasBits 53 txn.value.toNat := by
  have hnonce : txn.nonce.toNat < 2 ^ 53 := txn.nonce.toNat_lt.trans (by decide)
  have hshown := (converted_roundTo_iff (hnonce.trans (by decide))).mpr (hasBits_of_lt hnonce)
  rw [← converted_roundTo_iff txn.value.toNat_lt]
  apply forall_congr'
  intro undefined
  rw [reports_value_iff, reports_nonce_iff]
  exact and_iff_left (hshown undefined)

theorem reportsHeader_iff (data : Block) (prev : BlockPtr) :
    ReportsHeader data prev ↔ HasBits 53 data.timestamp.toNat := by
  rw [← converted_roundTo_iff data.timestamp.toNat_lt]
  apply forall_congr'
  intro undefined
  exact reports_timestamp_iff data prev

/-- The amounts are exact when the value and the timestamp have 53 significant bits. -/
theorem exact_amounts (txn : Transaction) (data : Block) (prev : BlockPtr) :
    (ReportsTransaction txn ↔ HasBits 53 txn.value.toNat) ∧
      (ReportsHeader data prev ↔ HasBits 53 data.timestamp.toNat) :=
  ⟨reportsTransaction_iff txn, reportsHeader_iff data prev⟩

/-- A payment of the least amount that a double does not hold. -/
def oddPayment : Transaction where
  sender := Bytes.zero publicKeyBytes
  recipient := Bytes.zero publicKeyBytes
  value := 9007199254740993
  nonce := 1
  signature := Bytes.zero signBytes
  hash := Bytes.zero generichashBytes

/-- The value 2^53 + 1 comes out as 2^53. -/
theorem odd_payment_rounded : ¬ ReportsTransaction oddPayment := by
  rw [reportsTransaction_iff, ← roundTo_eq_iff (by decide)]
  decide +kernel

end Amounts

end Whosecoin.JsonAmounts

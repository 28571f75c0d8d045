import Whosecoin.BlockSchema

namespace Whosecoin.MalformedTuples

open Library.Outcomes
open Library.ByteStrings
open Cryptography
open TupleParser
open TupleFormat
open Transactions
open TransactionSchema
open Blocks
open BlockSchema

section Checks

variable {tuple : Tuple} {vs : List Value} {i : Nat}

theorem returns_guard (c : Prop) [Decidable c] (rest : Outcome Bool) :
    Returns (if c then pure false else rest) ↔ c ∨ Returns rest := by
  split_ifs with h
  · simp [h]
  · simp [h]

theorem returns_check {α : Type} (test : Outcome Bool) (refusal : α) (rest : Outcome α) :
    Returns (test >>= fun passed => if (!passed) = true then pure refusal else rest) ↔
      Returns test ∧ (test = .ok true → Returns rest) := by
  rcases test with e | passed
  · simp
  · cases passed with
    | true => simp
    | false => simp

theorem returns_typeCheck (h : Represents tuple vs) (tag : Tag) (rest : Outcome Bool) :
    Returns (tupleGetType tuple i >>= fun byte =>
        if byte ≠ tag.byte then pure false else rest) ↔
      (∃ v, vs[i]? = some v) ∧ ((∃ v, vs[i]? = some v ∧ v.tag = tag) → Returns rest) := by
  cases hi : vs[i]? with
  | none => simp [h.tupleGetType_of_none hi]
  | some v =>
      rw [h.tupleGetType_eq hi, ok_bind, returns_guard]
      by_cases htag : v.tag = tag
      · simp [htag]
      · simp [htag, Tag.byte_injective.eq_iff]

theorem exists_binary_of_get {buf : Buffer} (h : Represents tuple vs)
    (hget : tupleGetBinary tuple i = .ok buf) :
    ∃ bytes fits, vs[i]? = some (.binary bytes fits) ∧ buf.length = bytes.length := by
  rcases eq_or_ne (vs[i]?.map Value.tag) (some .binary) with htag | htag
  · obtain ⟨v, hi, htag⟩ := Option.map_eq_some_iff.mp htag
    obtain ⟨bytes, fits, rfl⟩ := exists_binary_of_tag htag
    obtain ⟨after, hbuf⟩ := h.tupleGetBinary_eq hi
    rw [hget, Except.ok.injEq] at hbuf
    exact ⟨bytes, fits, hi, congrArg Buffer.length hbuf⟩
  · rw [h.tupleGetBinary_error htag] at hget
    cases hget

theorem returns_lengthCheck (h : Represents tuple vs) {n : Nat} (hn : n < 2 ^ 32)
    (rest : Outcome Bool) :
    Returns (tupleGetBinary tuple i >>= fun buf =>
        if buf.length ≠ n then pure false else rest) ↔
      (∃ bytes fits, vs[i]? = some (.binary bytes fits)) ∧
        ((∃ b : Bytes n, vs[i]? = some (ofBytes hn b)) → Returns rest) := by
  rw [returns_bind]
  simp only [returns_guard]
  constructor
  · rintro ⟨buf, hget, hrest⟩
    obtain ⟨bytes, fits, hi, hlength⟩ := exists_binary_of_get h hget
    refine ⟨⟨bytes, fits, hi⟩, ?_⟩
    rintro ⟨b, hb⟩
    rw [hi, Option.some.injEq, ofBytes, Value.binary.injEq] at hb
    rw [hlength, hb, b.length_eq] at hrest
    exact hrest.resolve_left (not_not.mpr rfl)
  · rintro ⟨⟨bytes, fits, hi⟩, hrest⟩
    obtain ⟨after, hget⟩ := h.tupleGetBinary_eq hi
    refine ⟨_, hget, ?_⟩
    rcases eq_or_ne bytes.length n with hlength | hlength
    · exact Or.inr (hrest ⟨⟨bytes, hlength⟩, hi⟩)
    · exact Or.inl hlength

theorem returns_bytesCheck (h : Represents tuple vs) {n : Nat} (hn : n < 2 ^ 32)
    (rest : Outcome Bool) :
    Returns (tupleGetType tuple i >>= fun byte =>
        if byte ≠ Tag.binary.byte then pure false
        else tupleGetBinary tuple i >>= fun buf =>
          if buf.length ≠ n then pure false else rest) ↔
      (∃ v, vs[i]? = some v) ∧
      ((∃ b : Bytes n, vs[i]? = some (ofBytes hn b)) → Returns rest) := by
  rw [returns_typeCheck h, returns_lengthCheck h hn]
  constructor
  · rintro ⟨hget, hrun⟩
    refine ⟨hget, ?_⟩
    rintro ⟨b, hb⟩
    exact (hrun ⟨_, hb, rfl⟩).2 ⟨b, hb⟩
  · rintro ⟨hget, hrest⟩
    refine ⟨hget, ?_⟩
    rintro ⟨v, hi, htag⟩
    obtain ⟨bytes, fits, rfl⟩ := exists_binary_of_tag htag
    exact ⟨⟨bytes, fits, hi⟩, hrest⟩

theorem returns_subTuple (h : Represents tuple vs) {β : Type} (rest : Tuple → Outcome β) :
    Returns (tupleGetTuple tuple i >>= rest) ↔ ∃ sub ws, tupleGetTuple tuple i = .ok sub ∧
      vs[i]? = some (.tuple ws) ∧ Represents sub ws ∧ Returns (rest sub) := by
  simp only [Returns, subTuple_iff h]
  constructor
  · rintro ⟨b, sub, ws, hsub, hi, hrep, hrest⟩
    exact ⟨sub, ws, hsub, hi, hrep, b, hrest⟩
  · rintro ⟨sub, ws, hsub, hi, hrep, b, hrest⟩
    exact ⟨b, sub, ws, hsub, hi, hrep, hrest⟩

end Checks

section Transactions

variable {tuple : Tuple} {vs : List Value}

/-- A signed transaction whose inner tuple ends before its four fields do. The
validator reads on without a look at the size. -/
def CutShort (vs : List Value) : Prop :=
  ∃ (m : TransactionMessage) (n : Nat), n < 4 ∧
    vs = [.tuple (m.fields.take n), ofBytes signBytes_lt m.signature]

theorem exists_tuple_of_tag {v : Value} (htag : v.tag = .tupleStart) :
    ∃ ws, v = .tuple ws := by
  cases v with
  | tuple ws => exact ⟨ws, rfl⟩
  | _ => cases htag

theorem cutShort_of_take {m : TransactionMessage} {n : Nat} (hn : n < 4) {ws : List Value}
    {v : Value} (hws : ws = m.fields.take n) (hv : v = ofBytes signBytes_lt m.signature) :
    CutShort [.tuple ws, v] :=
  ⟨m, n, hn, by rw [hws, hv]⟩

/-- The validator fails exactly when it reads past the end of the inner tuple. -/
theorem transactionIsValid_returns_iff (h : Represents tuple vs) :
    Returns (transactionIsValid tuple) ↔ ¬ CutShort vs := by
  rw [transactionIsValid, returns_guard, h.tupleSize_eq, returns_typeCheck h,
    returns_bytesCheck h signBytes_lt, returns_subTuple h]
  constructor
  · rintro hrun ⟨m, n, hn, rfl⟩
    have hrun := (hrun.resolve_left (not_not.mpr rfl)).2 ⟨_, rfl, rfl⟩
    obtain ⟨sub, ws, -, hws, hsub, hrun⟩ := hrun.2 ⟨_, rfl⟩
    obtain rfl := Value.tuple.inj (Option.some.inj hws)
    rw [returns_bytesCheck hsub publicKeyBytes_lt, returns_bytesCheck hsub publicKeyBytes_lt,
      returns_typeCheck hsub, returns_typeCheck hsub] at hrun
    interval_cases n
    · obtain ⟨⟨v, hv⟩, -⟩ := hrun
      cases hv
    · obtain ⟨⟨v, hv⟩, -⟩ := hrun.2 ⟨_, rfl⟩
      cases hv
    · obtain ⟨⟨v, hv⟩, -⟩ := (hrun.2 ⟨_, rfl⟩).2 ⟨_, rfl⟩
      cases hv
    · obtain ⟨⟨v, hv⟩, -⟩ := ((hrun.2 ⟨_, rfl⟩).2 ⟨_, rfl⟩).2 ⟨_, rfl, rfl⟩
      cases hv
  · intro hcut
    rcases eq_or_ne vs.length 2 with hsize | hsize
    · obtain ⟨a, b, rfl⟩ := List.length_eq_two.mp hsize
      refine Or.inr ⟨⟨a, rfl⟩, ?_⟩
      rintro ⟨_, ⟨⟩, htag⟩
      obtain ⟨ws, rfl⟩ := exists_tuple_of_tag htag
      refine ⟨⟨b, rfl⟩, ?_⟩
      rintro ⟨signature, hsignature⟩
      replace hsignature := Option.some.inj hsignature
      obtain ⟨sub, hget, hsub⟩ := @Represents.tupleGetTuple_eq _ _ h 0 ws rfl
      refine ⟨sub, ws, hget, rfl, hsub, ?_⟩
      rw [returns_bytesCheck hsub publicKeyBytes_lt, returns_bytesCheck hsub publicKeyBytes_lt,
        returns_typeCheck hsub, returns_typeCheck hsub]
      -- the fields are checked from left to right, each before the next one is read
      rcases ws with _ | ⟨w₀, ws⟩
      · exact absurd (@cutShort_of_take ⟨Bytes.zero _, Bytes.zero _, 0, 0, [], signature⟩ 0
          (by decide) _ _ rfl hsignature) hcut
      refine ⟨⟨w₀, rfl⟩, ?_⟩
      rintro ⟨sender, hsender⟩
      replace hsender := Option.some.inj hsender
      rcases ws with _ | ⟨w₁, ws⟩
      · exact absurd (@cutShort_of_take ⟨sender, Bytes.zero _, 0, 0, [], signature⟩ 1
          (by decide) _ _ (by rw [hsender]; rfl) hsignature) hcut
      refine ⟨⟨w₁, rfl⟩, ?_⟩
      rintro ⟨recipient, hrecipient⟩
      replace hrecipient := Option.some.inj hrecipient
      rcases ws with _ | ⟨w₂, ws⟩
      · exact absurd (@cutShort_of_take ⟨sender, recipient, 0, 0, [], signature⟩ 2
          (by decide) _ _ (by rw [hsender, hrecipient]; rfl) hsignature) hcut
      refine ⟨⟨w₂, rfl⟩, ?_⟩
      rintro ⟨_, ⟨⟩, htag₂⟩
      obtain ⟨payload, rfl⟩ := exists_scalar_of_tag htag₂
      obtain ⟨value, hvalue⟩ := exists_ofU64 payload
      rcases ws with _ | ⟨w₃, ws⟩
      · exact absurd (@cutShort_of_take ⟨sender, recipient, value, 0, [], signature⟩ 3
          (by decide) _ _ (by rw [hsender, hrecipient, hvalue]; rfl) hsignature) hcut
      exact ⟨⟨w₃, rfl⟩, fun _ => returns_ok true⟩
    · exact Or.inl hsize

/-- A tuple is cut short, or a message, or refused. -/
theorem transactionCreateFromTuple_returns_iff (h : Represents tuple vs) (S : Sodium) :
    Returns (transactionCreateFromTuple S tuple) ↔ ¬ CutShort vs := by
  rw [← transactionIsValid_returns_iff h, transactionCreateFromTuple, returns_check]
  constructor
  · exact And.left
  · intro hvalid
    refine ⟨hvalid, ?_⟩
    intro htrue
    obtain ⟨m, rfl⟩ := (transactionIsValid_iff h).mp htrue
    have hrun := transactionCreateFromTuple_eq h S
    rw [transactionCreateFromTuple, htrue] at hrun
    exact ⟨_, hrun⟩

end Transactions

section Blocks

variable {tuple : Tuple} {vs : List Value}

theorem isHeaderValid_returns (h : Represents tuple vs) : Returns (isHeaderValid tuple) := by
  rw [isHeaderValid, returns_guard, h.tupleSize_eq, returns_typeCheck h,
    returns_bytesCheck h generichashBytes_lt, returns_bytesCheck h generichashBytes_lt,
    returns_bytesCheck h publicKeyBytes_lt, returns_bytesCheck h vrfProofBytes_lt,
    returns_typeCheck h, returns_typeCheck h]
  rcases eq_or_ne vs.length 7 with hsize | hsize
  · have hget : ∀ i < 7, ∃ v, vs[i]? = some v := by
      intro i hi
      exact ⟨vs[i], List.getElem?_eq_getElem (by omega)⟩
    right
    refine ⟨hget 0 (by decide), fun _ => ⟨hget 1 (by decide), fun _ => ⟨hget 2 (by decide),
      fun _ => ⟨hget 3 (by decide),
        fun _ => ⟨hget 4 (by decide), fun _ => ⟨hget 5 (by decide),
      fun _ => ⟨hget 6 (by decide), fun _ => returns_ok true⟩⟩⟩⟩⟩⟩⟩
  · exact Or.inl hsize

/-- A block with a transaction that is cut short behind valid ones. -/
def BlockCutShort (vs : List Value) : Prop :=
  ∃ (header : HeaderMessage) (signature : List UInt8) (fits : signature.length < 2 ^ 32)
    (ts : List Value), vs = [.tuple header.fields, .binary signature fits, .tuple ts] ∧
    ts.length = header.count.toNat ∧
    ∃ (k : Nat) (ws : List Value), ts[k]? = some (.tuple ws) ∧ CutShort ws ∧
      ∀ j < k, ∃ t : TransactionMessage, ts[j]? = some (.tuple t.values)

theorem isTransactionTupleValid_returns_iff (h : Represents tuple vs) {k : Nat}
    (hk : k < vs.length) :
    Returns (isTransactionTupleValid tuple k) ↔
      ∀ ws, vs[k]? = some (.tuple ws) → ¬ CutShort ws := by
  rw [isTransactionTupleValid, returns_typeCheck h]
  constructor
  · intro hrun ws hi
    have hrun := hrun.2 ⟨_, hi, rfl⟩
    rw [returns_subTuple h] at hrun
    obtain ⟨sub, ws', -, hi', hsub, hrun⟩ := hrun
    rw [hi, Option.some.injEq, Value.tuple.injEq] at hi'
    subst hi'
    exact (transactionIsValid_returns_iff hsub).mp hrun
  · intro hcut
    refine ⟨⟨_, List.getElem?_eq_getElem hk⟩, ?_⟩
    rintro ⟨v, hi, htag⟩
    obtain ⟨ws, rfl⟩ := exists_tuple_of_tag htag
    obtain ⟨sub, hget, hsub⟩ := h.tupleGetTuple_eq hi
    rw [hget, ok_bind, transactionIsValid_returns_iff hsub]
    exact hcut ws hi

theorem allTransactions_returns_iff (h : Represents tuple vs) :
    Returns ((List.range (tupleSize tuple)).allM (isTransactionTupleValid tuple)) ↔
      ¬ ∃ (k : Nat) (ws : List Value), vs[k]? = some (.tuple ws) ∧ CutShort ws ∧
        ∀ j < k, ∃ t : TransactionMessage, vs[j]? = some (.tuple t.values) := by
  have hbefore : ∀ k < vs.length, (∀ j ∈ (List.range vs.length).take k,
      isTransactionTupleValid tuple j = .ok true) ↔
        ∀ j < k, ∃ t : TransactionMessage, vs[j]? = some (.tuple t.values) := by
    intro k hk
    simp only [List.take_range, Nat.min_eq_left hk.le, List.mem_range,
      isTransactionTupleValid_iff h]
  rw [returns_allM, h.tupleSize_eq]
  constructor
  · rintro hall ⟨k, ws, hi, hcut, hvalid⟩
    have hk := (List.getElem?_eq_some_iff.mp hi).1
    have hrun := hall k k (List.getElem?_range hk) ((hbefore k hk).mpr hvalid)
    exact (isTransactionTupleValid_returns_iff h hk).mp hrun ws hi hcut
  · intro hnone k i hi hvalid
    obtain ⟨hk, hki⟩ := List.getElem?_eq_some_iff.mp hi
    rw [List.length_range] at hk
    rw [List.getElem_range] at hki
    subst hki
    rw [isTransactionTupleValid_returns_iff h hk]
    intro ws hi hcut
    exact hnone ⟨k, ws, hi, hcut, (hbefore k hk).mp hvalid⟩

/-- The validator fails exactly on the blocks that are cut short. -/
theorem blockIsValid_returns_iff (h : Represents tuple vs) (S : Sodium) :
    Returns (blockIsValid S tuple) ↔ ¬ BlockCutShort vs := by
  rw [blockIsValid, returns_guard, h.tupleSize_eq, returns_typeCheck h, returns_typeCheck h,
    returns_typeCheck h, returns_subTuple h]
  constructor
  · rintro hrun ⟨header, signature, fits, ts, rfl, hcount, hcut⟩
    have hrun := (hrun.resolve_left (not_not.mpr rfl)).2 ⟨_, rfl, rfl⟩
    have hrun := (hrun.2 ⟨_, rfl, rfl⟩).2 ⟨_, rfl, rfl⟩
    obtain ⟨sub, hs, -, hheader, hsub, hrun⟩ := hrun
    obtain rfl := Value.tuple.inj (Option.some.inj hheader)
    rw [returns_subTuple h] at hrun
    obtain ⟨txns, ts', -, htxns, hsub', hrun⟩ := hrun
    obtain rfl := Value.tuple.inj (Option.some.inj htxns)
    have hsix := @tupleGetU32_eq _ _ 6 hsub header.count rfl
    rw [returns_check, hsix, ok_bind, returns_guard, returns_check] at hrun
    have hrun := hrun.2 ((isHeaderValid_iff hsub).mpr ⟨header, rfl⟩)
    have hrun := (hrun.resolve_left (not_not.mpr (by rw [hsub'.tupleSize_eq, hcount]))).1
    exact (allTransactions_returns_iff hsub').mp hrun hcut
  · intro hcut
    rcases eq_or_ne vs.length 3 with hsize | hsize
    · obtain ⟨a, b, c, rfl⟩ := List.length_eq_three.mp hsize
      refine Or.inr ⟨⟨a, rfl⟩, ?_⟩
      rintro ⟨_, ⟨⟩, htag⟩
      obtain ⟨hs, rfl⟩ := exists_tuple_of_tag htag
      refine ⟨⟨b, rfl⟩, ?_⟩
      rintro ⟨_, ⟨⟩, htag'⟩
      obtain ⟨signature, fits, rfl⟩ := exists_binary_of_tag htag'
      refine ⟨⟨c, rfl⟩, ?_⟩
      rintro ⟨_, ⟨⟩, htag''⟩
      obtain ⟨ts, rfl⟩ := exists_tuple_of_tag htag''
      obtain ⟨sub, hget, hsub⟩ := @Represents.tupleGetTuple_eq _ _ h 0 hs rfl
      obtain ⟨txns, hget', hsub'⟩ := @Represents.tupleGetTuple_eq _ _ h 2 ts rfl
      refine ⟨sub, hs, hget, rfl, hsub, ?_⟩
      rw [hget', ok_bind, returns_check]
      refine ⟨isHeaderValid_returns hsub, ?_⟩
      intro hvalid
      obtain ⟨header, rfl⟩ := (isHeaderValid_iff hsub).mp hvalid
      have hsix := @tupleGetU32_eq _ _ 6 hsub header.count rfl
      rw [hsix, ok_bind, returns_guard, returns_check, hsub'.tupleSize_eq]
      rcases eq_or_ne ts.length header.count.toNat with hcount | hcount
      · refine Or.inr ⟨?_, ?_⟩
        · rw [← hsub'.tupleSize_eq, allTransactions_returns_iff hsub']
          exact fun hnone => hcut ⟨header, signature, fits, ts, rfl, hcount, hnone⟩
        · intro hall
          rw [← hsub'.tupleSize_eq, allTransactionsValid_iff hsub'] at hall
          obtain ⟨ms, rfl⟩ := hall
          obtain ⟨after, hroot⟩ :=
            @tupleGetBinary_ofBytes _ _ 2 hsub _ generichashBytes_lt header.merkleRoot rfl
          have hread : readBytes (header.merkleRoot.toList ++ after) 0 generichashBytes =
              .ok header.merkleRoot.toList :=
            readBytes_eq_ok.mpr ⟨header.merkleRoot.length_eq, [], after, rfl, rfl⟩
          rw [merkleRootFromTuple_eq hsub', ok_bind, hroot, ok_bind, hread, ok_bind]
          exact returns_ok _
      · exact Or.inl hcount
    · exact Or.inl hsize

end Blocks

end Whosecoin.MalformedTuples

import Whosecoin.TupleFormat

namespace Whosecoin.TupleFaults

open Library.Outcomes
open Library.ByteStrings
open TupleParser
open TupleFormat

variable {data : List UInt8} {bound : Nat}

/-- The places where `tuple_parse`, on a buffer of `bound` bytes, looks for the tag
of an element or of the end of a tuple, at whatever depth. -/
inductive TagPosition (data : List UInt8) (bound : Nat) : Nat → Prop where
  | first (hbyte : data[0]? = some Tag.tupleStart.byte) (hbound : 2 ≤ bound) :
      TagPosition data bound 1
  | next {iter : Nat} (position : TagPosition data bound iter) (v : Value)
      (hat : At data iter v.encode) (hbound : iter + v.encode.length < bound) :
      TagPosition data bound (iter + v.encode.length)
  | enter {iter : Nat} (position : TagPosition data bound iter)
      (hbyte : data[iter]? = some Tag.tupleStart.byte) (hbound : iter + 2 ≤ bound) :
      TagPosition data bound (iter + 1)

/-- What goes wrong with the element whose tag is at `iter`. -/
inductive FaultAt (data : List UInt8) (bound iter : Nat) : Fault → Prop where
  | unknown {byte : UInt8} (hbyte : data[iter]? = some byte) (htag : Tag.ofByte byte = none) :
      FaultAt data bound iter .diverges
  | string (hbyte : data[iter]? = some Tag.string.byte) (hnul : 0 ∉ data.drop (iter + 1)) :
      FaultAt data bound iter .outOfBounds
  | size (hbyte : data[iter]? = some Tag.binary.byte) (hshort : data.length < iter + 5) :
      FaultAt data bound iter .outOfBounds
  | payload {size : List UInt8} (hbyte : data[iter]? = some Tag.binary.byte)
      (hsize : readBytes data (iter + 1) 4 = .ok size)
      (hlong : bound ≤ iter + 5 + littleEndian size) : FaultAt data bound iter .assertion

theorem TagPosition.lt {iter : Nat} (h : TagPosition data bound iter) : iter < bound := by
  cases h with
  | first hbyte hbound => omega
  | next position v hat hbound => exact hbound
  | enter position hbyte hbound => omega

theorem strlen_eq_error_iff (bytes : List UInt8) (e : Fault) :
    strlen bytes = .error e ↔ 0 ∉ bytes ∧ e = .outOfBounds := by
  induction bytes with
  | nil => simp [strlen, eq_comm]
  | cons b bytes ih =>
      rw [strlen, List.mem_cons, not_or]
      split_ifs with hb
      · simp [hb]
      · rw [← and_assoc.symm, ← ih, and_iff_right (Ne.symm hb)]
        cases strlen bytes with
        | error e' => simp [Except.map]
        | ok n => simp [Except.map]

theorem parseElements_of_faultAt {fuel start iter : Nat} {elements : List Element} {e : Fault}
    (hfault : FaultAt data bound iter e) (hlt : iter < bound) :
    parseElements data (fuel + 1) start iter bound elements = .error e := by
  cases hfault with
  | unknown hbyte htag =>
      rw [parseElements, if_neg (by omega), hbyte]
      simp only [htag]
  | string hbyte hnul =>
      rw [parseElements_string hbyte hlt, (strlen_eq_error_iff _ _).mpr ⟨hnul, rfl⟩, error_bind]
  | size hbyte hshort =>
      rw [parseElements_binary hbyte hlt, readBytes, if_neg (by omega), error_bind]
  | payload hbyte hsize hlong =>
      rw [parseElements_binary hbyte hlt, hsize, ok_bind, if_neg (by omega)]

theorem tupleParse_of_position {iter : Nat} (position : TagPosition data bound iter) {e : Fault}
    (hfails : ∀ fuel start elements, 2 * (bound - iter) ≤ fuel →
      parseElements data fuel start iter bound elements = .error e) :
    tupleParse ⟨bound, data⟩ = .error e := by
  induction position with
  | first hbyte hbound =>
      rw [tupleParse, tupleParseAt, if_neg (by simp only; omega), hbyte]
      simp only [ne_eq, not_true_eq_false, if_false, Nat.zero_add]
      rw [hfails _ _ _ (by omega)]
  | @next iter position v hat hbound ih =>
      have hpos := encode_length_pos v
      refine ih ?_
      intro fuel start elements hfuel
      obtain ⟨fuel, rfl⟩ : ∃ n, fuel = n + 1 := ⟨fuel - 1, by omega⟩
      rw [parseElements_value (finds_encoded data fuel).1 v hat hbound (by omega)]
      exact hfails _ _ _ (by omega)
  | @enter iter position hbyte hbound ih =>
      refine ih ?_
      intro fuel start elements hfuel
      obtain ⟨fuel, rfl⟩ : ∃ n, fuel = n + 2 := ⟨fuel - 2, by omega⟩
      rw [parseElements_tuple hbyte (by omega), tupleParseAt, if_neg (by omega), hbyte]
      simp only [ne_eq, not_true_eq_false, if_false]
      rw [show iter + (bound - iter) = bound by omega, hfails _ _ _ (by omega), error_bind]

/-- The loop, started at a position of a tag, finds a fault at another one. -/
def ElementsFail (data : List UInt8) (bound fuel : Nat) : Prop :=
  ∀ start iter elements e, 2 * (bound - iter) + 1 ≤ fuel →
    (iter < bound → TagPosition data bound iter) →
    parseElements data fuel start iter bound elements = .error e →
    ∃ p, TagPosition data bound p ∧ FaultAt data bound p e

/-- Where the parser of a tuple fails, there is a fault at one of its tags. -/
def TupleFails (data : List UInt8) (bound fuel : Nat) : Prop :=
  ∀ start e, 2 * (bound - start) ≤ fuel → start < bound →
    (data[start]? = some Tag.tupleStart.byte → start + 2 ≤ bound →
      TagPosition data bound (start + 1)) →
    tupleParseAt data fuel start (bound - start) = .error e →
    ∃ p, TagPosition data bound p ∧ FaultAt data bound p e

theorem tupleFails_succ {fuel : Nat} (hmem : bound ≤ data.length)
    (h : ElementsFail data bound fuel) : TupleFails data bound (fuel + 1) := by
  intro start e hfuel hlt hposition hrun
  rw [tupleParseAt] at hrun
  split_ifs at hrun with hshort
  cases hbyte : data[start]? with
  | none =>
      rw [List.getElem?_eq_none_iff] at hbyte
      omega
  | some byte =>
      simp only [hbyte] at hrun
      split_ifs at hrun with hstart
      rw [not_not] at hstart
      subst hstart
      rw [show start + (bound - start) = bound by omega] at hrun
      refine h start (start + 1) [] e (by omega) (fun _ => ?_) hrun
      exact hposition hbyte (by omega)

theorem elementsFail_succ {fuel : Nat} (hmem : bound ≤ data.length)
    (htuple : TupleFails data bound fuel) (hrest : ElementsFail data bound fuel) :
    ElementsFail data bound (fuel + 1) := by
  intro start iter elements e hfuel hposition hrun
  have hlt : iter < bound := by
    by_contra hge
    rw [parseElements, if_pos (by omega)] at hrun
    cases hrun
  have hposition := hposition hlt
  -- the next round starts behind the value that this one has read
  have hnext : ∀ p found, parseElements data fuel start p bound found = .error e → iter < p →
      (p < bound → ∃ v : Value, At data iter v.encode ∧ p = iter + v.encode.length) →
      ∃ p, TagPosition data bound p ∧ FaultAt data bound p e := by
    intro p found hrun hlt
    have hfuel : 2 * (bound - p) + 1 ≤ fuel := by omega
    intro hvalue
    refine hrest start p found e hfuel (fun hbound => ?_) hrun
    obtain ⟨v, hv, rfl⟩ := hvalue hbound
    exact hposition.next v hv hbound
  cases hbyte : data[iter]? with
  | none =>
      rw [List.getElem?_eq_none_iff] at hbyte
      omega
  | some byte =>
      cases htag : Tag.ofByte byte with
      | none =>
          rw [parseElements, if_neg (by omega), hbyte] at hrun
          simp only [htag, Except.error.injEq] at hrun
          subst hrun
          exact ⟨iter, hposition, .unknown hbyte htag⟩
      | some tag =>
          rw [← Tag.byte_of_ofByte htag] at hbyte
          cases tag with
          | scalar kind =>
              rw [parseElements_scalar hbyte hlt] at hrun
              refine hnext _ _ hrun (by omega) (fun hbound => ?_)
              obtain ⟨payload, hpayload⟩ := exists_scalar_at hbyte (by omega)
              exact ⟨.scalar kind payload, hpayload, by rw [encode_scalar_length]; omega⟩
          | string =>
              rw [parseElements_string hbyte hlt] at hrun
              cases hn : strlen (data.drop (iter + 1)) with
              | error e' =>
                  obtain ⟨hnul, rfl⟩ := (strlen_eq_error_iff _ _).mp hn
                  rw [hn, error_bind, Except.error.injEq] at hrun
                  subst hrun
                  exact ⟨iter, hposition, .string hbyte hnul⟩
              | ok n =>
                  rw [hn, ok_bind] at hrun
                  obtain ⟨chars, hnul, rfl, hchars⟩ := exists_string_at hbyte hn
                  refine hnext _ _ hrun (by omega) (fun _ => ?_)
                  exact ⟨.string chars hnul, hchars, by rw [encode_string_length]; omega⟩
          | binary =>
              rw [parseElements_binary hbyte hlt] at hrun
              cases hsize : readBytes data (iter + 1) 4 with
              | error e' =>
                  rw [hsize, error_bind, Except.error.injEq] at hrun
                  subst hrun
                  rw [readBytes] at hsize
                  split_ifs at hsize with hshort
                  cases hsize
                  exact ⟨iter, hposition, .size hbyte (by omega)⟩
              | ok size =>
                  rw [hsize, ok_bind] at hrun
                  split_ifs at hrun with hfit
                  · refine hnext _ _ hrun (by omega) (fun hbound => ?_)
                    obtain ⟨bytes, hfits, hlength, hbytes⟩ :=
                      exists_binary_at hbyte hsize (by omega)
                    exact ⟨.binary bytes hfits, hbytes, by rw [encode_binary_length]; omega⟩
                  · rw [Except.error.injEq] at hrun
                    subst hrun
                    exact ⟨iter, hposition, .payload hbyte hsize (by omega)⟩
          | tupleStart =>
              rw [parseElements_tuple hbyte hlt] at hrun
              rcases hsub : tupleParseAt data fuel iter (bound - iter) with
                e' | _ | ⟨n, subElements⟩
              · rw [hsub, error_bind, Except.error.injEq] at hrun
                subst hrun
                exact htuple iter e' (by omega) hlt hposition.enter hsub
              · rw [hsub] at hrun
                cases hrun
              · rw [hsub, ok_bind] at hrun
                obtain ⟨ws, hat, rfl, -, -⟩ := (found_encoded data fuel).1 _ _ _ _ hsub
                have hpos := encode_length_pos (.tuple ws)
                exact hnext _ _ hrun (by omega) (fun _ => ⟨.tuple ws, hat, rfl⟩)
          | tupleEnd =>
              rw [parseElements_end hbyte hlt] at hrun
              cases hrun

theorem fails_at_fault (hmem : bound ≤ data.length) (fuel : Nat) :
    TupleFails data bound fuel ∧ ElementsFail data bound fuel := by
  induction fuel with
  | zero =>
      constructor
      · intro start e hfuel hlt
        omega
      · intro start iter elements e hfuel
        omega
  | succ fuel ih => exact ⟨tupleFails_succ hmem ih.2, elementsFail_succ hmem ih.1 ih.2⟩

/-- The parser fails at a fault that it gets to, and only there. -/
theorem tupleParse_eq_error_iff (hmem : bound ≤ data.length) (e : Fault) :
    tupleParse ⟨bound, data⟩ = .error e ↔
      ∃ iter, TagPosition data bound iter ∧ FaultAt data bound iter e := by
  constructor
  · intro hrun
    rcases Nat.eq_zero_or_pos bound with rfl | hpos
    · rw [tupleParse, tupleParseAt, if_pos (by simp)] at hrun
      cases hrun
    rw [tupleParse] at hrun
    rcases hsub : tupleParseAt data (2 * bound + 1) 0 bound with e' | _ | ⟨length, elements⟩
    · simp only [hsub, Except.error.injEq] at hrun
      subst hrun
      refine (fails_at_fault hmem _).1 0 e' (by omega) hpos (fun hbyte hbound => ?_) hsub
      exact .first hbyte hbound
    · simp [hsub] at hrun
    · simp [hsub] at hrun
  · rintro ⟨iter, position, hfault⟩
    refine tupleParse_of_position position ?_
    intro fuel start elements hfuel
    have hlt := position.lt
    obtain ⟨fuel, rfl⟩ : ∃ n, fuel = n + 1 := ⟨fuel - 1, by omega⟩
    exact parseElements_of_faultAt hfault hlt

/-- Every byte that the parser takes for a tag is one. -/
def KnownTags (data : List UInt8) (bound : Nat) : Prop :=
  ∀ iter byte, TagPosition data bound iter → data[iter]? = some byte →
    Tag.ofByte byte ≠ none

/-- The loop comes to its end unless it stands before an unknown tag, which no case of
the switch moves it over. -/
theorem tupleParse_ends_iff (bytes after : List UInt8) :
    tupleParse ⟨bytes.length, bytes ++ after⟩ ≠ .error .diverges ↔
      KnownTags (bytes ++ after) bytes.length := by
  rw [ne_eq, tupleParse_eq_error_iff (by simp)]
  constructor
  · intro hends iter byte position hbyte htag
    exact hends ⟨iter, position, .unknown hbyte htag⟩
  · rintro hknown ⟨iter, position, hfault⟩
    cases hfault with
    | unknown hbyte htag => exact hknown iter _ position hbyte htag

/-- A tuple with an element of an unknown kind keeps the parser for good. -/
theorem unknown_tag_diverges : tupleParse ⟨3, [40, 120, 41]⟩ = .error .diverges := by
  apply (tupleParse_eq_error_iff le_rfl .diverges).mpr
  exact ⟨1, .first rfl (by decide), .unknown rfl (by decide)⟩

/-- The parser, in a memory of no more than the buffer, returns; and it finds nothing
unless the buffer starts with a whole tuple. -/
def StaysInside (bytes : List UInt8) : Prop :=
  ∃ result, tupleParse ⟨bytes.length, bytes⟩ = .ok result ∧
    ((∀ vs, ¬ (Value.tuple vs).encode <+: bytes) → result = none)

/-- Strings end inside the buffer, and binaries before its last byte. -/
structure ElementsFit (bytes : List UInt8) : Prop where
  strings : ∀ iter, TagPosition bytes bytes.length iter →
    bytes[iter]? = some Tag.string.byte → 0 ∈ bytes.drop (iter + 1)
  binaries : ∀ iter, TagPosition bytes bytes.length iter →
    bytes[iter]? = some Tag.binary.byte →
    iter + 5 + littleEndian ((bytes.drop (iter + 1)).take 4) < bytes.length

theorem encode_prefix_of_parsed {bytes : List UInt8} {tuple : Tuple}
    (h : tupleParse ⟨bytes.length, bytes⟩ = .ok (some tuple)) :
    ∃ vs, (Value.tuple vs).encode <+: bytes := by
  rw [tupleParse] at h
  rcases hrun : tupleParseAt bytes (2 * bytes.length + 1) 0 bytes.length with
    e | _ | ⟨length, elements⟩
  · simp [hrun] at h
  · simp [hrun] at h
  · obtain ⟨vs, hat, -⟩ := (found_encoded bytes _).1 _ _ _ _ hrun
    obtain ⟨rest, hrest⟩ := hat.drop_eq
    exact ⟨vs, rest, hrest.symm⟩

/-- On a buffer of known tags the parser stays inside exactly when the elements fit. -/
theorem staysInside_iff {bytes : List UInt8} (hknown : KnownTags bytes bytes.length) :
    StaysInside bytes ↔ ElementsFit bytes := by
  have hfault := fun e => @tupleParse_eq_error_iff bytes bytes.length le_rfl e
  constructor
  · rintro ⟨result, hrun, -⟩
    have hnone : ∀ e iter, TagPosition bytes bytes.length iter →
        ¬ FaultAt bytes bytes.length iter e := by
      intro e iter position hat
      have hfails := (hfault e).mpr ⟨iter, position, hat⟩
      rw [hrun] at hfails
      cases hfails
    constructor
    · intro iter position hbyte
      by_contra hnul
      exact hnone _ iter position (.string hbyte hnul)
    · intro iter position hbyte
      by_contra hlong
      rcases Nat.lt_or_ge bytes.length (iter + 5) with hshort | hsize
      · exact hnone _ iter position (.size hbyte hshort)
      · have hread : readBytes bytes (iter + 1) 4 = .ok ((bytes.drop (iter + 1)).take 4) := by
          rw [readBytes, if_pos hsize]
        exact hnone _ iter position (.payload hbyte hread (Nat.le_of_not_lt hlong))
  · intro hfit
    cases hrun : tupleParse ⟨bytes.length, bytes⟩ with
    | ok result =>
        refine ⟨result, hrun, ?_⟩
        intro hincomplete
        cases result with
        | none => rfl
        | some tuple =>
            obtain ⟨vs, hvs⟩ := encode_prefix_of_parsed hrun
            exact absurd hvs (hincomplete vs)
    | error e =>
        obtain ⟨iter, position, hat⟩ := (hfault e).mp hrun
        cases hat with
        | unknown hbyte htag => exact absurd htag (hknown iter _ position hbyte)
        | string hbyte hnul => exact absurd (hfit.strings iter position hbyte) hnul
        | size hbyte hshort =>
            have hinside := hfit.binaries iter position hbyte
            omega
        | payload hbyte hsize hlong =>
            have hinside := hfit.binaries iter position hbyte
            rw [readBytes] at hsize
            split_ifs at hsize
            cases hsize
            omega

/-- The string `a`, a binary of one byte and the end of the tuple. -/
def filledTuple : List UInt8 :=
  [40, 115, 97, 0, 66, 1, 0, 0, 0, 5, 41]

/-- Both of its elements are in tag positions, and the parser stays inside. -/
theorem staysInside_iff_filled : TagPosition filledTuple filledTuple.length 1 ∧
    TagPosition filledTuple filledTuple.length 4 ∧ StaysInside filledTuple ∧
    ElementsFit filledTuple := by
  have hchars : 0 ∉ ([97] : List UInt8) := by decide
  have hfirst : TagPosition filledTuple filledTuple.length 1 := .first rfl (by decide)
  have hsecond : TagPosition filledTuple filledTuple.length 4 :=
    hfirst.next (.string [97] hchars)
      ⟨[40], [66, 1, 0, 0, 0, 5, 41], rfl, rfl⟩ (show 1 + 3 < 11 by decide)
  obtain ⟨tuple, hparse, -⟩ := @tupleParse_of_encode ⟨filledTuple.length, filledTuple⟩
    [.string [97] hchars, .binary [5] (by decide)] [] rfl (Nat.le_refl 11)
  have hknown : KnownTags filledTuple filledTuple.length := by
    intro iter byte position hbyte htag
    have hfails := (@tupleParse_eq_error_iff filledTuple filledTuple.length le_rfl .diverges).mpr
      ⟨iter, position, .unknown hbyte htag⟩
    rw [hparse] at hfails
    cases hfails
  have hstays : StaysInside filledTuple := by
    refine ⟨some tuple, hparse, ?_⟩
    intro hincomplete
    obtain ⟨vs, hvs⟩ := encode_prefix_of_parsed hparse
    exact absurd hvs (hincomplete vs)
  exact ⟨hfirst, hsecond, hstays, (staysInside_iff hknown).mp hstays⟩

/-- A string without an end is read on behind the buffer. -/
theorem unterminated_string_leaves : KnownTags [40, 115, 97] 3 ∧
    ¬ StaysInside [40, 115, 97] := by
  have hrun : tupleParse ⟨3, [40, 115, 97]⟩ = .error .outOfBounds := by
    apply (tupleParse_eq_error_iff le_rfl .outOfBounds).mpr
    exact ⟨1, .first rfl (by decide), .string rfl (by decide)⟩
  constructor
  · intro iter byte position hbyte htag
    have hfails := (@tupleParse_eq_error_iff [40, 115, 97] 3 le_rfl .diverges).mpr
      ⟨iter, position, .unknown hbyte htag⟩
    rw [hrun] at hfails
    cases hfails
  · rintro ⟨result, hreturns, -⟩
    rw [List.length_cons, List.length_cons, List.length_singleton, hrun] at hreturns
    cases hreturns

end Whosecoin.TupleFaults

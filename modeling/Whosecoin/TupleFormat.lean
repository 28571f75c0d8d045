import Whosecoin.TupleParser

/-!
The grammar of the tuple format: what the parser returns are exactly the encodings of
lists of values, and the getters return the parts of these values.
-/

namespace Whosecoin.TupleFormat

open Library.Outcomes
open Library.ByteStrings
open TupleParser

/-- A value of the tuple format, whatever bytes it comes from. -/
inductive Value where
  | scalar (kind : Scalar) (payload : Bytes kind.width)
  | string (chars : List UInt8) (nulFree : 0 ∉ chars)
  | binary (bytes : List UInt8) (fits : bytes.length < 2 ^ 32)
  | tuple (values : List Value)

theorem length_i32 (v : Int32) : (toBigEndian 4 v.toUInt32.toNat).length = 4 :=
  toBigEndian_length _ _

theorem length_u32 (v : UInt32) : (toBigEndian 4 v.toNat).length = 4 :=
  toBigEndian_length _ _

theorem length_u64 (v : UInt64) : (toBigEndian 8 v.toNat).length = 8 :=
  toBigEndian_length _ _

def Value.tag : Value → Tag
  | .scalar kind _ => .scalar kind
  | .string _ _ => .string
  | .binary _ _ => .binary
  | .tuple _ => .tupleStart

mutual

def Value.encode : Value → List UInt8
  | .scalar kind payload => (Tag.scalar kind).byte :: payload.toList
  | .string chars _ => Tag.string.byte :: (chars ++ [0])
  | .binary bytes _ => Tag.binary.byte :: (toLittleEndian 4 bytes.length ++ bytes)
  | .tuple values => Tag.tupleStart.byte :: (encodeAll values ++ [Tag.tupleEnd.byte])

def encodeAll : List Value → List UInt8
  | [] => []
  | v :: vs => v.encode ++ encodeAll vs

end

mutual

/-- The element that the parser makes of a value encoded at an offset. -/
def Value.layout (offset : Nat) : Value → Element
  | .tuple values =>
      .tuple offset ((encodeAll values).length + 2) (layoutAll (offset + 1) values)
  | .scalar _ _ => .pointer offset
  | .string _ _ => .pointer offset
  | .binary _ _ => .pointer offset

/-- The elements that the parser makes of the values from this offset on. -/
def layoutAll (offset : Nat) : List Value → List Element
  | [] => []
  | v :: vs => v.layout offset :: layoutAll (offset + v.encode.length) vs

end

theorem encode_tuple_length (vs : List Value) :
    (Value.tuple vs).encode.length = (encodeAll vs).length + 2 := by
  simp [Value.encode]

theorem encode_scalar_length (kind : Scalar) (payload : Bytes kind.width) :
    (Value.scalar kind payload).encode.length = 1 + kind.width := by
  rw [Value.encode, List.length_cons, payload.length_eq, Nat.add_comm]

theorem encode_string_length (chars : List UInt8) (nulFree : 0 ∉ chars) :
    (Value.string chars nulFree).encode.length = 1 + chars.length + 1 := by
  simp only [Value.encode, List.length_cons, List.length_append, List.length_nil]
  omega

theorem encode_binary_length (bytes : List UInt8) (fits : bytes.length < 2 ^ 32) :
    (Value.binary bytes fits).encode.length = 5 + bytes.length := by
  simp only [Value.encode, List.length_cons, List.length_append, toLittleEndian_length]
  omega

theorem encode_head (v : Value) : ∃ bytes, v.encode = v.tag.byte :: bytes := by
  cases v with
  | scalar kind payload => exact ⟨_, rfl⟩
  | string chars nulFree => exact ⟨_, rfl⟩
  | binary bytes fits => exact ⟨_, rfl⟩
  | tuple values => exact ⟨_, by rw [Value.encode]; rfl⟩

theorem encode_length_pos (v : Value) : 0 < v.encode.length := by
  obtain ⟨bytes, h⟩ := encode_head v
  simp [h]

theorem encodeAll_append (vs ws : List Value) :
    encodeAll (vs ++ ws) = encodeAll vs ++ encodeAll ws := by
  induction vs with
  | nil => rfl
  | cons v vs ih => rw [List.cons_append, encodeAll, ih, encodeAll, List.append_assoc]

theorem layoutAll_length (offset : Nat) (vs : List Value) :
    (layoutAll offset vs).length = vs.length := by
  induction vs generalizing offset with
  | nil => rfl
  | cons v vs ih => rw [layoutAll, List.length_cons, ih, List.length_cons]

section Memory

variable {data : List UInt8} {offset : Nat}

theorem readBytes_eq_ok {count : Nat} {bytes : List UInt8} :
    readBytes data offset count = .ok bytes ↔ bytes.length = count ∧ At data offset bytes := by
  rw [readBytes]
  constructor
  · intro h
    split_ifs at h with hle
    · cases h
      have hsplit := (List.take_append_drop count (data.drop offset)).symm
      exact ⟨by simp; omega, at_of_drop_eq (by omega) hsplit⟩
  · rintro ⟨rfl, hat⟩
    rw [if_pos hat.le_length, hat.take_drop]

theorem strlen_of_at {chars : List UInt8} (hat : At data offset (chars ++ [0]))
    (hnul : 0 ∉ chars) : strlen (data.drop offset) = .ok chars.length := by
  obtain ⟨after, hafter⟩ := hat.drop_eq
  rw [hafter]
  clear hafter hat
  induction chars with
  | nil => rfl
  | cons c chars ih =>
      rw [List.mem_cons, not_or] at hnul
      simp only [List.cons_append, strlen, if_neg (Ne.symm hnul.1), ih hnul.2]
      rfl

theorem strlen_eq_ok {bytes : List UInt8} {n : Nat} (h : strlen bytes = .ok n) :
    ∃ chars after, bytes = chars ++ [0] ++ after ∧ chars.length = n ∧ 0 ∉ chars := by
  induction bytes generalizing n with
  | nil => simp [strlen] at h
  | cons b bytes ih =>
      rw [strlen] at h
      split_ifs at h with hb
      · cases h
        exact ⟨[], bytes, by simp [hb], rfl, by simp⟩
      · cases hrest : strlen bytes with
        | error e => simp [hrest, Except.map] at h
        | ok m =>
            obtain ⟨chars, after, hbytes, hlength, hnul⟩ := ih hrest
            simp only [hrest, Except.map, Except.ok.injEq] at h
            refine ⟨b :: chars, after, by simp [hbytes], by simp [hlength, h], ?_⟩
            simp [hnul, Ne.symm hb]

end Memory

section Completeness

variable {data : List UInt8}

theorem parseElements_scalar {fuel start iter iterEnd : Nat} {elements : List Element}
    {kind : Scalar} (hbyte : data[iter]? = some (Tag.scalar kind).byte) (hlt : iter < iterEnd) :
    parseElements data (fuel + 1) start iter iterEnd elements =
      parseElements data fuel start (iter + 1 + kind.width) iterEnd
        (elements ++ [.pointer iter]) := by
  rw [parseElements, if_neg (by omega), hbyte]
  simp only [Tag.ofByte_byte]

theorem parseElements_string {fuel start iter iterEnd : Nat} {elements : List Element}
    (hbyte : data[iter]? = some Tag.string.byte) (hlt : iter < iterEnd) :
    parseElements data (fuel + 1) start iter iterEnd elements =
      (strlen (data.drop (iter + 1)) >>= fun n =>
        parseElements data fuel start (iter + 1 + n + 1) iterEnd
          (elements ++ [.pointer iter])) := by
  rw [parseElements, if_neg (by omega), hbyte]
  simp only [Tag.ofByte_byte]
  cases strlen (data.drop (iter + 1)) <;> rfl

theorem parseElements_binary {fuel start iter iterEnd : Nat} {elements : List Element}
    (hbyte : data[iter]? = some Tag.binary.byte) (hlt : iter < iterEnd) :
    parseElements data (fuel + 1) start iter iterEnd elements =
      (readBytes data (iter + 1) 4 >>= fun size =>
        if iter + 5 + littleEndian size < iterEnd then
          parseElements data fuel start (iter + 5 + littleEndian size) iterEnd
            (elements ++ [.pointer iter])
        else .error .assertion) := by
  rw [parseElements, if_neg (by omega), hbyte]
  simp only [Tag.ofByte_byte]
  cases readBytes data (iter + 1) 4 <;> rfl

theorem parseElements_tuple {fuel start iter iterEnd : Nat} {elements : List Element}
    (hbyte : data[iter]? = some Tag.tupleStart.byte) (hlt : iter < iterEnd) :
    parseElements data (fuel + 1) start iter iterEnd elements =
      (tupleParseAt data fuel iter (iterEnd - iter) >>= fun
        | none => .ok none
        | some (length, subElements) =>
            parseElements data fuel start (iter + length) iterEnd
              (elements ++ [.tuple iter length subElements])) := by
  rw [parseElements, if_neg (by omega), hbyte]
  simp only [Tag.ofByte_byte]
  rcases tupleParseAt data fuel iter (iterEnd - iter) with e | _ | ⟨length, subElements⟩ <;> rfl

theorem parseElements_end {fuel start iter iterEnd : Nat} {elements : List Element}
    (hbyte : data[iter]? = some Tag.tupleEnd.byte) (hlt : iter < iterEnd) :
    parseElements data (fuel + 1) start iter iterEnd elements =
      .ok (some (iter + 1 - start, elements)) := by
  rw [parseElements, if_neg (by omega), hbyte]
  simp only [Tag.ofByte_byte]

/-- The parser finds the elements of an encoded list, up to the end tag. -/
def FindsElements (data : List UInt8) (fuel : Nat) : Prop :=
  ∀ vs start iter iterEnd elements, At data iter (encodeAll vs ++ [Tag.tupleEnd.byte]) →
    iter + (encodeAll vs).length < iterEnd → (encodeAll vs).length < fuel →
    parseElements data fuel start iter iterEnd elements =
      .ok (some (iter + (encodeAll vs).length + 1 - start, elements ++ layoutAll iter vs))

/-- The parser finds an encoded tuple. -/
def FindsTuple (data : List UInt8) (fuel : Nat) : Prop :=
  ∀ vs start length, At data start (Value.tuple vs).encode →
    (Value.tuple vs).encode.length ≤ length → (Value.tuple vs).encode.length ≤ fuel →
    tupleParseAt data fuel start length =
      .ok (some ((Value.tuple vs).encode.length, layoutAll (start + 1) vs))

theorem findsTuple_succ {fuel : Nat} (h : FindsElements data fuel) :
    FindsTuple data (fuel + 1) := by
  intro vs start length hat hlength hfuel
  rw [encode_tuple_length] at hlength hfuel
  rw [Value.encode, at_cons] at hat
  obtain ⟨hbyte, hat⟩ := hat
  rw [tupleParseAt, if_neg (by omega), hbyte]
  simp only [ne_eq, not_true_eq_false, if_false]
  rw [h vs start (start + 1) (start + length) [] hat (by omega) (by omega), encode_tuple_length]
  simp only [List.nil_append, Except.ok.injEq, Option.some.injEq, Prod.mk.injEq, and_true]
  omega

theorem parseElements_value {fuel : Nat} (htuple : FindsTuple data fuel) (v : Value)
    {start iter iterEnd : Nat} {elements : List Element} (hv : At data iter v.encode)
    (hend : iter + v.encode.length < iterEnd) (hfuel : v.encode.length ≤ fuel) :
    parseElements data (fuel + 1) start iter iterEnd elements =
      parseElements data fuel start (iter + v.encode.length) iterEnd
        (elements ++ [v.layout iter]) := by
  have hpos := encode_length_pos v
  cases v with
  | scalar kind payload =>
      rw [Value.encode, at_cons] at hv
      rw [parseElements_scalar hv.1 (by omega), Nat.add_assoc,
        ← encode_scalar_length kind payload, Value.layout]
  | string chars nulFree =>
      rw [Value.encode, at_cons] at hv
      rw [parseElements_string hv.1 (by omega), strlen_of_at hv.2 nulFree, ok_bind,
        Nat.add_assoc iter, Nat.add_assoc iter,
        ← encode_string_length chars nulFree, Value.layout]
  | binary bytes fits =>
      rw [Value.encode, at_cons, at_append] at hv
      obtain ⟨hbyte, hsize, hbytes⟩ := hv
      have hlength := encode_binary_length bytes fits
      have hread := readBytes_eq_ok.mpr ⟨toLittleEndian_length 4 bytes.length, hsize⟩
      rw [parseElements_binary hbyte (by omega), hread, ok_bind,
        littleEndian_toLittleEndian 4 bytes.length fits, if_pos (by omega), Nat.add_assoc,
        ← hlength, Value.layout]
  | tuple values =>
      have hlength := encode_tuple_length values
      have hbyte : data[iter]? = some Tag.tupleStart.byte := by
        rw [Value.encode, at_cons] at hv
        exact hv.1
      rw [parseElements_tuple hbyte (by omega), htuple values iter (iterEnd - iter) hv
        (by omega) (by omega)]
      simp only [ok_bind]
      rw [Value.layout, hlength]

theorem findsElements_succ {fuel : Nat} (htuple : FindsTuple data fuel)
    (hrest : FindsElements data fuel) : FindsElements data (fuel + 1) := by
  intro vs start iter iterEnd elements hat hend hfuel
  rcases vs with _ | ⟨v, vs⟩
  · simp only [encodeAll, List.nil_append, at_singleton, List.length_nil] at hat hend ⊢
    rw [parseElements_end hat (by omega), layoutAll, List.append_nil]
  rw [encodeAll, List.append_assoc, at_append] at hat
  obtain ⟨hv, hvs⟩ := hat
  rw [encodeAll, List.length_append] at hend hfuel
  have hpos := encode_length_pos v
  rw [parseElements_value htuple v hv (by omega) (by omega),
    hrest vs start (iter + v.encode.length) iterEnd (elements ++ [v.layout iter]) hvs (by omega)
      (by omega), layoutAll, List.append_assoc, List.singleton_append, encodeAll,
    List.length_append, Nat.add_assoc iter]

theorem finds_encoded (data : List UInt8) (fuel : Nat) :
    FindsTuple data fuel ∧ FindsElements data fuel := by
  induction fuel with
  | zero =>
      constructor
      · intro vs start length hat hlength hfuel
        rw [encode_tuple_length] at hfuel
        omega
      · intro vs start iter iterEnd elements hat hend hfuel
        omega
  | succ fuel ih => exact ⟨findsTuple_succ ih.2, findsElements_succ ih.1 ih.2⟩

end Completeness

section Soundness

variable {data : List UInt8}

/-- Whatever elements the parser finds are those of an encoded list. -/
def ElementsEncoded (data : List UInt8) (fuel : Nat) : Prop :=
  ∀ start iter iterEnd elements length found,
    parseElements data fuel start iter iterEnd elements = .ok (some (length, found)) →
    ∃ vs, At data iter (encodeAll vs ++ [Tag.tupleEnd.byte]) ∧
      iter + (encodeAll vs).length < iterEnd ∧
      length = iter + (encodeAll vs).length + 1 - start ∧ found = elements ++ layoutAll iter vs

def TupleEncoded (data : List UInt8) (fuel : Nat) : Prop :=
  ∀ start available length found,
    tupleParseAt data fuel start available = .ok (some (length, found)) →
    ∃ vs, At data start (Value.tuple vs).encode ∧ length = (Value.tuple vs).encode.length ∧
      length ≤ available ∧ found = layoutAll (start + 1) vs

theorem tupleEncoded_succ {fuel : Nat} (h : ElementsEncoded data fuel) :
    TupleEncoded data (fuel + 1) := by
  intro start available length found hrun
  rw [tupleParseAt] at hrun
  split_ifs at hrun with hshort
  · simp at hrun
  cases hbyte : data[start]? with
  | none => simp [hbyte] at hrun
  | some byte =>
      simp only [hbyte] at hrun
      split_ifs at hrun with hstart
      · simp at hrun
      rw [not_not] at hstart
      obtain ⟨vs, hat, hend, rfl, rfl⟩ := h _ _ _ _ _ _ hrun
      refine ⟨vs, ?_, ?_, by omega, List.nil_append _⟩
      · rw [Value.encode, at_cons]
        exact ⟨hstart ▸ hbyte, hat⟩
      · rw [encode_tuple_length]
        omega

theorem at_le_of_append {offset count : Nat} {bytes : List UInt8}
    (h : At data (offset + count) bytes) : offset + count ≤ data.length := by
  have := h.le_length
  omega

theorem exists_at {offset count : Nat} (h : offset + count ≤ data.length) :
    ∃ bytes : Bytes count, At data offset bytes.toList := by
  refine ⟨⟨(data.drop offset).take count, by simp; omega⟩, ?_⟩
  exact at_of_drop_eq (by omega) (List.take_append_drop count (data.drop offset)).symm

theorem exists_scalar_at {iter : Nat} {kind : Scalar}
    (hbyte : data[iter]? = some (Tag.scalar kind).byte)
    (hfit : iter + 1 + kind.width ≤ data.length) :
    ∃ payload, At data iter (Value.scalar kind payload).encode := by
  obtain ⟨payload, hpayload⟩ := exists_at hfit
  refine ⟨payload, ?_⟩
  rw [Value.encode, at_cons]
  exact ⟨hbyte, hpayload⟩

theorem exists_string_at {iter n : Nat} (hbyte : data[iter]? = some Tag.string.byte)
    (hn : strlen (data.drop (iter + 1)) = .ok n) :
    ∃ chars hnul, chars.length = n ∧ At data iter (Value.string chars hnul).encode := by
  obtain ⟨chars, after, hdrop, hlength, hnul⟩ := strlen_eq_ok hn
  refine ⟨chars, hnul, hlength, ?_⟩
  rw [Value.encode, at_cons]
  exact ⟨hbyte, at_of_drop_eq (at_singleton.mpr hbyte).le_length hdrop⟩

theorem exists_binary_at {iter : Nat} {size : List UInt8}
    (hbyte : data[iter]? = some Tag.binary.byte) (hsize : readBytes data (iter + 1) 4 = .ok size)
    (hfit : iter + 5 + littleEndian size ≤ data.length) :
    ∃ bytes hbytes, bytes.length = littleEndian size ∧
      At data iter (Value.binary bytes hbytes).encode := by
  obtain ⟨hlength, hat⟩ := readBytes_eq_ok.mp hsize
  have hlt : littleEndian size < 2 ^ 32 := by
    have hlt := littleEndian_lt size
    rw [hlength] at hlt
    exact hlt
  obtain ⟨bytes, hbytes⟩ := exists_at hfit
  refine ⟨bytes.toList, by rwa [bytes.length_eq], bytes.length_eq, ?_⟩
  rw [Value.encode, at_cons, at_append, bytes.length_eq, ← hlength, toLittleEndian_littleEndian,
    hlength]
  exact ⟨hbyte, hat, hbytes⟩

theorem elementsEncoded_step {fuel start iter iterEnd length : Nat}
    {elements found : List Element} (h : ElementsEncoded data fuel) (v : Value)
    (hv : At data iter v.encode)
    (hrun : parseElements data fuel start (iter + v.encode.length) iterEnd
      (elements ++ [v.layout iter]) = .ok (some (length, found))) :
    ∃ vs, At data iter (encodeAll vs ++ [Tag.tupleEnd.byte]) ∧
      iter + (encodeAll vs).length < iterEnd ∧
      length = iter + (encodeAll vs).length + 1 - start ∧
      found = elements ++ layoutAll iter vs := by
  obtain ⟨vs, hat, hend, rfl, rfl⟩ := h _ _ _ _ _ _ hrun
  refine ⟨v :: vs, ?_, ?_, ?_, ?_⟩
  · rw [encodeAll, List.append_assoc, at_append]
    exact ⟨hv, hat⟩
  · rw [encodeAll, List.length_append]
    omega
  · rw [encodeAll, List.length_append, Nat.add_assoc iter]
  · rw [layoutAll, List.append_assoc, List.singleton_append]

theorem elementsEncoded_succ {fuel : Nat} (htuple : TupleEncoded data fuel)
    (hrest : ElementsEncoded data fuel) : ElementsEncoded data (fuel + 1) := by
  intro start iter iterEnd elements length found hrun
  have hlt : iter < iterEnd := by
    by_contra hge
    rw [parseElements, if_pos (by omega)] at hrun
    simp at hrun
  cases hbyte : data[iter]? with
  | none =>
      rw [parseElements, if_neg (by omega), hbyte] at hrun
      simp at hrun
  | some byte =>
      cases htag : Tag.ofByte byte with
      | none =>
          rw [parseElements, if_neg (by omega), hbyte] at hrun
          simp [htag] at hrun
      | some tag =>
          rw [← Tag.byte_of_ofByte htag] at hbyte
          cases tag with
          | scalar kind =>
              rw [parseElements_scalar hbyte hlt] at hrun
              obtain ⟨vs, hat, -⟩ := hrest _ _ _ _ _ _ hrun
              obtain ⟨payload, hpayload⟩ := exists_scalar_at hbyte (at_le_of_append hat)
              refine elementsEncoded_step hrest (.scalar kind payload) hpayload ?_
              rw [encode_scalar_length, ← Nat.add_assoc]
              exact hrun
          | string =>
              rw [parseElements_string hbyte hlt, bind_eq_ok] at hrun
              obtain ⟨n, hn, hrun⟩ := hrun
              obtain ⟨chars, hnul, rfl, hchars⟩ := exists_string_at hbyte hn
              refine elementsEncoded_step hrest (.string chars hnul) hchars ?_
              rw [encode_string_length, ← Nat.add_assoc, ← Nat.add_assoc]
              exact hrun
          | binary =>
              rw [parseElements_binary hbyte hlt, bind_eq_ok] at hrun
              obtain ⟨size, hsize, hrun⟩ := hrun
              split_ifs at hrun with hfit
              obtain ⟨vs, hat, -⟩ := hrest _ _ _ _ _ _ hrun
              obtain ⟨bytes, hfits, hlength, hbytes⟩ :=
                exists_binary_at hbyte hsize (at_le_of_append hat)
              refine elementsEncoded_step hrest (.binary bytes hfits) hbytes ?_
              rw [encode_binary_length, hlength, ← Nat.add_assoc]
              exact hrun
          | tupleStart =>
              rw [parseElements_tuple hbyte hlt, bind_eq_ok] at hrun
              obtain ⟨result, hresult, hrun⟩ := hrun
              rcases result with _ | ⟨n, subElements⟩
              · simp at hrun
              obtain ⟨ws, hat, rfl, -, rfl⟩ := htuple _ _ _ _ hresult
              refine elementsEncoded_step hrest (.tuple ws) hat ?_
              rw [Value.layout, ← encode_tuple_length]
              exact hrun
          | tupleEnd =>
              rw [parseElements_end hbyte hlt, Except.ok.injEq, Option.some.injEq,
                Prod.mk.injEq] at hrun
              obtain ⟨rfl, rfl⟩ := hrun
              refine ⟨[], ?_, hlt, rfl, (List.append_nil _).symm⟩
              rw [encodeAll, List.nil_append, at_singleton]
              exact hbyte

theorem found_encoded (data : List UInt8) (fuel : Nat) :
    TupleEncoded data fuel ∧ ElementsEncoded data fuel := by
  induction fuel with
  | zero =>
      constructor
      · intro start available length found hrun
        simp [tupleParseAt] at hrun
      · intro start iter iterEnd elements length found hrun
        simp [parseElements] at hrun
  | succ fuel ih => exact ⟨tupleEncoded_succ ih.2, elementsEncoded_succ ih.1 ih.2⟩

end Soundness

/-- The parsed tuple is made of these values, encoded where it starts. -/
structure Represents (tuple : Tuple) (vs : List Value) : Prop where
  at_start : At tuple.data tuple.start (Value.tuple vs).encode
  length_eq : tuple.length = (Value.tuple vs).encode.length
  elements_eq : tuple.elements = layoutAll (tuple.start + 1) vs

/-- An encoded tuple is parsed, whatever follows it in memory. -/
theorem tupleParse_of_encode {buffer : Buffer} {vs : List Value} {after : List UInt8}
    (hdata : buffer.data = (Value.tuple vs).encode ++ after)
    (hlength : (Value.tuple vs).encode.length ≤ buffer.length) :
    ∃ tuple, tupleParse buffer = .ok (some tuple) ∧ Represents tuple vs := by
  have hat : At buffer.data 0 (Value.tuple vs).encode := ⟨[], after, hdata, rfl⟩
  have hrun := (finds_encoded buffer.data (2 * buffer.length + 1)).1 vs 0 buffer.length hat
    hlength (by omega)
  refine ⟨⟨buffer.data, 0, (Value.tuple vs).encode.length, layoutAll (0 + 1) vs⟩, ?_,
    hat, rfl, rfl⟩
  rw [tupleParse, hrun]

/-- Whatever the parser returns is an encoded tuple at the start of the buffer. -/
theorem represents_of_tupleParse {buffer : Buffer} {tuple : Tuple}
    (h : tupleParse buffer = .ok (some tuple)) :
    ∃ vs, Represents tuple vs ∧ tuple.length ≤ buffer.length := by
  rw [tupleParse] at h
  rcases hrun : tupleParseAt buffer.data (2 * buffer.length + 1) 0 buffer.length with
    e | _ | ⟨length, elements⟩
  · simp [hrun] at h
  · simp [hrun] at h
  · simp only [hrun, Except.ok.injEq, Option.some.injEq] at h
    subst h
    obtain ⟨vs, hat, hlength, hle, helements⟩ :=
      (found_encoded buffer.data (2 * buffer.length + 1)).1 _ _ _ _ hrun
    exact ⟨vs, ⟨hat, hlength, helements⟩, hle⟩

theorem parsed_at_start {buffer : Buffer} {tuple : Tuple}
    (h : tupleParse buffer = .ok (some tuple)) :
    tuple.start = 0 ∧ tuple.data = buffer.data := by
  rw [tupleParse] at h
  split at h
  · cases h
  · cases h
  · cases h
    exact ⟨rfl, rfl⟩

theorem layoutAll_getElem? (offset : Nat) (vs : List Value) (i : Nat) :
    (layoutAll offset vs)[i]? =
      vs[i]?.map fun v => v.layout (offset + (encodeAll (vs.take i)).length) := by
  induction vs generalizing offset i with
  | nil => rfl
  | cons v vs ih =>
      cases i with
      | zero => rfl
      | succ i =>
          rw [layoutAll, List.getElem?_cons_succ, ih, List.getElem?_cons_succ,
            List.take_succ_cons, encodeAll, List.length_append, Nat.add_assoc]

section Uniqueness

theorem nulTerminated_inj {as bs cs ds : List UInt8} (has : 0 ∉ as) (hbs : 0 ∉ bs)
    (h : as ++ 0 :: cs = bs ++ 0 :: ds) : as = bs ∧ cs = ds := by
  induction as generalizing bs with
  | nil =>
      rcases bs with _ | ⟨b, bs⟩
      · exact ⟨rfl, (List.cons.inj h).2⟩
      · exact absurd (List.cons.inj h).1 fun heq => hbs (heq ▸ List.mem_cons_self)
  | cons a as ih =>
      rw [List.mem_cons, not_or] at has
      rcases bs with _ | ⟨b, bs⟩
      · exact absurd (List.cons.inj h).1.symm has.1
      · rw [List.mem_cons, not_or] at hbs
        obtain ⟨rfl, hrest⟩ := List.cons.inj h
        obtain ⟨rfl, rfl⟩ := ih has.2 hbs.2 hrest
        exact ⟨rfl, rfl⟩

theorem tag_eq_of_append {v w : Value} {a b : List UInt8} (h : v.encode ++ a = w.encode ++ b) :
    v.tag = w.tag := by
  obtain ⟨bytes, hv⟩ := encode_head v
  obtain ⟨bytes', hw⟩ := encode_head w
  rw [hv, hw] at h
  exact Tag.byte_injective (List.cons.inj h).1

theorem tag_ne_tupleEnd (v : Value) : v.tag ≠ .tupleEnd := by
  cases v <;> simp [Value.tag]

mutual

/-- No encoding is a proper prefix of another, and none has two values. -/
theorem encode_append_inj (v w : Value) (a b : List UInt8)
    (h : v.encode ++ a = w.encode ++ b) : v = w ∧ a = b := by
  have htag := tag_eq_of_append h
  match v, w with
  | .scalar kind payload, .scalar kind' payload' =>
      cases htag
      simp only [Value.encode, List.cons_append, List.cons.injEq, true_and] at h
      obtain ⟨hpayload, rfl⟩ :=
        List.append_inj h (payload.length_eq.trans payload'.length_eq.symm)
      exact ⟨by rw [Bytes.ext hpayload], rfl⟩
  | .string chars nulFree, .string chars' nulFree' =>
      simp only [Value.encode, List.cons_append, List.cons.injEq, true_and, List.append_assoc,
        List.nil_append] at h
      obtain ⟨rfl, rfl⟩ := nulTerminated_inj nulFree nulFree' h
      exact ⟨rfl, rfl⟩
  | .binary bytes fits, .binary bytes' fits' =>
      simp only [Value.encode, List.cons_append, List.cons.injEq, true_and,
        List.append_assoc] at h
      obtain ⟨hsize, h⟩ := List.append_inj h (by simp)
      have hlength : bytes.length = bytes'.length := by
        rw [← littleEndian_toLittleEndian 4 bytes.length fits, hsize,
          littleEndian_toLittleEndian 4 bytes'.length fits']
      obtain ⟨rfl, rfl⟩ := List.append_inj h hlength
      exact ⟨rfl, rfl⟩
  | .tuple vs, .tuple ws =>
      simp only [Value.encode, List.cons_append, List.cons.injEq, true_and, List.append_assoc,
        List.nil_append] at h
      obtain ⟨rfl, rfl⟩ := encodeAll_append_inj vs ws a b h
      exact ⟨rfl, rfl⟩

theorem encodeAll_append_inj (vs ws : List Value) (a b : List UInt8)
    (h : encodeAll vs ++ Tag.tupleEnd.byte :: a = encodeAll ws ++ Tag.tupleEnd.byte :: b) :
    vs = ws ∧ a = b := by
  match vs, ws with
  | [], [] => exact ⟨rfl, (List.cons.inj h).2⟩
  | [], w :: ws =>
      obtain ⟨bytes, hw⟩ := encode_head w
      rw [encodeAll, encodeAll, hw] at h
      exact absurd (Tag.byte_injective (List.cons.inj h).1).symm (tag_ne_tupleEnd w)
  | v :: vs, [] =>
      obtain ⟨bytes, hv⟩ := encode_head v
      rw [encodeAll, encodeAll, hv] at h
      exact absurd (Tag.byte_injective (List.cons.inj h).1) (tag_ne_tupleEnd v)
  | v :: vs, w :: ws =>
      rw [encodeAll, encodeAll, List.append_assoc, List.append_assoc] at h
      obtain ⟨rfl, hrest⟩ := encode_append_inj v w _ _ h
      obtain ⟨rfl, rfl⟩ := encodeAll_append_inj vs ws a b hrest
      exact ⟨rfl, rfl⟩

end

theorem Represents.unique {tuple : Tuple} {vs ws : List Value} (hvs : Represents tuple vs)
    (hws : Represents tuple ws) : vs = ws := by
  obtain ⟨a, ha⟩ := hvs.at_start.drop_eq
  obtain ⟨b, hb⟩ := hws.at_start.drop_eq
  exact Value.tuple.inj (encode_append_inj _ _ a b (ha.symm.trans hb)).1

end Uniqueness

namespace Represents

variable {tuple : Tuple} {vs : List Value} (h : Represents tuple vs)

include h

theorem tupleSize_eq : tupleSize tuple = vs.length := by
  rw [tupleSize, h.elements_eq, layoutAll_length]

theorem bytes_eq : tuple.bytes = (Value.tuple vs).encode := by
  rw [Tuple.bytes, h.length_eq, h.at_start.take_drop]

theorem getElem? {i : Nat} {v : Value} (hi : vs[i]? = some v) :
    ∃ offset, tuple.elements[i]? = some (v.layout offset) ∧ At tuple.data offset v.encode := by
  refine ⟨tuple.start + 1 + (encodeAll (vs.take i)).length, ?_, ?_⟩
  · rw [h.elements_eq, layoutAll_getElem?, hi]
    rfl
  · obtain ⟨hlt, rfl⟩ := List.getElem?_eq_some_iff.mp hi
    have hat := h.at_start
    have hsplit : vs = vs.take i ++ vs[i] :: vs.drop (i + 1) := by
      rw [List.cons_getElem_drop_succ, List.take_append_drop]
    have hencode : encodeAll vs = encodeAll (vs.take i) ++ (vs[i].encode ++
        encodeAll (vs.drop (i + 1))) := by
      conv_lhs => rw [hsplit]
      rw [encodeAll_append, encodeAll]
    rw [Value.encode, at_cons, hencode, List.append_assoc, at_append, List.append_assoc,
      at_append] at hat
    exact hat.2.2.1

theorem listGet_eq {i : Nat} {v : Value} (hi : vs[i]? = some v) :
    ∃ offset, listGet tuple.elements i = .ok (v.layout offset) ∧
      At tuple.data offset v.encode := by
  obtain ⟨offset, hget, hat⟩ := h.getElem? hi
  exact ⟨offset, by rw [listGet, hget], hat⟩

theorem listGet_of_none {i : Nat} (hi : vs[i]? = none) :
    listGet tuple.elements i = .error .assertion := by
  rw [listGet, h.elements_eq, layoutAll_getElem?, hi]
  rfl

theorem tupleGetType_of_none {i : Nat} (hi : vs[i]? = none) :
    tupleGetType tuple i = .error .assertion := by
  rw [tupleGetType, h.listGet_of_none hi]
  rfl

theorem tupleGetType_eq {i : Nat} {v : Value} (hi : vs[i]? = some v) :
    tupleGetType tuple i = .ok v.tag.byte := by
  obtain ⟨offset, hget, hat⟩ := h.listGet_eq hi
  obtain ⟨bytes, hhead⟩ := encode_head v
  rw [hhead, at_cons] at hat
  rw [tupleGetType, hget]
  cases v with
  | tuple values => rw [Value.layout]; rfl
  | _ => simp only [ok_bind, Value.layout, hat.1]

theorem accessor_error {α : Type} {i : Nat} {tag : Tag}
    (hne : vs[i]?.map Value.tag ≠ some tag) (rest : Unit → Outcome α) :
    (tupleGetType tuple i >>= fun byte => require (byte = tag.byte) .assertion >>= rest) =
      .error .assertion := by
  cases hi : vs[i]? with
  | none => rw [h.tupleGetType_of_none hi, error_bind]
  | some v =>
      rw [hi, Option.map_some, ne_eq, Option.some.injEq] at hne
      rw [h.tupleGetType_eq hi, ok_bind,
        require_of_not _ _ fun heq => hne (Tag.byte_injective heq), error_bind]

theorem tupleGetScalar_eq {i : Nat} {kind : Scalar} {payload : Bytes kind.width}
    (hi : vs[i]? = some (.scalar kind payload)) :
    tupleGetScalar tuple kind i = .ok payload.toList := by
  obtain ⟨offset, hget, hat⟩ := h.listGet_eq hi
  rw [Value.encode, at_cons] at hat
  simp only [tupleGetScalar, h.tupleGetType_eq hi, ok_bind, Value.tag, require_true, hget,
    Value.layout]
  exact readBytes_eq_ok.mpr ⟨payload.length_eq, hat.2⟩

theorem tupleGetString_eq {i : Nat} {chars : List UInt8} {nulFree : 0 ∉ chars}
    (hi : vs[i]? = some (.string chars nulFree)) : tupleGetString tuple i = .ok chars := by
  obtain ⟨offset, hget, hat⟩ := h.listGet_eq hi
  rw [Value.encode, at_cons] at hat
  simp only [tupleGetString, h.tupleGetType_eq hi, ok_bind, Value.tag, require_true, hget,
    Value.layout, strlen_of_at hat.2 nulFree]
  exact readBytes_eq_ok.mpr ⟨rfl, (at_append.mp hat.2).1⟩

theorem tupleGetBinary_eq {i : Nat} {bytes : List UInt8} {fits : bytes.length < 2 ^ 32}
    (hi : vs[i]? = some (.binary bytes fits)) :
    ∃ after, tupleGetBinary tuple i = .ok ⟨bytes.length, bytes ++ after⟩ := by
  obtain ⟨offset, hget, hat⟩ := h.listGet_eq hi
  rw [Value.encode, at_cons, at_append, toLittleEndian_length] at hat
  obtain ⟨after, hafter⟩ := hat.2.2.drop_eq
  have hread := readBytes_eq_ok.mpr ⟨toLittleEndian_length 4 bytes.length, hat.2.1⟩
  refine ⟨after, ?_⟩
  simp only [tupleGetBinary, h.tupleGetType_eq hi, ok_bind, Value.tag, require_true, hget,
    Value.layout, hread, pure_eq_ok, littleEndian_toLittleEndian 4 bytes.length fits]
  rw [← hafter]

theorem tupleGetTuple_eq {i : Nat} {ws : List Value} (hi : vs[i]? = some (.tuple ws)) :
    ∃ sub, tupleGetTuple tuple i = .ok sub ∧ Represents sub ws := by
  obtain ⟨offset, hget, hat⟩ := h.listGet_eq hi
  refine ⟨⟨tuple.data, offset, (encodeAll ws).length + 2, layoutAll (offset + 1) ws⟩, ?_, hat,
    (encode_tuple_length ws).symm, rfl⟩
  simp only [tupleGetTuple, h.tupleGetType_eq hi, ok_bind, Value.tag, require_true, hget,
    Value.layout]

theorem tupleGetScalar_error {i : Nat} {kind : Scalar}
    (hne : vs[i]?.map Value.tag ≠ some (.scalar kind)) :
    tupleGetScalar tuple kind i = .error .assertion :=
  h.accessor_error hne _

theorem tupleGetString_error {i : Nat} (hne : vs[i]?.map Value.tag ≠ some .string) :
    tupleGetString tuple i = .error .assertion :=
  h.accessor_error hne _

theorem tupleGetBinary_error {i : Nat} (hne : vs[i]?.map Value.tag ≠ some .binary) :
    tupleGetBinary tuple i = .error .assertion :=
  h.accessor_error hne _

theorem tupleGetTuple_error {i : Nat} (hne : vs[i]?.map Value.tag ≠ some .tupleStart) :
    tupleGetTuple tuple i = .error .assertion :=
  h.accessor_error hne _

end Represents

end Whosecoin.TupleFormat

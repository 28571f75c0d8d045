import Whosecoin.TupleRoundTrip

namespace Whosecoin.TupleSetters

open Library.Outcomes
open Library.ByteStrings
open TupleParser
open TupleFormat
open TupleRoundTrip (TupleValue Reads reads_of_represents)

section Setters

/-- Store bytes at an offset. -/
def writeBytes (data : List UInt8) (offset : Nat) (bytes : List UInt8) : Outcome (List UInt8) :=
  if offset + bytes.length ≤ data.length then .ok (overwrite data offset bytes)
  else .error .outOfBounds

variable (tuple : Tuple) (i : Nat)

/-- The payload behind a tag that must be the given one. -/
def tupleSetScalar (kind : Scalar) (payload : List UInt8) : Outcome Tuple := do
  require ((← tupleGetType tuple i) = (Tag.scalar kind).byte) .assertion
  match ← listGet tuple.elements i with
  | .pointer offset => do
      let data ← writeBytes tuple.data (offset + 1) payload
      return { tuple with data }
  | .tuple _ _ _ => .error .assertion

def tupleSetI32 (v : Int32) : Outcome Tuple :=
  tupleSetScalar tuple i .i32 (toBigEndian 4 v.toUInt32.toNat)

def tupleSetI64 (v : Int64) : Outcome Tuple :=
  tupleSetScalar tuple i .i64 (toBigEndian 8 v.toUInt64.toNat)

def tupleSetU32 (v : UInt32) : Outcome Tuple :=
  tupleSetScalar tuple i .u32 (toBigEndian 4 v.toNat)

def tupleSetU64 (v : UInt64) : Outcome Tuple :=
  tupleSetScalar tuple i .u64 (toBigEndian 8 v.toNat)

/-- The bits of a `float` are stored as they are. -/
def tupleSetF32 (bits : UInt32) : Outcome Tuple :=
  tupleSetScalar tuple i .f32 (toLittleEndian 4 bits.toNat)

def tupleSetF64 (bits : UInt64) : Outcome Tuple :=
  tupleSetScalar tuple i .f64 (toLittleEndian 8 bits.toNat)

/-- The tag that is asserted is that of a `float`. -/
def tupleSetBool (v : Bool) : Outcome Tuple :=
  tupleSetScalar tuple i .f32 [if v then 1 else 0]

end Setters

/-- What a setter is given. The floats are bit patterns. -/
inductive ScalarValue where
  | i32 (v : Int32)
  | i64 (v : Int64)
  | u32 (v : UInt32)
  | u64 (v : UInt64)
  | f32 (bits : UInt32)
  | f64 (bits : UInt64)
  | bool (v : Bool)

namespace ScalarValue

def kind : ScalarValue → Scalar
  | .i32 _ => .i32
  | .i64 _ => .i64
  | .u32 _ => .u32
  | .u64 _ => .u64
  | .f32 _ => .f32
  | .f64 _ => .f64
  | .bool _ => .bool

def set (tuple : Tuple) (i : Nat) : ScalarValue → Outcome Tuple
  | .i32 v => tupleSetI32 tuple i v
  | .i64 v => tupleSetI64 tuple i v
  | .u32 v => tupleSetU32 tuple i v
  | .u64 v => tupleSetU64 tuple i v
  | .f32 bits => tupleSetF32 tuple i bits
  | .f64 bits => tupleSetF64 tuple i bits
  | .bool v => tupleSetBool tuple i v

theorem length_bool (v : Bool) : [if v then (1 : UInt8) else 0].length = 1 :=
  List.length_singleton

theorem length_i64 (v : Int64) : (toBigEndian 8 v.toUInt64.toNat).length = 8 :=
  toBigEndian_length 8 v.toUInt64.toNat

theorem length_f32 (bits : UInt32) : (toLittleEndian 4 bits.toNat).length = 4 :=
  toLittleEndian_length 4 bits.toNat

theorem length_f64 (bits : UInt64) : (toLittleEndian 8 bits.toNat).length = 8 :=
  toLittleEndian_length 8 bits.toNat

/-- The bytes that the setter stores. -/
def payload : (v : ScalarValue) → Bytes v.kind.width
  | .i32 v => ⟨toBigEndian 4 v.toUInt32.toNat, length_i32 v⟩
  | .i64 v => ⟨toBigEndian 8 v.toUInt64.toNat, length_i64 v⟩
  | .u32 v => ⟨toBigEndian 4 v.toNat, length_u32 v⟩
  | .u64 v => ⟨toBigEndian 8 v.toNat, length_u64 v⟩
  | .f32 bits => ⟨toLittleEndian 4 bits.toNat, length_f32 bits⟩
  | .f64 bits => ⟨toLittleEndian 8 bits.toNat, length_f64 bits⟩
  | .bool v => ⟨[if v then 1 else 0], length_bool v⟩

/-- The same value for the writers and the accessors. -/
def toTupleValue : ScalarValue → TupleValue
  | .i32 v => .i32 v
  | .i64 v => .i64 v
  | .u32 v => .u32 v
  | .u64 v => .u64 v
  | .f32 bits => .f32 bits
  | .f64 bits => .f64 bits
  | .bool v => .bool v

theorem toValue_toTupleValue (v : ScalarValue) :
    v.toTupleValue.toValue = .scalar v.kind v.payload := by
  cases v <;> rfl

theorem length_bytes_lt (v : ScalarValue) : v.toTupleValue.bytes.length < 2 ^ 32 := by
  cases v <;> simp [toTupleValue, TupleValue.bytes]

theorem set_eq {v : ScalarValue} (h : v.kind ≠ .bool) (tuple : Tuple) (i : Nat) :
    v.set tuple i = tupleSetScalar tuple i v.kind v.payload.toList := by
  cases v with
  | bool v => exact absurd rfl h
  | _ => rfl

theorem set_bool {v : ScalarValue} (h : v.kind = .bool) (tuple : Tuple) (i : Nat) :
    ∃ payload, v.set tuple i = tupleSetScalar tuple i .f32 payload := by
  cases v with
  | bool v => exact ⟨_, rfl⟩
  | _ => cases h

end ScalarValue

/-- The sub-tuple that `tuple_get_tuple` reaches along a path of indices. -/
def tupleAt (tuple : Tuple) : List Nat → Outcome Tuple
  | [] => .ok tuple
  | j :: path => tupleGetTuple tuple j >>= fun sub => tupleAt sub path

/-- Set an element of the sub-tuple at a path, in the memory of the whole tuple. -/
def tupleSetAt (tuple : Tuple) (path : List Nat) (i : Nat) (v : ScalarValue) : Outcome Tuple := do
  let sub ← tupleAt tuple path
  let sub ← v.set sub i
  return { tuple with data := sub.data }

/-- The bytes that belong to a buffer. -/
def ownBytes (buffer : Buffer) : List UInt8 :=
  buffer.data.take buffer.length

/-- The accessors return the same for an element of both tuples. The elements of a sub-tuple
are elements of their own. -/
structure SameElement (tuple tuple' : Tuple) (j : Nat) : Prop where
  type : tupleGetType tuple' j = tupleGetType tuple j
  scalar : ∀ kind, tupleGetScalar tuple' kind j = tupleGetScalar tuple kind j
  string : tupleGetString tuple' j = tupleGetString tuple j
  binary : (tupleGetBinary tuple' j).map ownBytes = (tupleGetBinary tuple j).map ownBytes

/-- The call returns and changes the value of the element, and nothing else of the tuple that
was parsed from the buffer. -/
def SetsLocally (buffer : Buffer) (tuple : Tuple) (path : List Nat) (i : Nat)
    (v : ScalarValue) : Prop :=
  ∃ data, tupleSetAt tuple path i v = .ok { tuple with data } ∧
    (∃ sub, tupleAt { tuple with data } path = .ok sub ∧ Reads sub i v.toTupleValue) ∧
    (∀ path', tupleAt { tuple with data } path' =
      (tupleAt tuple path').map fun sub => { sub with data }) ∧
    (∀ path' j sub, (path', j) ≠ (path, i) → tupleAt tuple path' = .ok sub →
      SameElement sub { sub with data } j) ∧
    tupleParse ⟨buffer.length, data⟩ = .ok (some { tuple with data })

section Values

/-- The values of the sub-tuple along a path of indices. -/
def valuesAt (vs : List Value) : List Nat → Option (List Value)
  | [] => some vs
  | j :: path =>
      match vs[j]? with
      | some (.tuple ws) => valuesAt ws path
      | _ => none

/-- The values with another one at an index of the sub-tuple. -/
def replaceAt (vs : List Value) (i : Nat) (w : Value) : List Nat → List Value
  | [] => vs.set i w
  | j :: path =>
      match vs[j]? with
      | some (.tuple ws) => vs.set j (.tuple (replaceAt ws i w path))
      | _ => vs

theorem valuesAt_cons {vs ws : List Value} {j : Nat} (hj : vs[j]? = some (.tuple ws))
    (path : List Nat) : valuesAt vs (j :: path) = valuesAt ws path := by
  rw [valuesAt, hj]

theorem valuesAt_cons_of_tag {vs : List Value} {j : Nat}
    (hj : vs[j]?.map Value.tag ≠ some .tupleStart) (path : List Nat) :
    valuesAt vs (j :: path) = none := by
  rw [valuesAt]
  split
  · rename_i ws hws
    rw [hws] at hj
    exact absurd rfl hj
  · rfl

theorem replaceAt_cons {vs ws : List Value} {j : Nat} (hj : vs[j]? = some (.tuple ws)) (i : Nat)
    (w : Value) (path : List Nat) :
    replaceAt vs i w (j :: path) = vs.set j (.tuple (replaceAt ws i w path)) := by
  rw [replaceAt, hj]

theorem exists_tuple_iff {v : Option Value} :
    v.map Value.tag = some .tupleStart ↔ ∃ ws, v = some (.tuple ws) := by
  constructor
  · intro h
    cases v with
    | none => cases h
    | some v =>
        cases v with
        | tuple ws => exact ⟨ws, rfl⟩
        | _ => cases h
  · rintro ⟨ws, rfl⟩
    rfl

theorem valuesAt_cons_eq_some {vs ws : List Value} {j : Nat} {path : List Nat} :
    valuesAt vs (j :: path) = some ws ↔
      ∃ us, vs[j]? = some (.tuple us) ∧ valuesAt us path = some ws := by
  constructor
  · intro h
    by_cases hj : vs[j]?.map Value.tag = some .tupleStart
    · obtain ⟨us, hus⟩ := exists_tuple_iff.mp hj
      rw [valuesAt_cons hus] at h
      exact ⟨us, hus, h⟩
    · rw [valuesAt_cons_of_tag hj] at h
      cases h
  · rintro ⟨us, hus, h⟩
    rw [valuesAt_cons hus, h]

/-- Two elements that are equal, or sub-tuples whatever is in them. -/
def Alike (v w : Option Value) : Prop :=
  v = w ∨ v.map Value.tag = some .tupleStart ∧ w.map Value.tag = some .tupleStart

theorem encodeAll_set {vs : List Value} {i : Nat} (hi : i < vs.length) (w : Value) :
    encodeAll (vs.set i w) =
      encodeAll (vs.take i) ++ (w.encode ++ encodeAll (vs.drop (i + 1))) := by
  rw [List.set_eq_take_append_cons_drop, if_pos hi, encodeAll_append, encodeAll]

theorem encodeAll_split {vs : List Value} {i : Nat} {v : Value} (hi : vs[i]? = some v) :
    encodeAll vs = encodeAll (vs.take i) ++ (v.encode ++ encodeAll (vs.drop (i + 1))) := by
  obtain ⟨hlt, rfl⟩ := List.getElem?_eq_some_iff.mp hi
  conv_lhs => rw [← List.set_getElem_self hlt]
  exact encodeAll_set hlt vs[i]

theorem layoutAll_set {vs : List Value} {i : Nat} {v w : Value} (hi : vs[i]? = some v)
    (hlength : w.encode.length = v.encode.length)
    (hlayout : ∀ offset, w.layout offset = v.layout offset) (offset : Nat) :
    layoutAll offset (vs.set i w) = layoutAll offset vs := by
  induction vs generalizing i offset with
  | nil => rfl
  | cons first vs ih =>
      cases i with
      | zero =>
          cases hi
          rw [List.set_cons_zero, layoutAll, layoutAll, hlength, hlayout]
      | succ i =>
          rw [List.set_cons_succ, layoutAll, layoutAll, ih hi]

end Values

section Places

variable {tuple : Tuple} {vs ws : List Value}

theorem getElem?_layout (h : Represents tuple vs) {j : Nat} {v : Value} (hj : vs[j]? = some v) :
    tuple.elements[j]? = some (v.layout (tuple.start + 1 + (encodeAll (vs.take j)).length)) := by
  rw [h.elements_eq, layoutAll_getElem?, hj]
  rfl

theorem exists_sub (h : Represents tuple vs) {j : Nat} (hj : vs[j]? = some (.tuple ws)) :
    ∃ sub, tupleGetTuple tuple j = .ok sub ∧ Represents sub ws ∧ sub.data = tuple.data ∧
      sub.start = tuple.start + 1 + (encodeAll (vs.take j)).length := by
  obtain ⟨sub, hsub, hrep⟩ := h.tupleGetTuple_eq hj
  have hget := getElem?_layout h hj
  refine ⟨sub, hsub, hrep, ?_⟩
  simp only [tupleGetTuple, h.tupleGetType_eq hj, ok_bind, Value.tag, require_true, listGet, hget,
    Value.layout, Except.ok.injEq] at hsub
  rw [← hsub]
  exact ⟨rfl, rfl⟩

theorem tupleAt_cons {sub : Tuple} {j : Nat} (hsub : tupleGetTuple tuple j = .ok sub)
    (path : List Nat) : tupleAt tuple (j :: path) = tupleAt sub path := by
  rw [tupleAt, hsub, ok_bind]

theorem tupleAt_of_valuesAt (h : Represents tuple vs) {path : List Nat}
    (hpath : valuesAt vs path = some ws) :
    ∃ sub, tupleAt tuple path = .ok sub ∧ Represents sub ws ∧ sub.data = tuple.data := by
  induction path generalizing tuple vs with
  | nil =>
      cases hpath
      exact ⟨tuple, rfl, h, rfl⟩
  | cons j path ih =>
      obtain ⟨us, hus, hpath⟩ := valuesAt_cons_eq_some.mp hpath
      obtain ⟨sub, hsub, hrep, hdata, -⟩ := exists_sub h hus
      obtain ⟨last, hlast, hrep', hdata'⟩ := ih hrep hpath
      rw [tupleAt_cons hsub]
      exact ⟨last, hlast, hrep', hdata'.trans hdata⟩

theorem tupleAt_of_valuesAt_none (h : Represents tuple vs) {path : List Nat}
    (hpath : valuesAt vs path = none) : tupleAt tuple path = .error .assertion := by
  induction path generalizing tuple vs with
  | nil => cases hpath
  | cons j path ih =>
      by_cases hj : vs[j]?.map Value.tag = some .tupleStart
      · obtain ⟨us, hus⟩ := exists_tuple_iff.mp hj
        rw [valuesAt_cons hus] at hpath
        obtain ⟨sub, hsub, hrep, -⟩ := exists_sub h hus
        rw [tupleAt_cons hsub]
        exact ih hrep hpath
      · rw [tupleAt, h.tupleGetTuple_error hj, error_bind]

theorem valuesAt_of_tupleAt (h : Represents tuple vs) {path : List Nat} {sub : Tuple}
    (hsub : tupleAt tuple path = .ok sub) :
    ∃ ws, valuesAt vs path = some ws ∧ Represents sub ws ∧ sub.data = tuple.data := by
  cases hpath : valuesAt vs path with
  | none =>
      rw [tupleAt_of_valuesAt_none h hpath] at hsub
      cases hsub
  | some ws =>
      obtain ⟨sub', hsub', hrep, hdata⟩ := tupleAt_of_valuesAt h hpath
      rw [hsub] at hsub'
      cases hsub'
      exact ⟨ws, rfl, hrep, hdata⟩

/-- The payload of a scalar stands between `pre` and `post` in the encoding of the values. -/
structure Place (vs : List Value) (path : List Nat) (i : Nat) (kind : Scalar)
    (payload : Bytes kind.width) (pre post : List UInt8) : Prop where
  encode_eq : encodeAll vs = pre ++ (payload.toList ++ post)
  replace_eq : ∀ payload', encodeAll (replaceAt vs i (.scalar kind payload') path) =
    pre ++ (payload'.toList ++ post)
  layout_eq : ∀ payload' offset,
    layoutAll offset (replaceAt vs i (.scalar kind payload') path) = layoutAll offset vs
  pointer_eq : ∀ tuple, Represents tuple vs → ∃ sub, tupleAt tuple path = .ok sub ∧
    sub.elements[i]? = some (.pointer (tuple.start + pre.length))

theorem place_nil {i : Nat} {kind : Scalar} {payload : Bytes kind.width}
    (hi : vs[i]? = some (.scalar kind payload)) :
    Place vs [] i kind payload (encodeAll (vs.take i) ++ [(Tag.scalar kind).byte])
      (encodeAll (vs.drop (i + 1))) where
  encode_eq := by
    rw [encodeAll_split hi, Value.encode, List.append_assoc]
    rfl
  replace_eq := by
    intro payload'
    rw [replaceAt, encodeAll_set (List.getElem?_eq_some_iff.mp hi).1, Value.encode,
      List.append_assoc]
    rfl
  layout_eq := by
    intro payload' offset
    apply layoutAll_set hi
    · rw [encode_scalar_length, encode_scalar_length]
    · intro offset
      rfl
  pointer_eq := by
    intro tuple h
    refine ⟨tuple, rfl, ?_⟩
    rw [getElem?_layout h hi, Value.layout, List.length_append, List.length_singleton]
    congr 2
    omega

/-- One level further out, what is before the sub-tuple and its own tags come around it. -/
theorem Place.cons {us : List Value} {j : Nat} (hj : vs[j]? = some (.tuple us)) {path : List Nat}
    {i : Nat} {kind : Scalar} {payload : Bytes kind.width} {pre post : List UInt8}
    (h : Place us path i kind payload pre post) :
    Place vs (j :: path) i kind payload (encodeAll (vs.take j) ++ Tag.tupleStart.byte :: pre)
      (post ++ Tag.tupleEnd.byte :: encodeAll (vs.drop (j + 1))) where
  encode_eq := by
    rw [encodeAll_split hj, Value.encode, h.encode_eq]
    simp only [List.append_assoc, List.cons_append, List.nil_append]
  replace_eq := by
    intro payload'
    rw [replaceAt_cons hj, encodeAll_set (List.getElem?_eq_some_iff.mp hj).1, Value.encode,
      h.replace_eq]
    simp only [List.append_assoc, List.cons_append, List.nil_append]
  layout_eq := by
    intro payload' offset
    have hlength : (encodeAll (replaceAt us i (.scalar kind payload') path)).length =
        (encodeAll us).length := by
      rw [h.replace_eq, h.encode_eq, List.length_append, List.length_append, List.length_append,
        List.length_append, payload.length_eq, payload'.length_eq]
    rw [replaceAt_cons hj]
    apply layoutAll_set hj
    · rw [encode_tuple_length, encode_tuple_length, hlength]
    · intro offset
      rw [Value.layout, Value.layout, hlength, h.layout_eq]
  pointer_eq := by
    intro tuple hrep
    obtain ⟨sub, hsub, hrep', -, hstart⟩ := exists_sub hrep hj
    obtain ⟨last, hlast, hpointer⟩ := h.pointer_eq sub hrep'
    refine ⟨last, ?_, ?_⟩
    · rw [tupleAt_cons hsub]
      exact hlast
    · rw [hpointer, hstart, List.length_append, List.length_cons]
      congr 2
      omega

theorem exists_place {path : List Nat} {i : Nat} {kind : Scalar} {payload : Bytes kind.width}
    (hpath : valuesAt vs path = some ws) (hi : ws[i]? = some (.scalar kind payload)) :
    ∃ pre post, Place vs path i kind payload pre post := by
  induction path generalizing vs with
  | nil =>
      cases hpath
      exact ⟨_, _, place_nil hi⟩
  | cons j path ih =>
      obtain ⟨us, hus, hpath⟩ := valuesAt_cons_eq_some.mp hpath
      obtain ⟨pre, post, hplace⟩ := ih hpath
      exact ⟨_, _, hplace.cons hus⟩

end Places

section Setting

variable {tuple : Tuple} {vs ws : List Value}

theorem overwrite_middle (before old after new : List UInt8) (h : new.length = old.length) :
    overwrite (before ++ (old ++ after)) before.length new = before ++ (new ++ after) := by
  rw [overwrite, List.take_left, h, List.drop_append, List.drop_eq_nil_of_le (by omega),
    List.nil_append, Nat.add_sub_cancel_left, List.drop_left]

theorem Place.represents {path : List Nat} {i : Nat} {kind : Scalar}
    {payload : Bytes kind.width} {pre post : List UInt8}
    (hplace : Place vs path i kind payload pre post) (h : Represents tuple vs)
    (payload' : Bytes kind.width) :
    ∃ data, writeBytes tuple.data (tuple.start + pre.length + 1) payload'.toList = .ok data ∧
      Represents { tuple with data } (replaceAt vs i (.scalar kind payload') path) := by
  obtain ⟨before, after, hdata, hbefore⟩ := h.at_start
  have hlength : payload'.toList.length = payload.toList.length := by
    rw [payload.length_eq, payload'.length_eq]
  have hsplit : tuple.data = (before ++ Tag.tupleStart.byte :: pre) ++
      (payload.toList ++ (post ++ Tag.tupleEnd.byte :: after)) := by
    rw [hdata, Value.encode, hplace.encode_eq]
    simp only [List.append_assoc, List.cons_append, List.nil_append]
  have hoffset :
      tuple.start + pre.length + 1 = (before ++ Tag.tupleStart.byte :: pre).length := by
    rw [List.length_append, List.length_cons, hbefore]
    omega
  refine ⟨(before ++ Tag.tupleStart.byte :: pre) ++
    (payload'.toList ++ (post ++ Tag.tupleEnd.byte :: after)), ?_, ?_⟩
  · rw [writeBytes, hoffset, hsplit, if_pos, overwrite_middle _ _ _ _ hlength]
    simp only [List.length_append, hlength]
    omega
  · constructor
    · refine ⟨before, after, ?_, hbefore⟩
      rw [Value.encode, hplace.replace_eq]
      simp only [List.append_assoc, List.cons_append, List.nil_append]
    · change tuple.length = _
      rw [h.length_eq, encode_tuple_length, encode_tuple_length, hplace.replace_eq,
        hplace.encode_eq]
      simp only [List.length_append, hlength]
    · change tuple.elements = _
      rw [h.elements_eq]
      exact (hplace.layout_eq payload' _).symm

theorem tupleSetScalar_eq {i : Nat} {kind : Scalar} {payload : Bytes kind.width} {offset : Nat}
    (h : Represents tuple vs) (hi : vs[i]? = some (.scalar kind payload))
    (hpointer : tuple.elements[i]? = some (.pointer offset)) {new data : List UInt8}
    (hwrite : writeBytes tuple.data (offset + 1) new = .ok data) :
    tupleSetScalar tuple i kind new = .ok { tuple with data } := by
  simp only [tupleSetScalar, h.tupleGetType_eq hi, ok_bind, Value.tag, require_true, listGet,
    hpointer, hwrite, pure_eq_ok]

theorem tupleSetScalar_error {i : Nat} {kind : Scalar} {new : List UInt8} {byte : UInt8}
    (htype : tupleGetType tuple i = .ok byte) (hne : byte ≠ (Tag.scalar kind).byte) :
    tupleSetScalar tuple i kind new = .error .assertion := by
  rw [tupleSetScalar, htype, ok_bind, require_of_not _ _ hne, error_bind]

theorem exists_scalar {i : Nat} {kind : Scalar} (h : Represents tuple vs)
    (htype : tupleGetType tuple i = .ok (Tag.scalar kind).byte) :
    ∃ payload, vs[i]? = some (.scalar kind payload) := by
  cases hi : vs[i]? with
  | none =>
      rw [h.tupleGetType_of_none hi] at htype
      cases htype
  | some w =>
      rw [h.tupleGetType_eq hi] at htype
      have htag := Tag.byte_injective (Except.ok.inj htype)
      cases w with
      | scalar kind' payload =>
          cases htag
          exact ⟨payload, rfl⟩
      | _ => cases htag

/-- A setter that asserts the right tag replaces the value. -/
theorem tupleSetAt_eq {path : List Nat} {i : Nat} {v : ScalarValue} (hv : v.kind ≠ .bool)
    {payload : Bytes v.kind.width} (h : Represents tuple vs) (hpath : valuesAt vs path = some ws)
    (hi : ws[i]? = some (.scalar v.kind payload)) :
    ∃ data, tupleSetAt tuple path i v = .ok { tuple with data } ∧
      Represents { tuple with data } (replaceAt vs i (.scalar v.kind v.payload) path) := by
  obtain ⟨pre, post, hplace⟩ := exists_place hpath hi
  obtain ⟨data, hwrite, hrep⟩ := hplace.represents h v.payload
  obtain ⟨sub, hsub, hpointer⟩ := hplace.pointer_eq tuple h
  obtain ⟨sub', hsub', hrep', hdata⟩ := tupleAt_of_valuesAt h hpath
  rw [hsub] at hsub'
  cases hsub'
  rw [← hdata] at hwrite
  refine ⟨data, ?_, hrep⟩
  rw [tupleSetAt, hsub, ok_bind, v.set_eq hv, tupleSetScalar_eq hrep' hi hpointer hwrite]
  rfl

end Setting

section Others

variable {vs ws : List Value}

theorem Alike.refl (v : Option Value) : Alike v v :=
  Or.inl rfl

theorem valuesAt_congr {vs vs' : List Value} {j : Nat} (hj : vs'[j]? = vs[j]?) (path : List Nat) :
    valuesAt vs' (j :: path) = valuesAt vs (j :: path) := by
  rw [valuesAt, valuesAt, hj]

/-- The lists of values along a path, in two lists of which only the element at the second place
differs. -/
def AlikeExcept (place : List Nat × Nat) (path' : List Nat)
    (us us' : Option (List Value)) : Prop :=
  us = none ∧ us' = none ∨
    ∃ ws ws', us = some ws ∧ us' = some ws' ∧
      ∀ j, (path', j) ≠ place → Alike ws[j]? ws'[j]?

theorem AlikeExcept.refl (place : List Nat × Nat) (path' : List Nat) (us : Option (List Value)) :
    AlikeExcept place path' us us := by
  cases us with
  | none => exact Or.inl ⟨rfl, rfl⟩
  | some ws => exact Or.inr ⟨ws, ws, rfl, rfl, fun j _ => Alike.refl ws[j]?⟩

theorem alikeExcept_set {i : Nat} {kind : Scalar} {payload payload' : Bytes kind.width}
    (hi : vs[i]? = some (.scalar kind payload)) (path' : List Nat) :
    AlikeExcept ([], i) path' (valuesAt vs path')
      (valuesAt (vs.set i (.scalar kind payload')) path') := by
  cases path' with
  | nil =>
      refine Or.inr ⟨vs, vs.set i (.scalar kind payload'), rfl, rfl, ?_⟩
      intro j hj
      rw [List.getElem?_set_ne]
      · exact Alike.refl vs[j]?
      · rintro rfl
        exact hj rfl
  | cons k path' =>
      rcases eq_or_ne i k with rfl | hk
      · have hlt := (List.getElem?_eq_some_iff.mp hi).1
        left
        constructor
        · apply valuesAt_cons_of_tag
          rw [hi]
          simp [Value.tag]
        · apply valuesAt_cons_of_tag
          rw [List.getElem?_set_self hlt]
          simp [Value.tag]
      · rw [valuesAt_congr (List.getElem?_set_ne hk)]
        exact AlikeExcept.refl _ _ _

theorem AlikeExcept.cons {us us' : List Value} {p i : Nat} {path : List Nat}
    (hp : vs[p]? = some (.tuple us))
    (h : ∀ path', AlikeExcept (path, i) path' (valuesAt us path') (valuesAt us' path'))
    (path' : List Nat) :
    AlikeExcept (p :: path, i) path' (valuesAt vs path')
      (valuesAt (vs.set p (.tuple us')) path') := by
  have hset : (vs.set p (.tuple us'))[p]? = some (.tuple us') :=
    List.getElem?_set_self (List.getElem?_eq_some_iff.mp hp).1
  cases path' with
  | nil =>
      refine Or.inr ⟨_, _, rfl, rfl, ?_⟩
      intro j _
      rcases eq_or_ne p j with rfl | hj
      · right
        rw [hp, hset]
        exact ⟨rfl, rfl⟩
      · rw [List.getElem?_set_ne hj]
        exact Alike.refl vs[j]?
  | cons k path' =>
      rcases eq_or_ne p k with rfl | hk
      · rw [valuesAt_cons hp, valuesAt_cons hset]
        rcases h path' with hnone | ⟨ws, ws', hws, hws', hsame⟩
        · exact Or.inl hnone
        · refine Or.inr ⟨ws, ws', hws, hws', ?_⟩
          intro j hj
          apply hsame
          rintro heq
          apply hj
          cases heq
          rfl
      · rw [valuesAt_congr (List.getElem?_set_ne hk)]
        exact AlikeExcept.refl _ _ _

/-- The replacement changes one element; around it the sub-tuples stay sub-tuples. -/
theorem valuesAt_replaceAt {path : List Nat} {i : Nat} {kind : Scalar}
    {payload payload' : Bytes kind.width} (hpath : valuesAt vs path = some ws)
    (hi : ws[i]? = some (.scalar kind payload)) (path' : List Nat) :
    AlikeExcept (path, i) path' (valuesAt vs path')
      (valuesAt (replaceAt vs i (.scalar kind payload') path) path') := by
  induction path generalizing vs path' with
  | nil =>
      cases hpath
      exact alikeExcept_set hi path'
  | cons p path ih =>
      obtain ⟨us, hus, hpath⟩ := valuesAt_cons_eq_some.mp hpath
      rw [replaceAt_cons hus]
      exact AlikeExcept.cons hus (ih hpath) path'

theorem valuesAt_replaceAt_self {path : List Nat} (hpath : valuesAt vs path = some ws) (i : Nat)
    (w : Value) : valuesAt (replaceAt vs i w path) path = some (ws.set i w) := by
  induction path generalizing vs with
  | nil =>
      cases hpath
      rfl
  | cons j path ih =>
      obtain ⟨us, hus, hpath⟩ := valuesAt_cons_eq_some.mp hpath
      have hlt := (List.getElem?_eq_some_iff.mp hus).1
      rw [replaceAt_cons hus, valuesAt_cons (List.getElem?_set_self hlt)]
      exact ih hpath

end Others

section Accessors

variable {tuple tuple' : Tuple} {vs vs' : List Value} {j : Nat}

theorem Alike.tag_eq {v v' : Option Value} (h : Alike v v') :
    v'.map Value.tag = v.map Value.tag := by
  rcases h with rfl | ⟨hv, hv'⟩
  · rfl
  · rw [hv, hv']

/-- What is computed from one of two elements that are alike, if both computations refuse all
other tags than a given one, which is not that of a sub-tuple. -/
theorem Alike.outcome_eq {v v' : Option Value} (h : Alike v v') {α : Type} {x x' : Outcome α}
    {tag : Tag} (herror : v.map Value.tag ≠ some tag → x = .error .assertion)
    (herror' : v'.map Value.tag ≠ some tag → x' = .error .assertion) (hne : tag ≠ .tupleStart)
    (hsame : ∀ w, v = some w → v' = some w → w.tag = tag → x' = x) : x' = x := by
  by_cases htag : v.map Value.tag = some tag
  · obtain ⟨w, hw, heq⟩ := Option.map_eq_some_iff.mp htag
    rcases h with rfl | ⟨hv, -⟩
    · exact hsame w hw hw heq
    · rw [htag] at hv
      exact absurd (Option.some.inj hv) hne
  · have htag' : v'.map Value.tag ≠ some tag := by
      rw [h.tag_eq]
      exact htag
    rw [herror htag, herror' htag']

theorem sameElement_type (h : Represents tuple vs) (h' : Represents tuple' vs')
    (hj : Alike vs[j]? vs'[j]?) : tupleGetType tuple' j = tupleGetType tuple j := by
  have htag := hj.tag_eq
  cases hv : vs[j]? with
  | none =>
      rw [hv, Option.map_none, Option.map_eq_none_iff] at htag
      rw [h.tupleGetType_of_none hv, h'.tupleGetType_of_none htag]
  | some v =>
      rw [hv, Option.map_some, Option.map_eq_some_iff] at htag
      obtain ⟨v', hv', heq⟩ := htag
      rw [h.tupleGetType_eq hv, h'.tupleGetType_eq hv', heq]

theorem sameElement_scalar (h : Represents tuple vs) (h' : Represents tuple' vs')
    (hj : Alike vs[j]? vs'[j]?) (kind : Scalar) :
    tupleGetScalar tuple' kind j = tupleGetScalar tuple kind j := by
  have hne : Tag.scalar kind ≠ .tupleStart := by
    intro h
    cases h
  refine hj.outcome_eq h.tupleGetScalar_error h'.tupleGetScalar_error hne ?_
  intro w hw hw' htag
  cases w with
  | scalar kind' payload =>
      cases htag
      rw [h.tupleGetScalar_eq hw, h'.tupleGetScalar_eq hw']
  | _ => cases htag

theorem sameElement_string (h : Represents tuple vs) (h' : Represents tuple' vs')
    (hj : Alike vs[j]? vs'[j]?) : tupleGetString tuple' j = tupleGetString tuple j := by
  refine hj.outcome_eq h.tupleGetString_error h'.tupleGetString_error nofun ?_
  intro w hw hw' htag
  cases w with
  | string chars nulFree => rw [h.tupleGetString_eq hw, h'.tupleGetString_eq hw']
  | _ => cases htag

theorem tupleGetBinary_map {bytes : List UInt8} {fits : bytes.length < 2 ^ 32}
    (h : Represents tuple vs) (hj : vs[j]? = some (.binary bytes fits)) :
    (tupleGetBinary tuple j).map ownBytes = .ok bytes := by
  obtain ⟨after, hget⟩ := h.tupleGetBinary_eq hj
  rw [hget, Except.map, ownBytes, List.take_left]

theorem sameElement_binary (h : Represents tuple vs) (h' : Represents tuple' vs')
    (hj : Alike vs[j]? vs'[j]?) :
    (tupleGetBinary tuple' j).map ownBytes = (tupleGetBinary tuple j).map ownBytes := by
  have herror : ∀ {t us}, Represents t us → us[j]?.map Value.tag ≠ some .binary →
      (tupleGetBinary t j).map ownBytes = .error .assertion := by
    intro t us hrep hne
    rw [hrep.tupleGetBinary_error hne, Except.map]
  refine hj.outcome_eq (herror h) (herror h') nofun ?_
  intro w hw hw' htag
  cases w with
  | binary bytes fits => rw [tupleGetBinary_map h hw, tupleGetBinary_map h' hw']
  | _ => cases htag

theorem sameElement_of_alike (h : Represents tuple vs) (h' : Represents tuple' vs')
    (hj : Alike vs[j]? vs'[j]?) : SameElement tuple tuple' j where
  type := sameElement_type h h' hj
  scalar := sameElement_scalar h h' hj
  string := sameElement_string h h' hj
  binary := sameElement_binary h h' hj

theorem tupleGetTuple_data {data : List UInt8} {sub sub' : Tuple}
    (hsub : tupleGetTuple tuple j = .ok sub)
    (hsub' : tupleGetTuple { tuple with data } j = .ok sub') : sub' = { sub with data } := by
  simp only [tupleGetTuple, bind_eq_ok] at hsub hsub'
  obtain ⟨-, -, -, -, element, helement, hsub⟩ := hsub
  obtain ⟨-, -, -, -, element', helement', hsub'⟩ := hsub'
  rw [helement] at helement'
  cases helement'
  cases element with
  | pointer offset => cases hsub
  | tuple start length elements =>
      cases hsub
      cases hsub'
      rfl

theorem tupleAt_data {data : List UInt8} {sub sub' : Tuple} {path : List Nat}
    (hsub : tupleAt tuple path = .ok sub) (hsub' : tupleAt { tuple with data } path = .ok sub') :
    sub' = { sub with data } := by
  induction path generalizing tuple with
  | nil =>
      cases hsub
      cases hsub'
      rfl
  | cons j path ih =>
      rw [tupleAt, bind_eq_ok] at hsub hsub'
      obtain ⟨first, hfirst, hsub⟩ := hsub
      obtain ⟨first', hfirst', hsub'⟩ := hsub'
      rw [tupleGetTuple_data hfirst hfirst'] at hsub'
      exact ih hsub hsub'

end Accessors

section Main

variable {buffer : Buffer} {tuple : Tuple} {vs ws : List Value} {data : List UInt8}

theorem eq_of_represents {tuple' : Tuple} (h : Represents tuple vs) (h' : Represents tuple' vs)
    (hdata : tuple'.data = tuple.data) (hstart : tuple'.start = tuple.start) :
    tuple' = tuple := by
  have hlength := h'.length_eq.trans h.length_eq.symm
  have helements : tuple'.elements = tuple.elements := by
    rw [h'.elements_eq, h.elements_eq, hstart]
  cases tuple
  cases tuple'
  cases hdata
  cases hstart
  cases hlength
  cases helements
  rfl

theorem tupleParse_data (hparse : tupleParse buffer = .ok (some tuple))
    (h : Represents { tuple with data } vs) :
    tupleParse ⟨buffer.length, data⟩ = .ok (some { tuple with data }) := by
  obtain ⟨hstart, -⟩ := parsed_at_start hparse
  obtain ⟨-, -, hfits⟩ := represents_of_tupleParse hparse
  obtain ⟨before, after, hdata, hbefore⟩ := h.at_start
  have hnil : before = [] := List.eq_nil_of_length_eq_zero (hbefore.trans hstart)
  rw [hnil, List.nil_append] at hdata
  have hlength : (Value.tuple vs).encode.length ≤ buffer.length := by
    rw [← h.length_eq]
    exact hfits
  obtain ⟨again, hagain, hrep⟩ :=
    @tupleParse_of_encode ⟨buffer.length, data⟩ vs after hdata hlength
  obtain ⟨hstart', hdata'⟩ := parsed_at_start hagain
  rw [hagain, eq_of_represents h hrep hdata' (hstart'.trans hstart.symm)]

section Frame

variable {vs' : List Value} {place : List Nat × Nat} {path : List Nat}

theorem tupleAt_map (h : Represents tuple vs) (h' : Represents { tuple with data } vs')
    (hsame : AlikeExcept place path (valuesAt vs path) (valuesAt vs' path)) :
    tupleAt { tuple with data } path = (tupleAt tuple path).map fun sub => { sub with data } := by
  rcases hsame with ⟨hnone, hnone'⟩ | ⟨us, us', hus, hus', -⟩
  · rw [tupleAt_of_valuesAt_none h hnone, tupleAt_of_valuesAt_none h' hnone']
    rfl
  · obtain ⟨sub, hsub, -⟩ := tupleAt_of_valuesAt h hus
    obtain ⟨sub', hsub', -⟩ := tupleAt_of_valuesAt h' hus'
    rw [hsub', hsub, tupleAt_data hsub hsub']
    rfl

theorem sameElement_of_ne (h : Represents tuple vs) (h' : Represents { tuple with data } vs')
    (hsame : AlikeExcept place path (valuesAt vs path) (valuesAt vs' path)) {j : Nat}
    (hj : (path, j) ≠ place) {sub : Tuple} (hsub : tupleAt tuple path = .ok sub) :
    SameElement sub { sub with data } j := by
  obtain ⟨us, hus, hrep, -⟩ := valuesAt_of_tupleAt h hsub
  rcases hsame with ⟨hnone, -⟩ | ⟨us₁, us₂, hus₁, hus₂, halike⟩
  · rw [hus] at hnone
    cases hnone
  · rw [hus] at hus₁
    cases hus₁
    obtain ⟨sub', hsub', hrep', -⟩ := tupleAt_of_valuesAt h' hus₂
    rw [tupleAt_data hsub hsub'] at hrep'
    exact sameElement_of_alike hrep hrep' (halike j hj)

end Frame

theorem setsLocally {path : List Nat} {i : Nat} {v : ScalarValue} {payload : Bytes v.kind.width}
    (hparse : tupleParse buffer = .ok (some tuple)) (h : Represents tuple vs)
    (hpath : valuesAt vs path = some ws) (hi : ws[i]? = some (.scalar v.kind payload))
    (hv : v.kind ≠ .bool) : SetsLocally buffer tuple path i v := by
  obtain ⟨data, hset, h'⟩ := tupleSetAt_eq hv h hpath hi
  have hsame := @valuesAt_replaceAt vs ws path i v.kind payload v.payload hpath hi
  refine ⟨data, hset, ?_, ?_, ?_, tupleParse_data hparse h'⟩
  · have hself := valuesAt_replaceAt_self hpath i (.scalar v.kind v.payload)
    obtain ⟨sub, hsub, hrep, -⟩ := tupleAt_of_valuesAt h' hself
    refine ⟨sub, hsub, reads_of_represents hrep v.toTupleValue v.length_bytes_lt i ?_⟩
    rw [v.toValue_toTupleValue, List.getElem?_set_self (List.getElem?_eq_some_iff.mp hi).1]
  · intro path'
    exact tupleAt_map h h' (hsame path')
  · intro path' j sub hj hsub
    exact sameElement_of_ne h h' (hsame path') hj hsub

theorem tupleSetAt_bool {path : List Nat} {i : Nat} {v : ScalarValue} {sub : Tuple}
    (hsub : tupleAt tuple path = .ok sub)
    (htype : tupleGetType sub i = .ok (Tag.scalar v.kind).byte) (hv : v.kind = .bool) :
    tupleSetAt tuple path i v = .error .assertion := by
  obtain ⟨payload, hset⟩ := v.set_bool hv sub i
  have hne : (Tag.scalar v.kind).byte ≠ (Tag.scalar .f32).byte := by
    rw [hv]
    decide
  rw [tupleSetAt, hsub, ok_bind, hset, tupleSetScalar_error htype hne, error_bind]

/-- For every kind of scalar but the booleans, the setters are local. -/
theorem set_locally_iff (hparse : tupleParse buffer = .ok (some tuple)) {path : List Nat}
    {sub : Tuple} (hsub : tupleAt tuple path = .ok sub) {i : Nat} {v : ScalarValue}
    (htype : tupleGetType sub i = .ok (Tag.scalar v.kind).byte) :
    SetsLocally buffer tuple path i v ↔ v.kind ≠ .bool := by
  obtain ⟨vs, h, -⟩ := represents_of_tupleParse hparse
  obtain ⟨ws, hpath, hrep, -⟩ := valuesAt_of_tupleAt h hsub
  obtain ⟨payload, hi⟩ := exists_scalar hrep htype
  constructor
  · rintro ⟨data, hset, -⟩ hv
    rw [tupleSetAt_bool hsub htype hv] at hset
    cases hset
  · intro hv
    exact setsLocally hparse h hpath hi hv

end Main

/-- A tuple of a `bool` and a tuple of a `uint32_t`. -/
def nestedBuffer : Buffer :=
  ⟨11, [40, 98, 1, 40, 117, 0, 0, 0, 7, 41, 41]⟩

def nestedTuple : Tuple :=
  ⟨nestedBuffer.data, 0, 11, [.pointer 1, .tuple 3 7 [.pointer 4]]⟩

theorem tupleParse_nested : tupleParse nestedBuffer = .ok (some nestedTuple) := by
  have h : Represents nestedTuple
      [.scalar .bool ⟨[1], rfl⟩, .tuple [.scalar .u32 ⟨[0, 0, 0, 7], rfl⟩]] :=
    ⟨⟨[], [], rfl, rfl⟩, rfl, rfl⟩
  obtain ⟨tuple, hparse, h'⟩ := @tupleParse_of_encode nestedBuffer _ [] rfl h.length_eq.ge
  obtain ⟨hstart, hdata⟩ := parsed_at_start hparse
  rw [hparse, eq_of_represents h h' hdata hstart]

theorem set_locally_iff_nested :
    SetsLocally nestedBuffer nestedTuple [1] 0 (.u32 9) ↔ (ScalarValue.u32 9).kind ≠ .bool :=
  @set_locally_iff nestedBuffer nestedTuple tupleParse_nested [1]
    ⟨nestedBuffer.data, 3, 7, [.pointer 4]⟩ rfl 0 (.u32 9) rfl

/-- The assertion on the tag fails for a `bool`. -/
theorem set_bool_asserts :
    tupleParse nestedBuffer = .ok (some nestedTuple) ∧
      tupleGetType nestedTuple 0 = .ok (Tag.scalar .bool).byte ∧
      tupleSetBool nestedTuple 0 false = .error .assertion ∧
      ¬ SetsLocally nestedBuffer nestedTuple [] 0 (.bool false) := by
  refine ⟨tupleParse_nested, rfl, rfl, ?_⟩
  rintro ⟨data, hset, -⟩
  rw [@tupleSetAt_bool nestedTuple [] 0 (.bool false) nestedTuple rfl rfl rfl] at hset
  cases hset

end Whosecoin.TupleSetters

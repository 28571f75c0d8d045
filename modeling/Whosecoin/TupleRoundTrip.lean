import Whosecoin.DynamicBuffers
import Whosecoin.TupleFormat

namespace Whosecoin.TupleRoundTrip

open Library.Outcomes
open Library.ByteStrings
open DynamicBuffers
open TupleParser
open TupleFormat

section Writers

variable (file : DynamicBuffer)

/-- A tag byte, and a payload copied behind it. -/
def tupleWriteTagged (tag : Tag) (payload : List UInt8) : Outcome DynamicBuffer :=
  dynamicBufferPutc tag.byte file >>= dynamicBufferWrite payload

def tupleWriteI32 (v : Int32) : Outcome DynamicBuffer :=
  tupleWriteTagged file (.scalar .i32) (toBigEndian 4 v.toUInt32.toNat)

def tupleWriteI64 (v : Int64) : Outcome DynamicBuffer :=
  tupleWriteTagged file (.scalar .i64) (toBigEndian 8 v.toUInt64.toNat)

def tupleWriteU32 (v : UInt32) : Outcome DynamicBuffer :=
  tupleWriteTagged file (.scalar .u32) (toBigEndian 4 v.toNat)

def tupleWriteU64 (v : UInt64) : Outcome DynamicBuffer :=
  tupleWriteTagged file (.scalar .u64) (toBigEndian 8 v.toNat)

/-- The bits of a `float` are copied as they are. -/
def tupleWriteF32 (bits : UInt32) : Outcome DynamicBuffer :=
  tupleWriteTagged file (.scalar .f32) (toLittleEndian 4 bits.toNat)

def tupleWriteF64 (bits : UInt64) : Outcome DynamicBuffer :=
  tupleWriteTagged file (.scalar .f64) (toLittleEndian 8 bits.toNat)

def tupleWriteBool (v : Bool) : Outcome DynamicBuffer :=
  tupleWriteTagged file (.scalar .bool) [if v then 1 else 0]

def tupleWriteString (v : List UInt8) : Outcome DynamicBuffer :=
  tupleWriteTagged file .string (v ++ [0])

/-- Only the low four bytes of the size are written. -/
def tupleWriteBinary (v : List UInt8) : Outcome DynamicBuffer :=
  tupleWriteTagged file .binary (toLittleEndian 4 v.length) >>= dynamicBufferWrite v

def tupleWriteStart : Outcome DynamicBuffer :=
  dynamicBufferPutc Tag.tupleStart.byte file

def tupleWriteEnd : Outcome DynamicBuffer :=
  dynamicBufferPutc Tag.tupleEnd.byte file

/-- There is no writer for `null`: its encoding is its tag. -/
def tupleWriteNull : Outcome DynamicBuffer :=
  dynamicBufferPutc (Tag.scalar .null).byte file

end Writers

/-- What a program puts into a tuple. The floats are bit patterns. -/
inductive TupleValue where
  | null
  | i32 (v : Int32)
  | i64 (v : Int64)
  | u32 (v : UInt32)
  | u64 (v : UInt64)
  | f32 (bits : UInt32)
  | f64 (bits : UInt64)
  | bool (v : Bool)
  | string (chars : List UInt8) (nulFree : 0 ∉ chars)
  | binary (bytes : List UInt8)
  | tuple (values : List TupleValue)

namespace TupleValue

def tag : TupleValue → Tag
  | .null => .scalar .null
  | .i32 _ => .scalar .i32
  | .i64 _ => .scalar .i64
  | .u32 _ => .scalar .u32
  | .u64 _ => .scalar .u64
  | .f32 _ => .scalar .f32
  | .f64 _ => .scalar .f64
  | .bool _ => .scalar .bool
  | .string _ _ => .string
  | .binary _ => .binary
  | .tuple _ => .tupleStart

end TupleValue

mutual

/-- The calls of the writers for a value. -/
def TupleValue.write : TupleValue → DynamicBuffer → Outcome DynamicBuffer
  | .null, file => tupleWriteNull file
  | .i32 v, file => tupleWriteI32 file v
  | .i64 v, file => tupleWriteI64 file v
  | .u32 v, file => tupleWriteU32 file v
  | .u64 v, file => tupleWriteU64 file v
  | .f32 bits, file => tupleWriteF32 file bits
  | .f64 bits, file => tupleWriteF64 file bits
  | .bool v, file => tupleWriteBool file v
  | .string chars _, file => tupleWriteString file chars
  | .binary bytes, file => tupleWriteBinary file bytes
  | .tuple values, file => do
      let file ← tupleWriteStart file
      let file ← writeAll values file
      tupleWriteEnd file

def writeAll : List TupleValue → DynamicBuffer → Outcome DynamicBuffer
  | [], file => .ok file
  | v :: vs, file => v.write file >>= writeAll vs

end

mutual

/-- The encoding of a value by the grammar of the format. -/
def TupleValue.bytes : TupleValue → List UInt8
  | .null => [(Tag.scalar .null).byte]
  | .i32 v => (Tag.scalar .i32).byte :: toBigEndian 4 v.toUInt32.toNat
  | .i64 v => (Tag.scalar .i64).byte :: toBigEndian 8 v.toUInt64.toNat
  | .u32 v => (Tag.scalar .u32).byte :: toBigEndian 4 v.toNat
  | .u64 v => (Tag.scalar .u64).byte :: toBigEndian 8 v.toNat
  | .f32 bits => (Tag.scalar .f32).byte :: toLittleEndian 4 bits.toNat
  | .f64 bits => (Tag.scalar .f64).byte :: toLittleEndian 8 bits.toNat
  | .bool v => (Tag.scalar .bool).byte :: [if v then 1 else 0]
  | .string chars _ => Tag.string.byte :: (chars ++ [0])
  | .binary bytes => Tag.binary.byte :: (toLittleEndian 4 bytes.length ++ bytes)
  | .tuple values => Tag.tupleStart.byte :: (bytesAll values ++ [Tag.tupleEnd.byte])

def bytesAll : List TupleValue → List UInt8
  | [] => []
  | v :: vs => v.bytes ++ bytesAll vs

end

mutual

/-- The value of the format; a binary of more than 2^32 bytes has none, and is cut. -/
def TupleValue.toValue : TupleValue → Value
  | .null => .scalar .null ⟨[], List.length_nil⟩
  | .i32 v => .scalar .i32 ⟨toBigEndian 4 v.toUInt32.toNat, length_i32 v⟩
  | .i64 v => .scalar .i64 ⟨toBigEndian 8 v.toUInt64.toNat, toBigEndian_length _ _⟩
  | .u32 v => .scalar .u32 ⟨toBigEndian 4 v.toNat, length_u32 v⟩
  | .u64 v => .scalar .u64 ⟨toBigEndian 8 v.toNat, length_u64 v⟩
  | .f32 bits => .scalar .f32 ⟨toLittleEndian 4 bits.toNat, toLittleEndian_length _ _⟩
  | .f64 bits => .scalar .f64 ⟨toLittleEndian 8 bits.toNat, toLittleEndian_length _ _⟩
  | .bool v => .scalar .bool ⟨[if v then 1 else 0], rfl⟩
  | .string chars nulFree => .string chars nulFree
  | .binary bytes => .binary (bytes.take (2 ^ 32 - 1)) (by rw [List.length_take]; omega)
  | .tuple values => .tuple (toValues values)

def toValues : List TupleValue → List Value
  | [] => []
  | v :: vs => v.toValue :: toValues vs

end

theorem toValues_eq_map (vs : List TupleValue) : toValues vs = vs.map TupleValue.toValue := by
  induction vs with
  | nil => rfl
  | cons v vs ih => rw [toValues, ih, List.map_cons]

mutual

theorem encode_toValue (v : TupleValue) (h : v.bytes.length < 2 ^ 32) :
    v.toValue.encode = v.bytes := by
  match v with
  | .null => rfl
  | .i32 v => rfl
  | .i64 v => rfl
  | .u32 v => rfl
  | .u64 v => rfl
  | .f32 bits => rfl
  | .f64 bits => rfl
  | .bool v => rfl
  | .string chars nulFree => rfl
  | .binary bytes =>
      simp only [TupleValue.bytes, List.length_cons, List.length_append] at h
      rw [TupleValue.toValue, Value.encode, List.take_of_length_le (by omega), TupleValue.bytes]
  | .tuple values =>
      simp only [TupleValue.bytes, List.length_cons, List.length_append] at h
      rw [TupleValue.toValue, Value.encode, encodeAll_toValues values (by omega),
        TupleValue.bytes]

theorem encodeAll_toValues (vs : List TupleValue) (h : (bytesAll vs).length < 2 ^ 32) :
    encodeAll (toValues vs) = bytesAll vs := by
  match vs with
  | [] => rfl
  | v :: vs =>
      rw [bytesAll, List.length_append] at h
      rw [toValues, encodeAll, encode_toValue v (by omega), encodeAll_toValues vs (by omega),
        bytesAll]

end

section Writing

/-- The operation puts the bytes behind those of the buffer. -/
def Appends (write : DynamicBuffer → Outcome DynamicBuffer) (bytes : List UInt8) : Prop :=
  ∀ file : DynamicBuffer, file.length + bytes.length < 2 ^ 31 →
    ∃ next, write file = .ok next ∧ next.live = file.live ++ bytes

theorem Appends.then {f g : DynamicBuffer → Outcome DynamicBuffer} {as bs : List UInt8}
    (hf : Appends f as) (hg : Appends g bs) : Appends (fun file => f file >>= g) (as ++ bs) := by
  intro file hfit
  rw [List.length_append] at hfit
  obtain ⟨middle, hmiddle, hlive⟩ := hf file (by omega)
  have hlength := congrArg List.length hlive
  rw [List.length_append, middle.live_length, file.live_length] at hlength
  obtain ⟨next, hnext, hlive'⟩ := hg middle (by omega)
  refine ⟨next, ?_, ?_⟩
  · show f file >>= g = .ok next
    rw [hmiddle, ok_bind, hnext]
  · rw [hlive', hlive, List.append_assoc]

theorem appends_putc (c : UInt8) : Appends (dynamicBufferPutc c) [c] := by
  intro file hfit
  apply dynamicBufferPutc_of_lt
  simpa using hfit

theorem appends_write (src : List UInt8) : Appends (dynamicBufferWrite src) src := by
  intro file hfit
  obtain ⟨next, hnext, -, hlive⟩ := dynamicBufferWrite_of_lt hfit
  exact ⟨next, hnext, hlive⟩

theorem appends_tagged (tag : Tag) (payload : List UInt8) :
    Appends (fun file => tupleWriteTagged file tag payload) (tag.byte :: payload) :=
  (appends_putc tag.byte).then (appends_write payload)

mutual

theorem appends_value (v : TupleValue) : Appends v.write v.bytes := by
  match v with
  | .null => exact appends_putc _
  | .i32 v => exact appends_tagged _ _
  | .i64 v => exact appends_tagged _ _
  | .u32 v => exact appends_tagged _ _
  | .u64 v => exact appends_tagged _ _
  | .f32 bits => exact appends_tagged _ _
  | .f64 bits => exact appends_tagged _ _
  | .bool v => exact appends_tagged _ _
  | .string chars nulFree => exact appends_tagged _ _
  | .binary bytes => exact (appends_tagged _ _).then (appends_write bytes)
  | .tuple values =>
      exact (appends_putc _).then ((appends_all values).then (appends_putc _))

theorem appends_all (vs : List TupleValue) : Appends (writeAll vs) (bytesAll vs) := by
  match vs with
  | [] =>
      intro file _
      exact ⟨file, rfl, (List.append_nil _).symm⟩
  | v :: vs => exact (appends_value v).then (appends_all vs)

end

end Writing

mutual

/-- The accessors return the value at a place of a tuple, and all that is below it. -/
def Reads (tuple : Tuple) (i : Nat) (v : TupleValue) : Prop :=
  tupleGetType tuple i = .ok v.tag.byte ∧
    match v with
    | .null => True
    | .i32 v => tupleGetI32 tuple i = .ok v
    | .i64 v => tupleGetI64 tuple i = .ok v
    | .u32 v => tupleGetU32 tuple i = .ok v
    | .u64 v => tupleGetU64 tuple i = .ok v
    | .f32 bits => tupleGetF32 tuple i = .ok bits
    | .f64 bits => tupleGetF64 tuple i = .ok bits
    | .bool v => tupleGetBoolean tuple i = .ok (if v then 1 else 0)
    | .string chars _ => tupleGetString tuple i = .ok chars
    | .binary bytes => ∃ after, tupleGetBinary tuple i = .ok ⟨bytes.length, bytes ++ after⟩
    | .tuple vs =>
        ∃ sub, tupleGetTuple tuple i = .ok sub ∧
          sub.length = (TupleValue.tuple vs).bytes.length ∧
          tupleSize sub = vs.length ∧ ReadsAll sub 0 vs

/-- The getters return the values from this position on. -/
def ReadsAll (tuple : Tuple) (i : Nat) : List TupleValue → Prop
  | [] => True
  | v :: vs => Reads tuple i v ∧ ReadsAll tuple (i + 1) vs

end

theorem tag_toValue (v : TupleValue) : v.toValue.tag = v.tag := by
  cases v <;> rfl

theorem reads_scalar {tuple : Tuple} {values : List Value} (hrep : Represents tuple values)
    {kind : Scalar} {payload : Bytes kind.width} {i : Nat} {α : Type}
    (hi : values[i]? = some (.scalar kind payload)) (decode : List UInt8 → α) (v : α)
    (hdecode : decode payload.toList = v) : (tupleGetScalar tuple kind i).map decode = .ok v := by
  rw [hrep.tupleGetScalar_eq hi, Except.map, hdecode]

mutual

theorem reads_of_represents {tuple : Tuple} {values : List Value}
    (hrep : Represents tuple values) (v : TupleValue) (hsmall : v.bytes.length < 2 ^ 32) (i : Nat)
    (hi : values[i]? = some v.toValue) : Reads tuple i v := by
  have htype : tupleGetType tuple i = .ok v.tag.byte := by
    rw [hrep.tupleGetType_eq hi, tag_toValue]
  match v with
  | .null => exact ⟨htype, trivial⟩
  | .i32 v =>
      refine ⟨htype, reads_scalar hrep hi _ _ ?_⟩
      rw [bigEndian_toBigEndian 4 _ v.toUInt32.toNat_lt, UInt32.ofNat_toNat]
      exact Int32.toInt32_toUInt32 v
  | .i64 v =>
      refine ⟨htype, reads_scalar hrep hi _ _ ?_⟩
      rw [bigEndian_toBigEndian 8 _ v.toUInt64.toNat_lt, UInt64.ofNat_toNat]
      exact Int64.toInt64_toUInt64 v
  | .u32 v =>
      refine ⟨htype, reads_scalar hrep hi _ _ ?_⟩
      rw [bigEndian_toBigEndian 4 _ v.toNat_lt, UInt32.ofNat_toNat]
  | .u64 v =>
      refine ⟨htype, reads_scalar hrep hi _ _ ?_⟩
      rw [bigEndian_toBigEndian 8 _ v.toNat_lt, UInt64.ofNat_toNat]
  | .f32 bits =>
      refine ⟨htype, reads_scalar hrep hi _ _ ?_⟩
      rw [littleEndian_toLittleEndian 4 _ bits.toNat_lt, UInt32.ofNat_toNat]
  | .f64 bits =>
      refine ⟨htype, reads_scalar hrep hi _ _ ?_⟩
      rw [littleEndian_toLittleEndian 8 _ bits.toNat_lt, UInt64.ofNat_toNat]
  | .bool v =>
      refine ⟨htype, reads_scalar hrep hi _ _ ?_⟩
      cases v <;> rfl
  | .string chars nulFree => exact ⟨htype, hrep.tupleGetString_eq hi⟩
  | .binary bytes =>
      obtain ⟨after, hget⟩ := hrep.tupleGetBinary_eq hi
      simp only [TupleValue.bytes, List.length_cons, List.length_append] at hsmall
      rw [List.take_of_length_le (by omega)] at hget
      exact ⟨htype, after, hget⟩
  | .tuple vs =>
      have hencode := encode_toValue (.tuple vs) hsmall
      simp only [TupleValue.bytes, List.length_cons, List.length_append] at hsmall
      obtain ⟨sub, hget, hsub⟩ := hrep.tupleGetTuple_eq hi
      refine ⟨htype, sub, hget, ?_, ?_, ?_⟩
      · rw [hsub.length_eq, ← hencode]
        rfl
      · rw [hsub.tupleSize_eq, toValues_eq_map, List.length_map]
      · exact readsAll_of_represents hsub vs (by omega) 0 fun j => by rw [Nat.zero_add]

theorem readsAll_of_represents {tuple : Tuple} {values : List Value}
    (hrep : Represents tuple values) (vs : List TupleValue)
    (hsmall : (bytesAll vs).length < 2 ^ 32)
    (i : Nat) (hi : ∀ j, values[i + j]? = (toValues vs)[j]?) : ReadsAll tuple i vs := by
  match vs with
  | [] => trivial
  | v :: vs =>
      rw [bytesAll, List.length_append] at hsmall
      refine ⟨reads_of_represents hrep v (by omega) i (hi 0), ?_⟩
      refine readsAll_of_represents hrep vs (by omega) (i + 1) fun j => ?_
      have hnext := hi (j + 1)
      rw [toValues, List.getElem?_cons_succ] at hnext
      rw [← hnext]
      congr 1
      omega

end

/-- A tuple that has been written is read back, whatever follows it. -/
theorem tupleParse_write (vs : List TupleValue) (initialCapacity : Fin (2 ^ 31))
    (after : List UInt8) (hsmall : (TupleValue.tuple vs).bytes.length < 2 ^ 31) :
    ∃ file tuple, (TupleValue.tuple vs).write (dynamicBufferCreate initialCapacity) = .ok file ∧
      file.live = (TupleValue.tuple vs).bytes ∧
      tupleParse ⟨(file.live ++ after).length, file.live ++ after⟩ = .ok (some tuple) ∧
      tuple.length = (TupleValue.tuple vs).bytes.length ∧ tupleSize tuple = vs.length ∧
      ReadsAll tuple 0 vs := by
  obtain ⟨file, hwrite, hlive⟩ :=
    appends_value (.tuple vs) (dynamicBufferCreate initialCapacity)
    (by rw [dynamicBufferCreate, Nat.zero_add]; exact hsmall)
  have hempty : (dynamicBufferCreate initialCapacity).live = [] := rfl
  rw [hempty, List.nil_append] at hlive
  have hencode := encode_toValue (.tuple vs) (by omega)
  rw [TupleValue.toValue] at hencode
  obtain ⟨tuple, hparse, hrep⟩ :=
    @tupleParse_of_encode ⟨(file.live ++ after).length, file.live ++ after⟩ (toValues vs) after
      (by rw [hlive, hencode])
      (by rw [hencode, hlive, List.length_append]; exact Nat.le_add_right _ _)
  refine ⟨file, tuple, hwrite, hlive, hparse, ?_, ?_, ?_⟩
  · rw [hrep.length_eq, hencode]
  · rw [hrep.tupleSize_eq, toValues_eq_map, List.length_map]
  · have hinner := hsmall
    simp only [TupleValue.bytes, List.length_cons, List.length_append] at hinner
    exact readsAll_of_represents hrep vs (by omega) 0 fun j => by rw [Nat.zero_add]

theorem tupleParse_write_nested :
    ∃ file tuple, (TupleValue.tuple [.i32 7, .tuple [.binary [40, 41], .null]]).write
        (dynamicBufferCreate 32) = .ok file ∧
      file.live = (TupleValue.tuple [.i32 7, .tuple [.binary [40, 41], .null]]).bytes ∧
      tupleParse ⟨(file.live ++ [41]).length, file.live ++ [41]⟩ = .ok (some tuple) ∧
      tuple.length = (TupleValue.tuple [.i32 7, .tuple [.binary [40, 41], .null]]).bytes.length ∧
      tupleSize tuple = [TupleValue.i32 7, .tuple [.binary [40, 41], .null]].length ∧
      ReadsAll tuple 0 [.i32 7, .tuple [.binary [40, 41], .null]] :=
  tupleParse_write [.i32 7, .tuple [.binary [40, 41], .null]] 32 [41] (by decide)

end Whosecoin.TupleRoundTrip

import Whosecoin.TupleRoundTrip

namespace Whosecoin.TupleCanonical

open Library.Outcomes
open Library.ByteStrings
open DynamicBuffers
open TupleParser
open TupleFormat

/-- A call of a writer. There is none that is handed the bytes of an `f`, an `F` or a `b`:
these are copied as they are. -/
inductive Write where
  | null
  | i32 (v : Int32)
  | i64 (v : Int64)
  | u32 (v : UInt32)
  | u64 (v : UInt64)
  | raw (kind : Scalar) (payload : List UInt8)
  | string (chars : List UInt8)
  | binary (bytes : List UInt8)
  | start
  | stop

namespace Write

def call : Write → DynamicBuffer → Outcome DynamicBuffer
  | .null, file => TupleRoundTrip.tupleWriteNull file
  | .i32 v, file => TupleRoundTrip.tupleWriteI32 file v
  | .i64 v, file => TupleRoundTrip.tupleWriteI64 file v
  | .u32 v, file => TupleRoundTrip.tupleWriteU32 file v
  | .u64 v, file => TupleRoundTrip.tupleWriteU64 file v
  | .raw kind payload, file => TupleRoundTrip.tupleWriteTagged file (.scalar kind) payload
  | .string chars, file => TupleRoundTrip.tupleWriteString file chars
  | .binary bytes, file => TupleRoundTrip.tupleWriteBinary file bytes
  | .start, file => TupleRoundTrip.tupleWriteStart file
  | .stop, file => TupleRoundTrip.tupleWriteEnd file

/-- The bytes that a call puts down. -/
def bytes : Write → List UInt8
  | .null => [(Tag.scalar .null).byte]
  | .i32 v => tupleWriteI32 [] v
  | .i64 v => tupleWriteScalar [] .i64 (toBigEndian 8 v.toUInt64.toNat)
  | .u32 v => tupleWriteU32 [] v
  | .u64 v => tupleWriteU64 [] v
  | .raw kind payload => tupleWriteScalar [] kind payload
  | .string chars => tupleWriteString [] chars
  | .binary bytes => tupleWriteBinary [] bytes
  | .start => tupleWriteStart []
  | .stop => tupleWriteEnd []

end Write

theorem appends_call (w : Write) : TupleRoundTrip.Appends w.call w.bytes := by
  cases w with
  | null => exact TupleRoundTrip.appends_putc _
  | i32 v => exact TupleRoundTrip.appends_tagged _ _
  | i64 v => exact TupleRoundTrip.appends_tagged _ _
  | u32 v => exact TupleRoundTrip.appends_tagged _ _
  | u64 v => exact TupleRoundTrip.appends_tagged _ _
  | raw kind payload => exact TupleRoundTrip.appends_tagged _ _
  | string chars => exact TupleRoundTrip.appends_tagged _ _
  | binary bytes =>
      exact (TupleRoundTrip.appends_tagged _ _).then (TupleRoundTrip.appends_write bytes)
  | start => exact TupleRoundTrip.appends_putc _
  | stop => exact TupleRoundTrip.appends_putc _

theorem appends_calls (writes : List Write) :
    TupleRoundTrip.Appends (fun file => writes.foldlM (fun file w => w.call file) file)
      (writes.flatMap Write.bytes) := by
  induction writes with
  | nil =>
      intro file _
      exact ⟨file, rfl, (List.append_nil _).symm⟩
  | cons w writes ih =>
      rw [List.flatMap_cons]
      exact (appends_call w).then ih

mutual

/-- Read an element with the accessor of its tag, and find the calls that write it. -/
def elementWrites (tuple : Tuple) (i : Nat) : Element → Outcome (List Write)
  | .pointer _ => do
      match Tag.ofByte (← tupleGetType tuple i) with
      | some (.scalar .null) => return [.null]
      | some (.scalar .i32) => return [.i32 (← tupleGetI32 tuple i)]
      | some (.scalar .i64) => return [.i64 (← tupleGetI64 tuple i)]
      | some (.scalar .u32) => return [.u32 (← tupleGetU32 tuple i)]
      | some (.scalar .u64) => return [.u64 (← tupleGetU64 tuple i)]
      | some (.scalar kind) => return [.raw kind (← tupleGetScalar tuple kind i)]
      | some .string => return [.string (← tupleGetString tuple i)]
      | some .binary =>
          let buffer ← tupleGetBinary tuple i
          return [.binary (← readBytes buffer.data 0 buffer.length)]
      | _ => .error .assertion
  | .tuple _ _ elements => do
      let sub ← tupleGetTuple tuple i
      return .start :: (← elementsWrites sub 0 elements) ++ [.stop]

/-- The writes of the elements from this position on. -/
def elementsWrites (tuple : Tuple) (i : Nat) : List Element → Outcome (List Write)
  | [] => .ok []
  | element :: elements => do
      return (← elementWrites tuple i element) ++ (← elementsWrites tuple (i + 1) elements)

end

/-- The calls that write the elements between a start and an end. -/
def tupleWrites (tuple : Tuple) : Outcome (List Write) := do
  return .start :: (← elementsWrites tuple 0 tuple.elements) ++ [.stop]

theorem ofNat_bigEndian_toNat {payload : List UInt8} (hlength : payload.length = 4) :
    (UInt32.ofNat (bigEndian payload)).toNat = bigEndian payload := by
  have hlt := bigEndian_lt payload
  rw [hlength] at hlt
  rw [UInt32.toNat_ofNat']
  exact Nat.mod_eq_of_lt hlt

theorem ofNat_bigEndian_toNat_wide {payload : List UInt8} (hlength : payload.length = 8) :
    (UInt64.ofNat (bigEndian payload)).toNat = bigEndian payload := by
  have hlt := bigEndian_lt payload
  rw [hlength] at hlt
  rw [UInt64.toNat_ofNat']
  exact Nat.mod_eq_of_lt hlt

theorem toBigEndian_of_length {payload : List UInt8} {width : Nat}
    (hlength : payload.length = width) : toBigEndian width (bigEndian payload) = payload := by
  rw [← hlength, toBigEndian_bigEndian]

section Reading

variable {tuple : Tuple} {values : List Value}

theorem pointer_writes (hrep : Represents tuple values) {i : Nat} (offset : Nat) {kind : Scalar}
    {payload : Bytes kind.width} (hi : values[i]? = some (.scalar kind payload)) :
    ∃ writes, elementWrites tuple i (.pointer offset) = .ok writes ∧
      writes.flatMap Write.bytes = (Value.scalar kind payload).encode := by
  have hget := hrep.tupleGetScalar_eq hi
  have hlength := payload.length_eq
  rw [elementWrites, hrep.tupleGetType_eq hi, ok_bind, Value.tag, Tag.ofByte_byte]
  rw [Value.encode]
  generalize payload.toList = bytes at *
  cases kind with
  | null =>
      refine ⟨_, rfl, ?_⟩
      rw [List.length_eq_zero_iff.mp hlength]
      rfl
  | i32 =>
      refine ⟨[.i32 (UInt32.ofNat (bigEndian bytes)).toInt32], ?_, ?_⟩
      · simp only [tupleGetI32, hget]
        rfl
      · rw [List.flatMap_singleton, Write.bytes, tupleWriteI32, UInt32.toUInt32_toInt32]
        rw [ofNat_bigEndian_toNat hlength, @toBigEndian_of_length bytes 4 hlength]
        rfl
  | i64 =>
      refine ⟨[.i64 (UInt64.ofNat (bigEndian bytes)).toInt64], ?_, ?_⟩
      · simp only [tupleGetI64, hget]
        rfl
      · rw [List.flatMap_singleton, Write.bytes, UInt64.toUInt64_toInt64]
        rw [ofNat_bigEndian_toNat_wide hlength, @toBigEndian_of_length bytes 8 hlength]
        rfl
  | u32 =>
      refine ⟨[.u32 (UInt32.ofNat (bigEndian bytes))], ?_, ?_⟩
      · simp only [tupleGetU32, hget]
        rfl
      · rw [List.flatMap_singleton, Write.bytes, tupleWriteU32]
        rw [ofNat_bigEndian_toNat hlength, @toBigEndian_of_length bytes 4 hlength]
        rfl
  | u64 =>
      refine ⟨[.u64 (UInt64.ofNat (bigEndian bytes))], ?_, ?_⟩
      · simp only [tupleGetU64, hget]
        rfl
      · rw [List.flatMap_singleton, Write.bytes, tupleWriteU64]
        rw [ofNat_bigEndian_toNat_wide hlength, @toBigEndian_of_length bytes 8 hlength]
        rfl
  | f32 =>
      refine ⟨[.raw .f32 bytes], ?_, List.flatMap_singleton _ _⟩
      simp only [hget]
      rfl
  | f64 =>
      refine ⟨[.raw .f64 bytes], ?_, List.flatMap_singleton _ _⟩
      simp only [hget]
      rfl
  | bool =>
      refine ⟨[.raw .bool bytes], ?_, List.flatMap_singleton _ _⟩
      simp only [hget]
      rfl

mutual

theorem element_writes {tuple : Tuple} {values : List Value} (hrep : Represents tuple values)
    (v : Value) (i offset : Nat) (hi : values[i]? = some v) :
    ∃ writes, elementWrites tuple i (v.layout offset) = .ok writes ∧
      writes.flatMap Write.bytes = v.encode := by
  match v with
  | .scalar kind payload => exact pointer_writes hrep offset hi
  | .string chars nulFree =>
      refine ⟨[.string chars], ?_, ?_⟩
      · rw [Value.layout, elementWrites, hrep.tupleGetType_eq hi, ok_bind, Value.tag,
          Tag.ofByte_byte]
        simp only [hrep.tupleGetString_eq hi]
        rfl
      · rw [List.flatMap_singleton, Value.encode]
        rfl
  | .binary bytes fits =>
      obtain ⟨after, hget⟩ := hrep.tupleGetBinary_eq hi
      have hread : readBytes (bytes ++ after) 0 bytes.length = .ok bytes :=
        readBytes_eq_ok.mpr ⟨rfl, [], after, rfl, rfl⟩
      refine ⟨[.binary bytes], ?_, ?_⟩
      · rw [Value.layout, elementWrites, hrep.tupleGetType_eq hi, ok_bind, Value.tag,
          Tag.ofByte_byte]
        simp only [hget, ok_bind, hread]
        rfl
      · rw [List.flatMap_singleton, Value.encode]
        rfl
  | .tuple vs =>
      obtain ⟨sub, hget, hsub⟩ := hrep.tupleGetTuple_eq hi
      obtain ⟨writes, hwrites, hbytes⟩ := elements_writes hsub vs 0 (offset + 1) fun j => by
        rw [Nat.zero_add]
      refine ⟨.start :: writes ++ [.stop], ?_, ?_⟩
      · rw [Value.layout, elementWrites, hget, ok_bind, hwrites]
        rfl
      · rw [List.flatMap_append, List.flatMap_cons, hbytes, List.flatMap_singleton, Value.encode]
        rfl

theorem elements_writes {tuple : Tuple} {values : List Value} (hrep : Represents tuple values)
    (vs : List Value) (i offset : Nat) (hi : ∀ j : Nat, values[i + j]? = vs[j]?) :
    ∃ writes, elementsWrites tuple i (layoutAll offset vs) = .ok writes ∧
      writes.flatMap Write.bytes = encodeAll vs := by
  match vs with
  | [] => exact ⟨[], rfl, rfl⟩
  | v :: vs =>
      obtain ⟨first, hfirst, hbytes⟩ := element_writes hrep v i offset (hi 0)
      obtain ⟨rest, hrest, hbytes'⟩ :=
        elements_writes hrep vs (i + 1) (offset + v.encode.length) fun j => by
          rw [Nat.add_assoc, Nat.add_comm 1 j, hi (j + 1), List.getElem?_cons_succ]
      refine ⟨first ++ rest, ?_, ?_⟩
      · rw [layoutAll, elementsWrites, hfirst, ok_bind, hrest]
        rfl
      · rw [List.flatMap_append, hbytes, hbytes', encodeAll]

end

/-- What is read from a parsed tuple is written as the bytes it was parsed from. -/
theorem tuple_writes (hrep : Represents tuple values) :
    ∃ writes, tupleWrites tuple = .ok writes ∧
      writes.flatMap Write.bytes = (Value.tuple values).encode := by
  obtain ⟨writes, hwrites, hbytes⟩ :=
    elements_writes hrep values 0 (tuple.start + 1) fun j => by rw [Nat.zero_add]
  refine ⟨.start :: writes ++ [.stop], ?_, ?_⟩
  · rw [tupleWrites, hrep.elements_eq, hwrites]
    rfl
  · rw [List.flatMap_append, List.flatMap_cons, hbytes, List.flatMap_singleton, Value.encode]
    rfl

end Reading

theorem writes_of_tupleParse {buffer : Buffer} {tuple : Tuple}
    (h : tupleParse buffer = .ok (some tuple)) :
    ∃ writes, tupleWrites tuple = .ok writes ∧
      writes.flatMap Write.bytes = buffer.data.take tuple.length := by
  obtain ⟨values, hrep, -⟩ := represents_of_tupleParse h
  obtain ⟨hstart, hdata⟩ := parsed_at_start h
  obtain ⟨writes, hwrites, hbytes⟩ := tuple_writes hrep
  refine ⟨writes, hwrites, ?_⟩
  rw [hbytes, ← hrep.bytes_eq, Tuple.bytes, hstart, hdata, List.drop_zero]

/-- Writing the elements of a parsed tuple gives back the bytes that were parsed, and so
the elements determine them. -/
theorem tupleParse_canonical {buffer : Buffer} {tuple : Tuple}
    (h : tupleParse buffer = .ok (some tuple)) :
    tuple.length ≤ buffer.length ∧
      ∃ writes, tupleWrites tuple = .ok writes ∧
        writes.flatMap Write.bytes = buffer.data.take tuple.length ∧
        (∀ file : DynamicBuffer, file.length + tuple.length < 2 ^ 31 →
          ∃ next, writes.foldlM (fun file w => w.call file) file = .ok next ∧
            next.live = file.live ++ buffer.data.take tuple.length) ∧
        ∀ other otherTuple, tupleParse other = .ok (some otherTuple) →
          tupleWrites otherTuple = .ok writes →
          other.data.take otherTuple.length = buffer.data.take tuple.length := by
  obtain ⟨values, hrep, hle⟩ := represents_of_tupleParse h
  obtain ⟨writes, hwrites, hbytes⟩ := writes_of_tupleParse h
  refine ⟨hle, writes, hwrites, hbytes, ?_, ?_⟩
  · intro file hfit
    obtain ⟨next, hnext, hlive⟩ := appends_calls writes file (by
      rw [hbytes]
      have := List.length_take_le tuple.length buffer.data
      omega)
    exact ⟨next, hnext, by rw [hlive, hbytes]⟩
  · intro other otherTuple hother hsame
    obtain ⟨writes', hwrites', hbytes'⟩ := writes_of_tupleParse hother
    rw [hsame] at hwrites'
    cases hwrites'
    rw [← hbytes', hbytes]

theorem tupleParse_canonical_null :
    ∃ tuple, tupleParse ⟨4, [40, 110, 41, 7]⟩ = .ok (some tuple) ∧
    tuple.length ≤ 4 ∧ ∃ writes, tupleWrites tuple = .ok writes ∧
      writes.flatMap Write.bytes = [40, 110, 41, 7].take tuple.length ∧
      (∀ file : DynamicBuffer, file.length + tuple.length < 2 ^ 31 →
        ∃ next, writes.foldlM (fun file w => w.call file) file = .ok next ∧
          next.live = file.live ++ [40, 110, 41, 7].take tuple.length) ∧
      ∀ other otherTuple, tupleParse other = .ok (some otherTuple) →
        tupleWrites otherTuple = .ok writes →
        other.data.take otherTuple.length = [40, 110, 41, 7].take tuple.length := by
  obtain ⟨tuple, hparse, -⟩ :=
    @tupleParse_of_encode ⟨4,
      [40, 110, 41, 7]⟩ [.scalar .null ⟨[], rfl⟩] [7] rfl (by decide)
  exact ⟨tuple, hparse, tupleParse_canonical hparse⟩

end Whosecoin.TupleCanonical

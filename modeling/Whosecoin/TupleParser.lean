import Whosecoin.Library.Outcomes
import Whosecoin.Library.ByteStrings

/-!
The parser, the getters and the writers of `tuple.c`. Pointers into the buffer are
offsets, and every access outside the bytes of the buffer is a fault.
-/

namespace Whosecoin.TupleParser

open Library.Outcomes
open Library.ByteStrings

/-- The element kinds whose payload has a fixed width. -/
inductive Scalar where
  | null | i32 | i64 | u32 | u64 | f32 | f64 | bool
deriving DecidableEq

/-- The tag bytes of `tuple.h`. -/
inductive Tag where
  | tupleStart | tupleEnd | string | binary
  | scalar (kind : Scalar)
deriving DecidableEq

def Scalar.width : Scalar → Nat
  | .null => 0
  | .i32 | .u32 | .f32 => 4
  | .i64 | .u64 | .f64 => 8
  | .bool => 1

/-- The characters of `tuple.h`. -/
def Tag.byte : Tag → UInt8
  | .tupleStart => 40
  | .tupleEnd => 41
  | .scalar .i32 => 105
  | .scalar .i64 => 73
  | .scalar .u32 => 117
  | .scalar .u64 => 85
  | .scalar .f32 => 102
  | .scalar .f64 => 70
  | .scalar .bool => 98
  | .binary => 66
  | .string => 115
  | .scalar .null => 110

def Tag.all : List Tag :=
  [.tupleStart, .tupleEnd, .string, .binary, .scalar .null, .scalar .i32, .scalar .i64,
    .scalar .u32, .scalar .u64, .scalar .f32, .scalar .f64, .scalar .bool]

def Tag.ofByte (byte : UInt8) : Option Tag :=
  Tag.all.find? fun tag => tag.byte = byte

@[simp] theorem Tag.ofByte_byte (tag : Tag) : Tag.ofByte tag.byte = some tag := by
  rcases tag with _ | _ | _ | _ | kind
  case scalar => cases kind <;> decide
  all_goals decide

theorem Tag.byte_injective : Function.Injective Tag.byte := by
  intro a b h
  have := congrArg Tag.ofByte h
  simpa using this

theorem Tag.byte_of_ofByte {byte : UInt8} {tag : Tag} (h : Tag.ofByte byte = some tag) :
    tag.byte = byte := by
  simpa using List.find?_some h

/-- What an element list points to: a tag byte in the parsed buffer, by its
offset, or a `tuple_t` with its `start`, `length` and `elements`. -/
inductive Element where
  | pointer (offset : Nat)
  | tuple (start length : Nat) (elements : List Element)

/-- A `tuple_t` together with the memory that its `start` points into. -/
structure Tuple where
  data : List UInt8
  start : Nat
  length : Nat
  elements : List Element

/-- A `buffer_t`: the bytes from `data` on, of which `length` belong to it. -/
structure Buffer where
  length : Nat
  data : List UInt8

/-- Read `count` bytes at an offset. -/
def readBytes (data : List UInt8) (offset count : Nat) : Outcome (List UInt8) :=
  if offset + count ≤ data.length then .ok ((data.drop offset).take count)
  else .error .outOfBounds

/-- The length of the string in front of the first zero byte. -/
def strlen : List UInt8 → Outcome Nat
  | [] => .error .outOfBounds
  | b :: bs => if b = 0 then .ok 0 else (strlen bs).map (· + 1)

mutual

/-- `tuple_parse` on the `length` bytes at `start`. The `fuel` bounds the
number of calls and iterations. -/
def tupleParseAt (data : List UInt8) :
    (fuel start length : Nat) → Outcome (Option (Nat × List Element))
  | 0, _, _ => .error .diverges
  | fuel + 1, start, length =>
      if length < 2 then .ok none
      else
        match data[start]? with
        | none => .error .outOfBounds
        | some byte =>
            if byte ≠ Tag.tupleStart.byte then .ok none
            else parseElements data fuel start (start + 1) (start + length) []

/-- The loop of `tuple_parse`, which yields the length and the elements. -/
def parseElements (data : List UInt8) :
    (fuel start iter iterEnd : Nat) → (elements : List Element) →
      Outcome (Option (Nat × List Element))
  | 0, _, _, _, _ => .error .diverges
  | fuel + 1, start, iter, iterEnd, elements =>
      if iterEnd ≤ iter then .ok none
      else
        match data[iter]? with
        | none => .error .outOfBounds
        | some byte =>
            match Tag.ofByte byte with
            -- no case of the switch moves `iter`, so the loop never ends
            | none => .error .diverges
            | some (.scalar kind) =>
                parseElements data fuel start (iter + 1 + kind.width) iterEnd
                  (elements ++ [.pointer iter])
            | some .string =>
                match strlen (data.drop (iter + 1)) with
                | .error e => .error e
                | .ok n =>
                    parseElements data fuel start (iter + 1 + n + 1) iterEnd
                      (elements ++ [.pointer iter])
            | some .binary =>
                match readBytes data (iter + 1) 4 with
                | .error e => .error e
                | .ok size =>
                    if iter + 5 + littleEndian size < iterEnd then
                      parseElements data fuel start (iter + 5 + littleEndian size) iterEnd
                        (elements ++ [.pointer iter])
                    else .error .assertion
            | some .tupleStart =>
                match tupleParseAt data fuel iter (iterEnd - iter) with
                | .error e => .error e
                | .ok none => .ok none
                | .ok (some (length, subElements)) =>
                    parseElements data fuel start (iter + length) iterEnd
                      (elements ++ [.tuple iter length subElements])
            | some .tupleEnd => .ok (some (iter + 1 - start, elements))

end

/-- `tuple_parse` on a buffer of `length` bytes; `data` also holds whatever lies
behind them in memory. -/
def tupleParse (buffer : Buffer) : Outcome (Option Tuple) :=
  match tupleParseAt buffer.data (2 * buffer.length + 1) 0 buffer.length with
  | .error e => .error e
  | .ok none => .ok none
  | .ok (some (length, elements)) => .ok (some ⟨buffer.data, 0, length, elements⟩)

section Writers

variable (file : List UInt8)

def tupleWriteScalar (kind : Scalar) (payload : List UInt8) : List UInt8 :=
  file ++ (Tag.scalar kind).byte :: payload

def tupleWriteI32 (v : Int32) : List UInt8 :=
  tupleWriteScalar file .i32 (toBigEndian 4 v.toUInt32.toNat)

def tupleWriteU32 (v : UInt32) : List UInt8 :=
  tupleWriteScalar file .u32 (toBigEndian 4 v.toNat)

def tupleWriteU64 (v : UInt64) : List UInt8 :=
  tupleWriteScalar file .u64 (toBigEndian 8 v.toNat)

def tupleWriteString (v : List UInt8) : List UInt8 :=
  file ++ Tag.string.byte :: (v ++ [0])

/-- Only the low four bytes of the size are written. -/
def tupleWriteBinary (v : List UInt8) : List UInt8 :=
  file ++ Tag.binary.byte :: (toLittleEndian 4 v.length ++ v)

def tupleWriteStart : List UInt8 :=
  file ++ [Tag.tupleStart.byte]

def tupleWriteEnd : List UInt8 :=
  file ++ [Tag.tupleEnd.byte]

end Writers

section Accessors

variable (tuple : Tuple)

def tupleSize : Nat :=
  tuple.elements.length

/-- `list_get` asserts the index. -/
def listGet {α : Type} (list : List α) (i : Nat) : Outcome α :=
  match list[i]? with
  | some a => .ok a
  | none => .error .assertion

/-- The byte that an element pointer points to. -/
def tupleGetType (i : Nat) : Outcome UInt8 := do
  match ← listGet tuple.elements i with
  | .pointer offset =>
      match tuple.data[offset]? with
      | some byte => .ok byte
      | none => .error .outOfBounds
  | .tuple _ _ _ => .ok Tag.tupleStart.byte

/-- The payload of an element that must have the given tag. -/
def tupleGetScalar (kind : Scalar) (i : Nat) : Outcome (List UInt8) := do
  require ((← tupleGetType tuple i) = (Tag.scalar kind).byte) .assertion
  match ← listGet tuple.elements i with
  | .pointer offset => readBytes tuple.data (offset + 1) kind.width
  | .tuple _ _ _ => .error .assertion

def tupleGetI32 (i : Nat) : Outcome Int32 :=
  (tupleGetScalar tuple .i32 i).map fun bytes => (UInt32.ofNat (bigEndian bytes)).toInt32

def tupleGetI64 (i : Nat) : Outcome Int64 :=
  (tupleGetScalar tuple .i64 i).map fun bytes => (UInt64.ofNat (bigEndian bytes)).toInt64

def tupleGetU32 (i : Nat) : Outcome UInt32 :=
  (tupleGetScalar tuple .u32 i).map fun bytes => UInt32.ofNat (bigEndian bytes)

def tupleGetU64 (i : Nat) : Outcome UInt64 :=
  (tupleGetScalar tuple .u64 i).map fun bytes => UInt64.ofNat (bigEndian bytes)

/-- The bits of the `float`, which is stored as the machine stores it. -/
def tupleGetF32 (i : Nat) : Outcome UInt32 :=
  (tupleGetScalar tuple .f32 i).map fun bytes => UInt32.ofNat (littleEndian bytes)

def tupleGetF64 (i : Nat) : Outcome UInt64 :=
  (tupleGetScalar tuple .f64 i).map fun bytes => UInt64.ofNat (littleEndian bytes)

def tupleGetBoolean (i : Nat) : Outcome Nat :=
  (tupleGetScalar tuple .bool i).map bigEndian

/-- The string that the returned `char *` points to. -/
def tupleGetString (i : Nat) : Outcome (List UInt8) := do
  require ((← tupleGetType tuple i) = Tag.string.byte) .assertion
  match ← listGet tuple.elements i with
  | .pointer offset => do
      let n ← strlen (tuple.data.drop (offset + 1))
      readBytes tuple.data (offset + 1) n
  | .tuple _ _ _ => .error .assertion

/-- The bytes that the returned buffer points to, up to the end of the data. -/
def tupleGetBinary (i : Nat) : Outcome Buffer := do
  require ((← tupleGetType tuple i) = Tag.binary.byte) .assertion
  match ← listGet tuple.elements i with
  | .pointer offset => do
      let size ← readBytes tuple.data (offset + 1) 4
      return ⟨littleEndian size, tuple.data.drop (offset + 5)⟩
  | .tuple _ _ _ => .error .assertion

def tupleGetTuple (i : Nat) : Outcome Tuple := do
  require ((← tupleGetType tuple i) = Tag.tupleStart.byte) .assertion
  match ← listGet tuple.elements i with
  | .tuple start length elements => .ok ⟨tuple.data, start, length, elements⟩
  | .pointer _ => .error .outOfBounds

/-- The bytes `start[0..length)` that the source hashes. -/
def Tuple.bytes : List UInt8 :=
  (tuple.data.drop tuple.start).take tuple.length

mutual

/-- The loop of `tuple_destroy`. A pointer to a start tag would be taken for a
`tuple_t *`. -/
def destroyElements (data : List UInt8) : List Element → Outcome Unit
  | [] => .ok ()
  | element :: elements => do
      destroyElement data element
      destroyElements data elements

def destroyElement (data : List UInt8) : Element → Outcome Unit
  | .pointer offset =>
      match data[offset]? with
      | none => .error .outOfBounds
      | some byte =>
          if byte = Tag.tupleStart.byte then .error .outOfBounds else .ok ()
  | .tuple _ _ elements => destroyElements data elements

end

/-- `tuple_destroy`, where a `tuple_t *` is `none` when it is `NULL`. -/
def tupleDestroy : Option Tuple → Outcome Unit
  | none => .error .assertion
  | some tuple => destroyElements tuple.data tuple.elements

end Accessors

end Whosecoin.TupleParser

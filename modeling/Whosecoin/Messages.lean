import Whosecoin.TupleFormat

namespace Whosecoin.Messages

open Library.Outcomes
open Library.ByteStrings
open TupleParser
open TupleFormat

/-- A `guid_t`, four words of 32 bits. -/
structure Guid where
  i₀ : UInt32
  i₁ : UInt32
  i₂ : UInt32
  i₃ : UInt32
deriving DecidableEq

def Guid.words (guid : Guid) : List UInt32 :=
  [guid.i₀, guid.i₁, guid.i₂, guid.i₃]

/-- The guid of a message that is not passed on. -/
def guidNull : Guid :=
  ⟨0, 0, 0, 0⟩

def guidIsNull (guid : Guid) : Bool :=
  guid.words.all fun word => word = 0

/-- The loop of `guid_compare`. -/
def compareWords : List UInt32 → List UInt32 → Int
  | a :: as, b :: bs => if a < b then -1 else if b < a then 1 else compareWords as bs
  | _, _ => 0

/-- The order of the words, the first one that differs decides. -/
def guidCompare (g₁ g₂ : Guid) : Int :=
  compareWords g₁.words g₂.words

/-- What every message starts with. -/
def messageMagicNumber : UInt32 :=
  0x54524a54

/-- Magic number, length, guid and type. -/
def messageHeaderSize : Nat :=
  2 * 4 + 16 + 2

section Fields

variable (message : List UInt8)

/-- `ntohl(((uint32_t *) message)[index])`. -/
def messageWord (index : Nat) : Outcome UInt32 :=
  (readBytes message (4 * index) 4).map fun bytes => UInt32.ofNat (bigEndian bytes)

def messageGetMagic : Outcome UInt32 :=
  messageWord message 0

def messageGetLength : Outcome UInt32 :=
  messageWord message 1

def messageGetGuid : Outcome Guid := do
  let i₀ ← messageWord message 2
  let i₁ ← messageWord message 3
  let i₂ ← messageWord message 4
  let i₃ ← messageWord message 5
  return ⟨i₀, i₁, i₂, i₃⟩

def messageGetType : Outcome UInt16 :=
  (readBytes message 24 2).map fun bytes => UInt16.ofNat (bigEndian bytes)

/-- `((uint32_t *) message)[index] = htonl(word)`. -/
def setWord (index : Nat) (word : UInt32) : List UInt8 :=
  overwrite message (4 * index) (toBigEndian 4 word.toNat)

def messageSetMagic (magic : UInt32) : List UInt8 :=
  setWord message 0 magic

def messageSetLength (length : UInt32) : List UInt8 :=
  setWord message 1 length

def messageSetGuid (guid : Guid) : List UInt8 :=
  setWord (setWord (setWord (setWord message 2 guid.i₀) 3 guid.i₁) 4 guid.i₂) 5 guid.i₃

def messageSetType (type : UInt16) : List UInt8 :=
  overwrite message 24 (toBigEndian 2 type.toNat)

end Fields

/-- The message that `network_send` and `network_broadcast` lay out in a local
array, whose first contents do not matter. -/
def messageCreate (guid : Guid) (event : UInt32) (buffer : List UInt8) : List UInt8 :=
  let message := List.replicate (messageHeaderSize + buffer.length) 0
  let message := messageSetMagic message messageMagicNumber
  let message := messageSetLength message (UInt32.ofNat buffer.length)
  let message := messageSetGuid message guid
  let message := messageSetType message event.toUInt16
  overwrite message messageHeaderSize buffer

theorem guidIsNull_iff (guid : Guid) : guidIsNull guid = true ↔ guid = guidNull := by
  obtain ⟨i₀, i₁, i₂, i₃⟩ := guid
  simp [guidIsNull, Guid.words, guidNull]

theorem compareWords_eq_zero_iff {as bs : List UInt32} (hlen : as.length = bs.length) :
    compareWords as bs = 0 ↔ as = bs := by
  induction as generalizing bs with
  | nil =>
      have : bs = [] := List.eq_nil_of_length_eq_zero hlen.symm
      simp [this, compareWords]
  | cons a as ih =>
      rcases bs with _ | ⟨b, bs⟩
      · simp at hlen
      have htail : as.length = bs.length := by simpa using hlen
      rw [compareWords, List.cons.injEq]
      split_ifs with hlt hgt
      · have : a ≠ b := UInt32.ne_of_lt hlt
        simp [this]
      · have : a ≠ b := (UInt32.ne_of_lt hgt).symm
        simp [this]
      · have : a = b := UInt32.le_antisymm (UInt32.not_lt.mp hgt) (UInt32.not_lt.mp hlt)
        rw [ih htail, and_iff_right this]

theorem guidCompare_eq_zero_iff (g₁ g₂ : Guid) : guidCompare g₁ g₂ = 0 ↔ g₁ = g₂ := by
  rw [guidCompare, @compareWords_eq_zero_iff g₁.words g₂.words rfl]
  cases g₁
  cases g₂
  simp [Guid.words]

section Layout

/-- The header of a message of type `event` with `length` bytes behind it. -/
def header (guid : Guid) (event : UInt32) (length : Nat) : List UInt8 :=
  toBigEndian 4 messageMagicNumber.toNat ++ toBigEndian 4 (UInt32.ofNat length).toNat ++
    toBigEndian 4 guid.i₀.toNat ++ toBigEndian 4 guid.i₁.toNat ++
      toBigEndian 4 guid.i₂.toNat ++
    toBigEndian 4 guid.i₃.toNat ++ toBigEndian 2 event.toUInt16.toNat

variable {written free bytes : List UInt8}

theorem header_length (guid : Guid) (event : UInt32) (length : Nat) :
    (header guid event length).length = messageHeaderSize := by
  simp [header, messageHeaderSize]

theorem overwrite_append {offset : Nat} (hoffset : written.length = offset) :
    overwrite (written ++ free) offset bytes = written ++ bytes ++ free.drop bytes.length := by
  rw [overwrite, List.take_left' hoffset, ← hoffset, List.drop_append,
    List.drop_of_length_le (Nat.le_add_right _ _), Nat.add_sub_cancel_left, List.nil_append,
    List.append_assoc]

theorem setWord_append {index : Nat} {word : UInt32} (hindex : written.length = 4 * index) :
    setWord (written ++ free) index word =
      written ++ toBigEndian 4 word.toNat ++ free.drop 4 := by
  rw [setWord, overwrite_append hindex, toBigEndian_length]

theorem messageCreate_eq (guid : Guid) (event : UInt32) (buffer : List UInt8) :
    messageCreate guid event buffer = header guid event buffer.length ++ buffer := by
  rw [messageCreate, ← List.nil_append (List.replicate _ _)]
  simp only [messageSetMagic, messageSetLength, messageSetGuid, messageSetType]
  rw [setWord_append rfl, setWord_append (by simp), setWord_append (by simp),
    setWord_append (by simp), setWord_append (by simp), setWord_append (by simp),
    overwrite_append (by simp), overwrite_append (by simp [messageHeaderSize])]
  have hempty : ((((((((List.replicate (messageHeaderSize + buffer.length) (0 : UInt8)).drop
      4).drop 4).drop 4).drop 4).drop 4).drop 4).drop (toBigEndian 2
        event.toUInt16.toNat).length).drop buffer.length = [] := by
    simp only [List.drop_replicate, toBigEndian_length, messageHeaderSize,
      List.replicate_eq_nil_iff]
    omega
  rw [hempty, List.append_nil, List.nil_append, header]

theorem messageCreate_length (guid : Guid) (event : UInt32) (buffer : List UInt8) :
    (messageCreate guid event buffer).length = messageHeaderSize + buffer.length := by
  rw [messageCreate_eq, List.length_append, header_length]

theorem messageWord_eq_ok {message : List UInt8} {index : Nat} {word : UInt32}
    (hat : At message (4 * index) (toBigEndian 4 word.toNat)) :
    messageWord message index = .ok word := by
  have hread := readBytes_eq_ok.mpr ⟨toBigEndian_length 4 word.toNat, hat⟩
  rw [messageWord, hread, Except.map, bigEndian_toBigEndian 4 _ word.toNat_lt, UInt32.ofNat_toNat]

theorem fields_of_header {message : List UInt8} {guid : Guid} {event : UInt32} {length : Nat}
    (hheader : At message 0 (header guid event length)) :
    messageGetGuid message = .ok guid ∧ messageGetLength message = .ok (UInt32.ofNat length) ∧
      messageGetType message = .ok event.toUInt16 := by
  simp only [header, at_append, List.length_append, toBigEndian_length] at hheader
  obtain ⟨⟨⟨⟨⟨⟨-, hlength⟩, h₀⟩, h₁⟩, h₂⟩, h₃⟩, htype⟩ := hheader
  refine ⟨?_, messageWord_eq_ok hlength, ?_⟩
  · rw [messageGetGuid, messageWord_eq_ok h₀, messageWord_eq_ok h₁, messageWord_eq_ok h₂,
      messageWord_eq_ok h₃]
    rfl
  · have hread := readBytes_eq_ok.mpr ⟨toBigEndian_length 2 event.toUInt16.toNat, htype⟩
    rw [messageGetType, hread, Except.map,
      bigEndian_toBigEndian 2 _ event.toUInt16.toNat_lt, UInt16.ofNat_toNat]

theorem at_messageCreate (guid : Guid) (event : UInt32) (buffer after : List UInt8) :
    At (messageCreate guid event buffer ++ after) 0 (header guid event buffer.length) := by
  rw [messageCreate_eq, List.append_assoc]
  exact ⟨[], _, rfl, rfl⟩

theorem messageGetGuid_messageCreate (guid : Guid) (event : UInt32) (buffer : List UInt8) :
    messageGetGuid (messageCreate guid event buffer) = .ok guid := by
  have hheader := at_messageCreate guid event buffer []
  rw [List.append_nil] at hheader
  exact (fields_of_header hheader).1

theorem messageWord_returns {message : List UInt8} {index : Nat}
    (h : 4 * index + 4 ≤ message.length) : ∃ word, messageWord message index = .ok word := by
  rw [messageWord, readBytes, if_pos h]
  exact ⟨_, rfl⟩

theorem messageGetGuid_returns {message : List UInt8} (h : messageHeaderSize ≤ message.length) :
    ∃ guid, messageGetGuid message = .ok guid := by
  rw [messageHeaderSize] at h
  obtain ⟨i₀, h₀⟩ := @messageWord_returns message 2 (by omega)
  obtain ⟨i₁, h₁⟩ := @messageWord_returns message 3 (by omega)
  obtain ⟨i₂, h₂⟩ := @messageWord_returns message 4 (by omega)
  obtain ⟨i₃, h₃⟩ := @messageWord_returns message 5 (by omega)
  exact ⟨⟨i₀, i₁, i₂, i₃⟩, by rw [messageGetGuid, h₀, h₁, h₂, h₃]; rfl⟩

theorem messageGetType_returns {message : List UInt8} (h : messageHeaderSize ≤ message.length) :
    ∃ type, messageGetType message = .ok type := by
  rw [messageHeaderSize] at h
  rw [messageGetType, readBytes, if_pos (by omega)]
  exact ⟨_, rfl⟩

end Layout

end Whosecoin.Messages

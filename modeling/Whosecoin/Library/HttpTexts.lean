import Whosecoin.Library.JsonTexts

namespace Whosecoin.Library.HttpTexts

open Library.JsonTexts (decimal digitsValue)

def crlf : List UInt8 :=
  [13, 10]

/-- A header field. -/
structure Field where
  name : List UInt8
  value : List UInt8
deriving DecidableEq

/-- A message whose body is as long as its field `Content-Length` says. -/
structure Message where
  code : Nat
  fields : List Field
  body : List UInt8

section Writing

def Field.text (field : Field) : List UInt8 :=
  field.name ++ 58 :: 32 :: field.value ++ crlf

/-- The status line with the version and the reason. -/
def statusLine (version : List UInt8) (code : Nat) (reason : List UInt8) : List UInt8 :=
  version ++ 32 :: (decimal code ++ 32 :: reason) ++ crlf

def Message.text (version reason : List UInt8) (message : Message) : List UInt8 :=
  statusLine version message.code reason ++
    (message.fields.flatMap Field.text ++ (crlf ++ message.body))

end Writing

section Reading

/-- The first line and what is behind its end. -/
def takeLine : List UInt8 → Option (List UInt8 × List UInt8)
  | [] => none
  | c :: rest =>
      if c = 13 ∧ rest.head? = some 10 then some ([], rest.tail)
      else (takeLine rest).map fun line => (c :: line.1, line.2)

/-- A line of the form `name: value`. -/
def parseField (line : List UInt8) : Option Field :=
  let value := line.dropWhile (· ≠ 58)
  if value.take 2 = [58, 32] then some ⟨line.takeWhile (· ≠ 58), value.drop 2⟩ else none

/-- The fields up to an empty line, and what is behind it. -/
def parseFields : (fuel : Nat) → List UInt8 → Option (List Field × List UInt8)
  | 0, _ => none
  | fuel + 1, text => do
      let (line, rest) ← takeLine text
      if line = [] then return ([], rest)
      let field ← parseField line
      let (fields, rest) ← parseFields fuel rest
      return (field :: fields, rest)

/-- The digits between the first two blanks. -/
def parseStatus (line : List UInt8) : Nat :=
  digitsValue (((line.dropWhile (· ≠ 32)).drop 1).takeWhile (· ≠ 32))

/-- The value of the first field with this name. -/
def fieldNamed (fields : List Field) (name : List UInt8) : Option (List UInt8) :=
  (fields.find? fun field => field.name = name).map Field.value

/-- A message and what is behind it, as a client reads them. -/
def readMessage (lengthName : List UInt8) (text : List UInt8) :
    Option (Message × List UInt8) := do
  let (line, rest) ← takeLine text
  let (fields, rest) ← parseFields (rest.length + 1) rest
  let length := digitsValue (← fieldNamed fields lengthName)
  if rest.length < length then none
  else return (⟨parseStatus line, fields, rest.take length⟩, rest.drop length)

end Reading

section RoundTrip

/-- A field that can be written on a line. -/
structure Field.Plain (field : Field) : Prop where
  name_free : 58 ∉ field.name ∧ 13 ∉ field.name
  value_free : 13 ∉ field.value

theorem takeLine_line {line : List UInt8} (hline : 13 ∉ line) (rest : List UInt8) :
    takeLine (line ++ crlf ++ rest) = some (line, rest) := by
  induction line with
  | nil => rfl
  | cons c line ih =>
      rw [List.mem_cons, not_or] at hline
      rw [List.cons_append, List.cons_append, takeLine, if_neg (fun h => hline.1 h.1.symm),
        ih hline.2]
      rfl

theorem takeWhile_free {c : UInt8} {front : List UInt8} (hfront : c ∉ front) (rest : List UInt8) :
    (front ++ c :: rest).takeWhile (· ≠ c) = front ∧
      (front ++ c :: rest).dropWhile (· ≠ c) = c :: rest := by
  have hall : ∀ d ∈ front, decide (d ≠ c) = true := by
    intro d hd
    exact decide_eq_true fun heq => hfront (heq ▸ hd)
  rw [List.takeWhile_append_of_pos hall, List.dropWhile_append_of_pos hall,
    List.takeWhile_cons_of_neg (by simp), List.dropWhile_cons_of_neg (by simp), List.append_nil]
  exact ⟨rfl, rfl⟩

theorem parseField_text {field : Field} (h : field.Plain) :
    parseField (field.name ++ 58 :: 32 :: field.value) = some field := by
  obtain ⟨htake, hdrop⟩ := takeWhile_free h.name_free.1 (32 :: field.value)
  rw [parseField, hdrop, htake]
  exact if_pos rfl

theorem parseFields_text {fields : List Field} (hfields : ∀ field ∈ fields, field.Plain)
    {fuel : Nat} (hfuel : fields.length < fuel) (rest : List UInt8) :
    parseFields fuel (fields.flatMap Field.text ++ (crlf ++ rest)) = some (fields, rest) := by
  induction fields generalizing fuel with
  | nil =>
      obtain ⟨fuel, rfl⟩ : ∃ n, fuel = n + 1 := ⟨fuel - 1, by omega⟩
      rfl
  | cons field fields ih =>
      rw [List.forall_mem_cons] at hfields
      obtain ⟨hfield, hfields⟩ := hfields
      rw [List.length_cons] at hfuel
      obtain ⟨fuel, rfl⟩ : ∃ n, fuel = n + 1 := ⟨fuel - 1, by omega⟩
      have hline : 13 ∉ field.name ++ 58 :: 32 :: field.value := by
        have hname := hfield.name_free.2
        have hvalue := hfield.value_free
        simp [hname, hvalue]
      have hne : field.name ++ 58 :: 32 :: field.value ≠ [] := by simp
      rw [List.flatMap_cons, Field.text, List.append_assoc, parseFields, takeLine_line hline]
      have hrest := ih hfields (Nat.lt_of_succ_lt_succ hfuel)
      simp only [Option.bind_eq_bind, Option.bind_some, if_neg hne, parseField_text hfield, hrest]
      rfl

theorem parseStatus_line {version : List UInt8} (hversion : 32 ∉ version) (code : Nat)
    (reason : List UInt8) :
    parseStatus (version ++ 32 :: (decimal code ++ 32 :: reason)) = code := by
  have hdigits : 32 ∉ decimal code := by
    intro hmem
    have hdigit := JsonTexts.isDigit_of_mem_decimal hmem
    revert hdigit
    decide
  rw [parseStatus, (takeWhile_free hversion _).2, List.drop_succ_cons, List.drop_zero,
    (takeWhile_free hdigits _).1, JsonTexts.digitsValue_decimal]

theorem length_le_text (fields : List Field) :
    fields.length ≤ (fields.flatMap Field.text).length := by
  induction fields with
  | nil => exact le_rfl
  | cons field fields ih =>
      rw [List.flatMap_cons, List.length_append, List.length_cons, Field.text, crlf,
        List.length_append, List.length_cons, List.length_cons]
      omega

/-- A client reads back what was written, up to the last byte of the body. -/
theorem readMessage_text {version reason lengthName : List UInt8} {message : Message}
    (hversion : 32 ∉ version ∧ 13 ∉ version) (hreason : 13 ∉ reason)
    (hfields : ∀ field ∈ message.fields, field.Plain)
    (hlength : fieldNamed message.fields lengthName = some (decimal message.body.length))
    (rest : List UInt8) :
    readMessage lengthName (message.text version reason ++ rest) = some (message, rest) := by
  have hline : 13 ∉ version ++ 32 :: (decimal message.code ++ 32 :: reason) := by
    have hdigits : 13 ∉ decimal message.code := by
      intro hmem
      have hdigit := JsonTexts.isDigit_of_mem_decimal hmem
      revert hdigit
      decide
    simp [hversion.2, hdigits, hreason]
  have hfuel := length_le_text message.fields
  have htext : message.text version reason ++ rest =
      (version ++ 32 :: (decimal message.code ++ 32 :: reason)) ++ crlf ++
        (message.fields.flatMap Field.text ++ (crlf ++ (message.body ++ rest))) := by
    simp only [Message.text, statusLine, List.append_assoc]
  rw [htext, readMessage, takeLine_line hline]
  simp only [Option.bind_eq_bind, Option.bind_some]
  rw [parseFields_text hfields (by simp only [List.length_append]; omega)]
  simp only [Option.bind_some, hlength, JsonTexts.digitsValue_decimal,
    parseStatus_line hversion.1, List.length_append, List.take_left, List.drop_left]
  rw [if_neg (by omega)]
  rfl

end RoundTrip

end Whosecoin.Library.HttpTexts

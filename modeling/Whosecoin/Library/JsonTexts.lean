import Mathlib

/-!
The texts of JSON values with integer numbers, and a reader that gets the values back.
-/

namespace Whosecoin.Library.JsonTexts

/-- Characters that stand for themselves in a JSON string. -/
def PlainChar (c : UInt8) : Prop :=
  c ≠ 34 ∧ c ≠ 92 ∧ 32 ≤ c

instance (c : UInt8) : Decidable (PlainChar c) :=
  inferInstanceAs (Decidable (_ ∧ _ ∧ _))

/-- A string without quotes, backslashes and control characters. -/
structure PlainString where
  chars : List UInt8
  plain : ∀ c ∈ chars, PlainChar c
deriving DecidableEq

/-- The JSON values of objects, arrays, integers and plain strings. -/
inductive Json where
  | number (n : ℤ)
  | string (s : PlainString)
  | array (elements : List Json)
  | object (members : List (PlainString × Json))

section Texts

/-- The decimal digits of a number. -/
def decimal (n : Nat) : List UInt8 :=
  if n = 0 then [48] else ((Nat.digits 10 n).map fun d => UInt8.ofNat (48 + d)).reverse

def integer (n : ℤ) : List UInt8 :=
  if n < 0 then 45 :: decimal n.natAbs else decimal n.natAbs

def quoted (s : PlainString) : List UInt8 :=
  34 :: (s.chars ++ [34])

mutual

/-- The JSON text of a value, without white space. -/
def Json.text : Json → List UInt8
  | .number n => integer n
  | .string s => quoted s
  | .array elements => 91 :: (textElements elements ++ [93])
  | .object members => 123 :: (textMembers members ++ [125])

def textElements : List Json → List UInt8
  | [] => []
  | v :: [] => v.text
  | v :: w :: vs => v.text ++ 44 :: textElements (w :: vs)

def textMembers : List (PlainString × Json) → List UInt8
  | [] => []
  | (key, v) :: [] => quoted key ++ 58 :: v.text
  | (key, v) :: m :: ms => quoted key ++ 58 :: (v.text ++ 44 :: textMembers (m :: ms))

end

end Texts

section Grammar

def isSpace (c : UInt8) : Bool :=
  c = 32 || c = 9 || c = 10 || c = 13

def isDigit (c : UInt8) : Bool :=
  48 ≤ c && c ≤ 57

/-- The text behind the white space. -/
def skip (text : List UInt8) : List UInt8 :=
  text.dropWhile isSpace

/-- The string up to the next quote, and what follows the quote. -/
def parseChars : List UInt8 → Option (PlainString × List UInt8)
  | [] => none
  | c :: rest =>
      if c = 34 then some (⟨[], by simp⟩, rest)
      else if h : PlainChar c then do
        let (s, rest) ← parseChars rest
        return (⟨c :: s.chars, List.forall_mem_cons.mpr ⟨h, s.plain⟩⟩, rest)
      else none

/-- The value of digits. -/
def digitsValue (digits : List UInt8) : Nat :=
  Nat.ofDigits 10 (digits.reverse.map fun c => c.toNat - 48)

/-- A number without sign. Only zero itself begins with a zero. -/
def parseNat (text : List UInt8) : Option (Nat × List UInt8) :=
  let digits := text.takeWhile isDigit
  if digits = [] ∨ (digits.head? = some 48 ∧ digits ≠ [48]) then none
  else some (digitsValue digits, text.dropWhile isDigit)

/-- The rest of a text that goes on with the character. -/
def expect (c : UInt8) (text : List UInt8) : Option (List UInt8) :=
  match skip text with
  | [] => none
  | d :: rest => if d = c then some rest else none

mutual

/-- A value at the start of a text, and what follows it. -/
def parseValue : (fuel : Nat) → List UInt8 → Option (Json × List UInt8)
  | 0, _ => none
  | fuel + 1, text =>
      match skip text with
      | [] => none
      | c :: rest =>
          if c = 34 then do
            let (s, rest) ← parseChars rest
            return (.string s, rest)
          else if c = 91 then
            match expect 93 rest with
            | some rest => some (.array [], rest)
            | none => do
                let (elements, rest) ← parseElements fuel rest
                return (.array elements, rest)
          else if c = 123 then
            match expect 125 rest with
            | some rest => some (.object [], rest)
            | none => do
                let (members, rest) ← parseMembers fuel rest
                return (.object members, rest)
          else if c = 45 then do
            let (n, rest) ← parseNat rest
            return (.number (-n), rest)
          else do
            let (n, rest) ← parseNat (c :: rest)
            return (.number n, rest)

/-- The elements of an array that is not empty, with its bracket. -/
def parseElements : (fuel : Nat) → List UInt8 → Option (List Json × List UInt8)
  | 0, _ => none
  | fuel + 1, text => do
      let (v, rest) ← parseValue fuel text
      match expect 44 rest with
      | some rest =>
          let (vs, rest) ← parseElements fuel rest
          return (v :: vs, rest)
      | none => return ([v], ← expect 93 rest)

/-- The members of an object that is not empty, with its brace. -/
def parseMembers : (fuel : Nat) → List UInt8 → Option (List (PlainString × Json) × List UInt8)
  | 0, _ => none
  | fuel + 1, text => do
      let (key, rest) ← parseChars (← expect 34 text)
      let (v, rest) ← parseValue fuel (← expect 58 rest)
      match expect 44 rest with
      | some rest =>
          let (ms, rest) ← parseMembers fuel rest
          return ((key, v) :: ms, rest)
      | none => return ([(key, v)], ← expect 125 rest)

end

/-- The value that a text denotes, if the grammar accepts it. -/
def parse (text : List UInt8) : Option Json := do
  let (v, rest) ← parseValue (text.length + 1) text
  if skip rest = [] then some v else none

end Grammar

section Decimals

theorem isDigit_digit {d : Nat} (hd : d < 10) : isDigit (UInt8.ofNat (48 + d)) = true := by
  interval_cases d <;> rfl

theorem toNat_digit {d : Nat} (hd : d < 10) : (UInt8.ofNat (48 + d)).toNat - 48 = d := by
  interval_cases d <;> rfl

theorem isDigit_of_mem_decimal {n : Nat} {c : UInt8} (hc : c ∈ decimal n) : isDigit c = true := by
  rw [decimal] at hc
  split_ifs at hc
  · rw [List.mem_singleton.mp hc]
    rfl
  · rw [List.mem_reverse, List.mem_map] at hc
    obtain ⟨d, hd, rfl⟩ := hc
    exact isDigit_digit (Nat.digits_lt_base (by decide) hd)

theorem decimal_ne_nil (n : Nat) : decimal n ≠ [] := by
  rw [decimal]
  split_ifs with hn
  · exact List.cons_ne_nil _ _
  · rw [Ne, List.reverse_eq_nil_iff, List.map_eq_nil_iff, Nat.digits_eq_nil_iff_eq_zero]
    exact hn

theorem head_decimal {n : Nat} (hn : n ≠ 0) : (decimal n).head? ≠ some 48 := by
  have hne : Nat.digits 10 n ≠ [] := Nat.digits_ne_nil_iff_ne_zero.mpr hn
  have hlast : (Nat.digits 10 n).getLast hne ≠ 0 := Nat.getLast_digit_ne_zero 10 hn
  have hlt : (Nat.digits 10 n).getLast hne < 10 :=
    Nat.digits_lt_base (by decide) (List.getLast_mem hne)
  rw [decimal, if_neg hn, List.head?_reverse, List.getLast?_map,
    List.getLast?_eq_some_getLast hne, Option.map_some, Ne, Option.some.injEq]
  intro hzero
  have hvalue := toNat_digit hlt
  rw [hzero] at hvalue
  exact hlast hvalue.symm

theorem digitsValue_decimal (n : Nat) : digitsValue (decimal n) = n := by
  rw [digitsValue, decimal]
  split_ifs with hn
  · rw [hn]
    rfl
  · rw [List.reverse_reverse, List.map_map]
    have hsame : (Nat.digits 10 n).map ((fun c : UInt8 => c.toNat - 48) ∘
        fun d => UInt8.ofNat (48 + d)) = Nat.digits 10 n := by
      refine (List.map_congr_left ?_).trans (List.map_id _)
      intro d hd
      exact toNat_digit (Nat.digits_lt_base (by decide) hd)
    rw [hsame, Nat.ofDigits_digits]

/-- A number ends before a character that is no digit. -/
theorem parseNat_decimal (n : Nat) {rest : List UInt8}
    (hrest : ∀ c, rest.head? = some c → isDigit c = false) :
    parseNat (decimal n ++ rest) = some (n, rest) := by
  have hstop : rest.takeWhile isDigit = [] ∧ rest.dropWhile isDigit = rest := by
    rcases rest with _ | ⟨c, rest⟩
    · exact ⟨rfl, rfl⟩
    · have hc := hrest c rfl
      simp [hc]
  have htake : (decimal n ++ rest).takeWhile isDigit = decimal n := by
    rw [List.takeWhile_append_of_pos fun c => isDigit_of_mem_decimal, hstop.1, List.append_nil]
  have hdrop : (decimal n ++ rest).dropWhile isDigit = rest := by
    rw [List.dropWhile_append_of_pos fun c => isDigit_of_mem_decimal, hstop.2]
  have hvalid : ¬ (decimal n = [] ∨ ((decimal n).head? = some 48 ∧ decimal n ≠ [48])) := by
    rintro (hnil | ⟨hhead, hzero⟩)
    · exact decimal_ne_nil n hnil
    · by_cases hn : n = 0
      · rw [hn] at hzero
        exact hzero rfl
      · exact head_decimal hn hhead
  rw [parseNat, htake, hdrop, digitsValue_decimal, if_neg hvalid]

end Decimals

section RoundTrip

theorem skip_of_head {text : List UInt8} (h : ∀ c, text.head? = some c → isSpace c = false) :
    skip text = text := by
  rcases text with _ | ⟨c, text⟩
  · rfl
  · rw [skip, List.dropWhile_cons_of_neg]
    rw [h c rfl]
    exact Bool.false_ne_true

theorem expect_self {c : UInt8} (hc : isSpace c = false) (rest : List UInt8) :
    expect c (c :: rest) = some rest := by
  rw [expect, skip_of_head (by simp [hc])]
  exact if_pos rfl

theorem expect_other {c d : UInt8} (hd : isSpace d = false) (hne : d ≠ c) (rest : List UInt8) :
    expect c (d :: rest) = none := by
  rw [expect, skip_of_head (by simp [hd])]
  exact if_neg hne

theorem parseChars_plain (s : PlainString) (rest : List UInt8) :
    parseChars (s.chars ++ 34 :: rest) = some (s, rest) := by
  obtain ⟨chars, plain⟩ := s
  induction chars with
  | nil => rfl
  | cons c chars ih =>
      have hc := plain c List.mem_cons_self
      have hrest := ih fun d hd => plain d (List.mem_cons_of_mem c hd)
      simp only at hrest
      rw [List.cons_append, parseChars, if_neg hc.1, dif_pos hc, hrest]
      rfl

theorem exists_decimal_cons (n : Nat) :
    ∃ c text, decimal n = c :: text ∧ isDigit c = true := by
  obtain ⟨c, text, htext⟩ := List.exists_cons_of_ne_nil (decimal_ne_nil n)
  refine ⟨c, text, htext, @isDigit_of_mem_decimal n c ?_⟩
  rw [htext]
  exact List.mem_cons_self

theorem ne_of_isDigit {c d : UInt8} (hc : isDigit c = true) (hd : isDigit d = false) : c ≠ d := by
  rintro rfl
  rw [hc] at hd
  cases hd

theorem isSpace_of_isDigit {c : UInt8} (hc : isDigit c = true) : isSpace c = false := by
  have hspace : c ≠ 32 := ne_of_isDigit hc rfl
  have htab : c ≠ 9 := ne_of_isDigit hc rfl
  have hnewline : c ≠ 10 := ne_of_isDigit hc rfl
  have hreturn : c ≠ 13 := ne_of_isDigit hc rfl
  simp [isSpace, hspace, htab, hnewline, hreturn]

theorem exists_text_cons (v : Json) :
    ∃ c text, v.text = c :: text ∧ isSpace c = false ∧ c ≠ 93 := by
  match v with
  | .number n =>
      rw [Json.text, integer]
      split_ifs with hn
      · exact ⟨45, _, rfl, rfl, by decide⟩
      · obtain ⟨c, text, htext, hc⟩ := exists_decimal_cons n.natAbs
        exact ⟨c, text, htext, isSpace_of_isDigit hc, ne_of_isDigit hc rfl⟩
  | .string s =>
      rw [Json.text]
      exact ⟨34, _, rfl, rfl, by decide⟩
  | .array elements =>
      rw [Json.text]
      exact ⟨91, _, rfl, rfl, by decide⟩
  | .object members =>
      rw [Json.text]
      exact ⟨123, _, rfl, rfl, by decide⟩

theorem length_text_pos (v : Json) : 0 < v.text.length := by
  obtain ⟨c, text, htext, -, -⟩ := exists_text_cons v
  rw [htext]
  exact Nat.zero_lt_succ _

/-- What may follow a value: no digit, so that a number ends. -/
def Follows (rest : List UInt8) : Prop :=
  ∀ c, rest.head? = some c → isDigit c = false

theorem follows_nil : Follows [] := by
  intro c hc
  cases hc

theorem follows_cons {c : UInt8} (hc : isDigit c = false) (rest : List UInt8) :
    Follows (c :: rest) := by
  intro d hd
  rw [List.head?_cons, Option.some.injEq] at hd
  rwa [← hd]

theorem parseValue_integer (n : ℤ) (fuel : Nat) {rest : List UInt8} (hrest : Follows rest) :
    parseValue (fuel + 1) (integer n ++ rest) = some (.number n, rest) := by
  rw [integer]
  split_ifs with hn
  · rw [List.cons_append, parseValue, skip_of_head (by simp [isSpace])]
    simp [parseNat_decimal n.natAbs hrest, abs_of_neg hn]
  · obtain ⟨c, text, htext, hc⟩ := exists_decimal_cons n.natAbs
    have hdigits := parseNat_decimal n.natAbs hrest
    rw [htext, List.cons_append] at hdigits ⊢
    rw [parseValue, skip_of_head (by simp [isSpace_of_isDigit hc])]
    simp [hdigits, ne_of_isDigit hc, isDigit, abs_of_nonneg (not_lt.mp hn)]

theorem expect_textElements (v : Json) (vs : List Json) (rest : List UInt8) :
    expect 93 (textElements (v :: vs) ++ rest) = none := by
  obtain ⟨c, text, htext, hspace, hne⟩ := exists_text_cons v
  cases vs with
  | nil =>
      rw [textElements, htext, List.cons_append]
      exact expect_other hspace hne _
  | cons w vs =>
      rw [textElements, htext, List.cons_append, List.cons_append]
      exact expect_other hspace hne _

theorem expect_textMembers (m : PlainString × Json) (ms : List (PlainString × Json))
    (rest : List UInt8) : expect 125 (textMembers (m :: ms) ++ rest) = none := by
  obtain ⟨key, v⟩ := m
  cases ms with
  | nil =>
      rw [textMembers]
      exact expect_other rfl (by decide) _
  | cons w ms =>
      rw [textMembers]
      exact expect_other rfl (by decide) _

theorem expect_quoted (s : PlainString) (rest : List UInt8) :
    expect 34 (quoted s ++ rest) = some (s.chars ++ 34 :: rest) := by
  rw [quoted, List.cons_append, List.append_assoc, List.singleton_append]
  exact expect_self rfl _

mutual

theorem parseValue_text (v : Json) {fuel : Nat} (hfuel : v.text.length ≤ fuel)
    {rest : List UInt8} (hrest : Follows rest) :
    parseValue fuel (v.text ++ rest) = some (v, rest) := by
  obtain ⟨fuel, rfl⟩ := Nat.exists_eq_add_one_of_ne_zero
    ((length_text_pos v).trans_le hfuel).ne'
  match v with
  | .number n =>
      rw [Json.text]
      exact parseValue_integer n fuel hrest
  | .string s =>
      rw [Json.text, quoted, List.cons_append, List.append_assoc,
        List.singleton_append, parseValue, skip_of_head (by simp [isSpace])]
      simp [parseChars_plain]
  | .array [] =>
      rw [Json.text, textElements, parseValue]
      rfl
  | .array (v :: vs) =>
      rw [Json.text, List.length_cons, List.length_append, List.length_singleton] at hfuel
      have helements := parseElements_text (v :: vs) (List.cons_ne_nil v vs)
        (Nat.le_of_succ_le_succ hfuel) rest
      rw [Json.text, List.cons_append, List.append_assoc, List.singleton_append, parseValue,
        skip_of_head (by simp [isSpace])]
      simp [expect_textElements, helements]
  | .object [] =>
      rw [Json.text, textMembers, parseValue]
      rfl
  | .object (m :: ms) =>
      rw [Json.text, List.length_cons, List.length_append, List.length_singleton] at hfuel
      have hmembers := parseMembers_text (m :: ms) (List.cons_ne_nil m ms)
        (Nat.le_of_succ_le_succ hfuel) rest
      rw [Json.text, List.cons_append, List.append_assoc, List.singleton_append, parseValue,
        skip_of_head (by simp [isSpace])]
      simp [expect_textMembers, hmembers]

theorem parseElements_text (vs : List Json) (hne : vs ≠ []) {fuel : Nat}
    (hfuel : (textElements vs).length < fuel) (rest : List UInt8) :
    parseElements fuel (textElements vs ++ 93 :: rest) = some (vs, rest) := by
  obtain ⟨fuel, rfl⟩ := Nat.exists_eq_add_one_of_ne_zero hfuel.ne_bot
  have hcomma : isDigit 44 = false := rfl
  have hbracket : isDigit 93 = false := rfl
  match vs with
  | [] => exact absurd rfl hne
  | v :: [] =>
      rw [textElements] at hfuel ⊢
      have hvalue := parseValue_text v (Nat.le_of_lt_succ hfuel) (follows_cons hbracket rest)
      rw [parseElements, hvalue]
      simp [expect_other, expect_self, isSpace]
  | v :: w :: vs =>
      rw [textElements, List.length_append, List.length_cons] at hfuel
      have hfirst : v.text.length ≤ fuel := by omega
      have hothers : (textElements (w :: vs)).length < fuel := by omega
      have hvalue := parseValue_text v hfirst
        (follows_cons hcomma (textElements (w :: vs) ++ 93 :: rest))
      have helements := parseElements_text (w :: vs) (List.cons_ne_nil w vs) hothers rest
      rw [textElements, List.append_assoc, List.cons_append, parseElements, hvalue]
      simp [expect_self, isSpace, helements]

theorem parseMembers_text (ms : List (PlainString × Json)) (hne : ms ≠ []) {fuel : Nat}
    (hfuel : (textMembers ms).length < fuel) (rest : List UInt8) :
    parseMembers fuel (textMembers ms ++ 125 :: rest) = some (ms, rest) := by
  obtain ⟨fuel, rfl⟩ := Nat.exists_eq_add_one_of_ne_zero hfuel.ne_bot
  have hcomma : isDigit 44 = false := rfl
  have hbrace : isDigit 125 = false := rfl
  match ms with
  | [] => exact absurd rfl hne
  | (key, v) :: [] =>
      rw [textMembers, List.length_append, List.length_cons] at hfuel
      have hfirst : v.text.length ≤ fuel := by omega
      have hvalue := parseValue_text v hfirst (follows_cons hbrace rest)
      rw [textMembers, List.append_assoc, List.cons_append, parseMembers, expect_quoted]
      simp [parseChars_plain, hvalue, expect_other, expect_self, isSpace]
  | (key, v) :: m :: ms =>
      rw [textMembers, List.length_append, List.length_cons, List.length_append,
        List.length_cons] at hfuel
      have hfirst : v.text.length ≤ fuel := by omega
      have hothers : (textMembers (m :: ms)).length < fuel := by omega
      have hvalue := parseValue_text v hfirst
        (follows_cons hcomma (textMembers (m :: ms) ++ 125 :: rest))
      have hmembers := parseMembers_text (m :: ms) (List.cons_ne_nil m ms) hothers rest
      rw [textMembers, List.append_assoc, List.cons_append, List.append_assoc, List.cons_append,
        parseMembers, expect_quoted]
      simp [parseChars_plain, hvalue, expect_self, isSpace, hmembers]

end

/-- The text of a value denotes it. -/
theorem parse_text (v : Json) : parse v.text = some v := by
  have hvalue := parseValue_text v (Nat.le_succ _) follows_nil
  rw [List.append_nil] at hvalue
  rw [parse, hvalue]
  rfl

/-- The texts of the elements, each with a comma behind it. -/
def terminated (texts : List (List UInt8)) : List UInt8 :=
  texts.flatMap fun text => text ++ [44]

theorem terminated_cons (text : List UInt8) (texts : List (List UInt8)) :
    terminated (text :: texts) = text ++ 44 :: terminated texts := by
  rw [terminated, List.flatMap_cons, List.append_assoc]
  rfl

theorem terminated_elements (v : Json) (vs : List Json) :
    terminated ((v :: vs).map Json.text) = textElements (v :: vs) ++ [44] := by
  induction vs generalizing v with
  | nil =>
      rw [List.map_singleton, terminated_cons, textElements]
      rfl
  | cons w vs ih =>
      rw [List.map_cons, terminated_cons, ih, textElements, List.append_assoc, List.cons_append]

def memberText (m : PlainString × Json) : List UInt8 :=
  quoted m.1 ++ 58 :: m.2.text

theorem terminated_members (m : PlainString × Json) (ms : List (PlainString × Json)) :
    terminated ((m :: ms).map memberText) = textMembers (m :: ms) ++ [44] := by
  induction ms generalizing m with
  | nil =>
      rw [List.map_singleton, terminated_cons, textMembers]
      rfl
  | cons w ms ih =>
      rw [List.map_cons, terminated_cons, ih, textMembers, memberText]
      simp only [List.append_assoc, List.cons_append]

theorem dropLast_elements (vs : List Json) :
    (terminated (vs.map Json.text)).dropLast = textElements vs := by
  cases vs with
  | nil => rw [List.map_nil, terminated, List.flatMap_nil, List.dropLast_nil, textElements]
  | cons v vs => rw [terminated_elements, List.dropLast_concat]

theorem dropLast_members (ms : List (PlainString × Json)) :
    (terminated (ms.map memberText)).dropLast = textMembers ms := by
  cases ms with
  | nil => rw [List.map_nil, terminated, List.flatMap_nil, List.dropLast_nil, textMembers]
  | cons m ms => rw [terminated_members, List.dropLast_concat]

theorem terminated_last (texts : List (List UInt8)) :
    terminated texts = [] ∨ (terminated texts).getLast? = some 44 := by
  induction texts with
  | nil => exact .inl rfl
  | cons text texts ih =>
      right
      rw [terminated_cons, List.append_cons, List.getLast?_append, List.getLast?_concat]
      rcases ih with hnil | hlast
      · rw [hnil]
        rfl
      · rw [hlast]
        rfl

theorem integer_natCast (n : Nat) : integer n = decimal n := by
  rw [integer, if_neg (not_lt.mpr (Int.natCast_nonneg n)), Int.natAbs_natCast]

end RoundTrip

section Numbers

mutual

/-- The numbers in a value. -/
def Json.numbers : Json → List ℤ
  | .number n => [n]
  | .string _ => []
  | .array elements => numbersOf elements
  | .object members => numbersOfMembers members

def numbersOf : List Json → List ℤ
  | [] => []
  | v :: vs => v.numbers ++ numbersOf vs

def numbersOfMembers : List (PlainString × Json) → List ℤ
  | [] => []
  | (_, v) :: ms => v.numbers ++ numbersOfMembers ms

end

mutual

/-- The value with other numbers. -/
def Json.map (f : ℤ → ℤ) : Json → Json
  | .number n => .number (f n)
  | .string s => .string s
  | .array elements => .array (mapElements f elements)
  | .object members => .object (mapMembers f members)

def mapElements (f : ℤ → ℤ) : List Json → List Json
  | [] => []
  | v :: vs => v.map f :: mapElements f vs

def mapMembers (f : ℤ → ℤ) : List (PlainString × Json) → List (PlainString × Json)
  | [] => []
  | (key, v) :: ms => (key, v.map f) :: mapMembers f ms

end

variable {f : ℤ → ℤ}

mutual

theorem map_eq_self_iff (v : Json) : v.map f = v ↔ ∀ n ∈ v.numbers, f n = n := by
  match v with
  | .number n => simp [Json.map, Json.numbers]
  | .string s => simp [Json.map, Json.numbers]
  | .array elements =>
      rw [Json.map, Json.numbers, Json.array.injEq]
      exact mapElements_eq_self_iff elements
  | .object members =>
      rw [Json.map, Json.numbers, Json.object.injEq]
      exact mapMembers_eq_self_iff members

theorem mapElements_eq_self_iff (vs : List Json) :
    mapElements f vs = vs ↔ ∀ n ∈ numbersOf vs, f n = n := by
  match vs with
  | [] => simp [mapElements, numbersOf]
  | v :: vs =>
      rw [mapElements, numbersOf, List.cons.injEq, List.forall_mem_append]
      exact and_congr (map_eq_self_iff v) (mapElements_eq_self_iff vs)

theorem mapMembers_eq_self_iff (ms : List (PlainString × Json)) :
    mapMembers f ms = ms ↔ ∀ n ∈ numbersOfMembers ms, f n = n := by
  match ms with
  | [] => simp [mapMembers, numbersOfMembers]
  | (key, v) :: ms =>
      rw [mapMembers, numbersOfMembers, List.cons.injEq, Prod.mk.injEq, List.forall_mem_append]
      exact and_congr ((and_iff_right rfl).trans (map_eq_self_iff v)) (mapMembers_eq_self_iff ms)

end

end Numbers

section Members

/-- The value of the first member that has the name. -/
def Json.member (name : List UInt8) : Json → Option Json
  | .object members => (members.find? fun m => m.1.chars = name).map Prod.snd
  | _ => none

end Members

section Lengths

theorem length_decimal_le {n k : Nat} (hk : 0 < k) (hn : n < 10 ^ k) :
    (decimal n).length ≤ k := by
  rw [decimal]
  split_ifs
  · exact hk
  · rw [List.length_reverse, List.length_map]
    exact (Nat.digits_length_le_iff (by decide) n).mpr hn

theorem length_quoted (s : PlainString) : (quoted s).length = s.chars.length + 2 := by
  simp [quoted]

end Lengths

section Printable

theorem printable_integer (n : ℤ) : ∀ c ∈ integer n, 32 ≤ c := by
  have hdecimal : ∀ k : Nat, ∀ c ∈ decimal k, 32 ≤ c := by
    intro k c hc
    have hdigit := isDigit_of_mem_decimal hc
    rw [isDigit, Bool.and_eq_true, decide_eq_true_eq, decide_eq_true_eq] at hdigit
    exact UInt8.le_trans (by decide) hdigit.1
  rw [integer]
  split_ifs
  · rw [List.forall_mem_cons]
    exact ⟨by decide, hdecimal _⟩
  · exact hdecimal _

theorem printable_quoted (s : PlainString) : ∀ c ∈ quoted s, 32 ≤ c := by
  rw [quoted, List.forall_mem_cons, List.forall_mem_append, List.forall_mem_singleton]
  exact ⟨by decide, fun c hc => (s.plain c hc).2.2, by decide⟩

mutual

theorem printable_text : ∀ v : Json, ∀ c ∈ v.text, 32 ≤ c
  | .number n => by
      rw [Json.text]
      exact printable_integer n
  | .string s => by
      rw [Json.text]
      exact printable_quoted s
  | .array elements => by
      rw [Json.text, List.forall_mem_cons, List.forall_mem_append, List.forall_mem_singleton]
      exact ⟨by decide, printable_textElements elements, by decide⟩
  | .object members => by
      rw [Json.text, List.forall_mem_cons, List.forall_mem_append, List.forall_mem_singleton]
      exact ⟨by decide, printable_textMembers members, by decide⟩

theorem printable_textElements : ∀ elements : List Json, ∀ c ∈ textElements elements, 32 ≤ c
  | [] => by simp [textElements]
  | v :: [] => by
      rw [textElements]
      exact printable_text v
  | v :: w :: vs => by
      rw [textElements, List.forall_mem_append, List.forall_mem_cons]
      exact ⟨printable_text v, by decide, printable_textElements (w :: vs)⟩

theorem printable_textMembers : ∀ members : List (PlainString × Json),
    ∀ c ∈ textMembers members, 32 ≤ c
  | [] => by simp [textMembers]
  | (key, v) :: [] => by
      rw [textMembers, List.forall_mem_append, List.forall_mem_cons]
      exact ⟨printable_quoted key, by decide, printable_text v⟩
  | (key, v) :: m :: ms => by
      rw [textMembers, List.forall_mem_append, List.forall_mem_cons, List.forall_mem_append,
        List.forall_mem_cons]
      exact ⟨printable_quoted key, by decide, printable_text v, by decide,
        printable_textMembers (m :: ms)⟩

end

end Printable

end Whosecoin.Library.JsonTexts

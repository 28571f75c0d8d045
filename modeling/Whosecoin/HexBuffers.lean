import Whosecoin.Commands
import Whosecoin.JsonWriters

namespace Whosecoin.HexBuffers

open Library.Outcomes
open Library.ByteStrings
open Commands (CString isspace sscanfHex)
open JsonWriters (hexDigit binaryToHex length_binaryToHex)

/-- A `buffer_t`, whose length is a `uint32_t`. -/
@[ext] structure Buffer where
  data : List UInt8
  length_lt : data.length < 2 ^ 32

section Functions

/-- What `sprintf` with `%02x` stores. -/
def sprintfHex (b : UInt8) : List UInt8 :=
  [hexDigit (b / 16), hexDigit (b % 16), 0]

/-- The loop of `buffer_to_hex`, whose index is a `uint8_t`. -/
def toHexLoop (data : List UInt8) : (fuel : Nat) → (i : UInt8) → (res : List UInt8) →
    Outcome (List UInt8)
  | 0, _, _ => .error .diverges
  | fuel + 1, i, res =>
      if h : i.toNat < data.length then
        if 2 * i.toNat + 3 ≤ res.length then
          toHexLoop data fuel (i + 1) (overwrite res (2 * i.toNat) (sprintfHex data[i.toNat]))
        else .error .outOfBounds
      else .ok res

/-- The size of the result is computed in 32 bits. -/
def bufferToHex (fuel : Nat) (buffer : Buffer) : Outcome CString := do
  let size := (buffer.data.length * 2 + 1) % 2 ^ 32
  let res ← toHexLoop buffer.data fuel 0 (List.replicate size 0)
  return res.takeWhile (· ≠ 0)

/-- The loop of `buffer_from_hex`. Where `sscanf` does not set `x`, it holds any byte. -/
def fromHexLoop (uninitialised : Nat → UInt8) (hex : CString) (length : Nat) :
    (fuel : Nat) → (i : UInt8) → (data : List UInt8) → Outcome (List UInt8)
  | 0, _, _ => .error .diverges
  | fuel + 1, i, data =>
      if i.toNat < length then
        if i.toNat < data.length then
          fromHexLoop uninitialised hex length fuel (i + 1)
            (data.set i.toNat ((sscanfHex (hex.drop (2 * i.toNat))).getD (uninitialised i.toNat)))
        else .error .outOfBounds
      else .ok data

theorem take_length_lt (data : List UInt8) (n : Nat) :
    (data.take (n % 2 ^ 32)).length < 2 ^ 32 := by
  rw [List.length_take]
  exact (Nat.min_le_left _ _).trans_lt (Nat.mod_lt _ (by decide))

/-- The length is the half of that of the string, in 32 bits. -/
def bufferFromHex (uninitialised : Nat → UInt8) (fuel : Nat) (hex : CString) :
    Outcome Buffer := do
  let data ← fromHexLoop uninitialised hex (hex.length / 2 % 2 ^ 32) fuel 0
    (List.replicate hex.length 0)
  return ⟨data.take (hex.length / 2 % 2 ^ 32), take_length_lt data (hex.length / 2)⟩

end Functions

section Digits

/-- The digits that `sprintf` writes. -/
def LowerHex (c : UInt8) : Prop :=
  (48 ≤ c ∧ c ≤ 57) ∨ (97 ≤ c ∧ c ≤ 102)

theorem forall_digit {P : UInt8 → Prop} (h : ∀ n < 16, P (UInt8.ofNat n)) {d : UInt8}
    (hd : d.toNat < 16) : P d := by
  have hdigit := h d.toNat hd
  rwa [UInt8.ofNat_toNat] at hdigit

theorem lowerHex_hexDigit {d : UInt8} (hd : d.toNat < 16) : LowerHex (hexDigit d) := by
  refine forall_digit (P := fun d => LowerHex (hexDigit d)) ?_ hd
  unfold LowerHex
  decide

theorem scan_hexDigit {d : UInt8} (hd : d.toNat < 16) :
    isspace (hexDigit d) = false ∧ ¬ (hexDigit d = 43 ∨ hexDigit d = 45) ∧
      Commands.hexDigit (hexDigit d) = some d := by
  refine forall_digit (P := fun d => isspace (hexDigit d) = false ∧
    ¬ (hexDigit d = 43 ∨ hexDigit d = 45) ∧ Commands.hexDigit (hexDigit d) = some d) ?_ hd
  decide

theorem LowerHex.exists_digit {c : UInt8} (h : LowerHex c) :
    ∃ d : UInt8, d.toNat < 16 ∧ hexDigit d = c := by
  have hall : ∀ n < 256, LowerHex (UInt8.ofNat n) →
      ∃ d < 16, hexDigit (UInt8.ofNat d) = UInt8.ofNat n := by
    unfold LowerHex
    decide +kernel
  obtain ⟨d, hd, heq⟩ := hall c.toNat c.toNat_lt (by rwa [UInt8.ofNat_toNat])
  rw [UInt8.ofNat_toNat] at heq
  exact ⟨UInt8.ofNat d, by rw [UInt8.toNat_ofNat']; omega, heq⟩

theorem high_lt (b : UInt8) : (b / 16).toNat < 16 := by
  rw [UInt8.toNat_div]
  exact Nat.div_lt_of_lt_mul b.toNat_lt

theorem low_lt (b : UInt8) : (b % 16).toNat < 16 := by
  rw [UInt8.toNat_mod]
  exact Nat.mod_lt _ (by decide)

theorem high_low (b : UInt8) : 16 * (b / 16) + b % 16 = b := by
  apply UInt8.toNat_inj.mp
  rw [UInt8.toNat_add, UInt8.toNat_mul, UInt8.toNat_div, UInt8.toNat_mod]
  have hlt := b.toNat_lt
  change (16 * (b.toNat / 16) % 256 + b.toNat % 16) % 256 = b.toNat
  omega

theorem sscanfHex_binaryToHex (b : UInt8) (rest : List UInt8) :
    sscanfHex (hexDigit (b / 16) :: hexDigit (b % 16) :: rest) = some b := by
  obtain ⟨hspace, hsign, hhigh⟩ := scan_hexDigit (high_lt b)
  obtain ⟨-, -, hlow⟩ := scan_hexDigit (low_lt b)
  rw [sscanfHex, List.dropWhile_cons_of_neg (by rw [hspace]; decide)]
  simp only [if_neg hsign, hhigh, hlow, List.head?_cons, Option.bind_some]
  exact congrArg some (high_low b)

theorem binaryToHex_cons (b : UInt8) (data : List UInt8) :
    binaryToHex (b :: data) = hexDigit (b / 16) :: hexDigit (b % 16) :: binaryToHex data :=
  rfl

theorem binaryToHex_append (data data' : List UInt8) :
    binaryToHex (data ++ data') = binaryToHex data ++ binaryToHex data' :=
  List.flatMap_append

theorem lowerHex_binaryToHex (data : List UInt8) : ∀ c ∈ binaryToHex data, LowerHex c := by
  induction data with
  | nil => exact fun c hc => absurd hc List.not_mem_nil
  | cons b data ih =>
      rw [binaryToHex_cons, List.forall_mem_cons, List.forall_mem_cons]
      exact ⟨lowerHex_hexDigit (high_lt b), lowerHex_hexDigit (low_lt b), ih⟩

theorem halves_of_digits {d d' : UInt8} (hd : d.toNat < 16) (hd' : d'.toNat < 16) :
    (16 * d + d') / 16 = d ∧ (16 * d + d') % 16 = d' := by
  have hvalue : (16 * d + d').toNat = 16 * d.toNat + d'.toNat := by
    rw [UInt8.toNat_add, UInt8.toNat_mul]
    change (16 * d.toNat % 256 + d'.toNat) % 256 = _
    omega
  constructor
  · apply UInt8.toNat_inj.mp
    rw [UInt8.toNat_div, hvalue]
    change (16 * d.toNat + d'.toNat) / 16 = _
    omega
  · apply UInt8.toNat_inj.mp
    rw [UInt8.toNat_mod, hvalue]
    change (16 * d.toNat + d'.toNat) % 16 = _
    omega

theorem exists_binaryToHex (n : Nat) (hex : CString) (hlength : hex.length = 2 * n)
    (hdigits : ∀ c ∈ hex, LowerHex c) : ∃ data, binaryToHex data = hex := by
  induction n generalizing hex with
  | zero => exact ⟨[], (List.eq_nil_of_length_eq_zero hlength).symm⟩
  | succ n ih =>
      match hex with
      | [] => cases hlength
      | [_] =>
          rw [List.length_singleton] at hlength
          omega
      | high :: low :: rest =>
          rw [List.forall_mem_cons, List.forall_mem_cons] at hdigits
          obtain ⟨hhigh, hlow, hrest⟩ := hdigits
          rw [List.length_cons, List.length_cons] at hlength
          obtain ⟨data, rfl⟩ := ih rest (by omega) hrest
          obtain ⟨d, hd, rfl⟩ := hhigh.exists_digit
          obtain ⟨d', hd', rfl⟩ := hlow.exists_digit
          refine ⟨(16 * d + d') :: data, ?_⟩
          obtain ⟨hhigh, hlow⟩ := halves_of_digits hd hd'
          rw [binaryToHex_cons, hhigh, hlow]

end Digits

section Loops

variable {uninitialised : Nat → UInt8}

theorem toNat_length {data : List UInt8} (h : data.length < 256) :
    (UInt8.ofNat data.length).toNat = data.length := by
  rw [UInt8.toNat_ofNat']
  exact Nat.mod_eq_of_lt h

theorem ofNat_succ (n : Nat) : UInt8.ofNat n + 1 = UInt8.ofNat (n + 1) :=
  (UInt8.ofNat_add n 1).symm

theorem overwrite_sprintfHex (past : List UInt8) (b : UInt8) (n : Nat) :
    overwrite (binaryToHex past ++ List.replicate (2 * (n + 1) + 1) 0) (2 * past.length)
        (sprintfHex b) =
      binaryToHex (past ++ [b]) ++ List.replicate (2 * n + 1) 0 := by
  have hleft : 2 * (n + 1) + 1 - (2 * past.length + (sprintfHex b).length - 2 * past.length) =
      2 * n := by
    change 2 * (n + 1) + 1 - (2 * past.length + 3 - 2 * past.length) = 2 * n
    omega
  rw [overwrite, List.take_left' (length_binaryToHex past), List.drop_append, length_binaryToHex,
    List.drop_eq_nil_of_le (by rw [length_binaryToHex]; omega), List.nil_append,
    List.drop_replicate, binaryToHex_append, List.append_assoc, hleft, List.replicate_succ]
  rfl

theorem toHexLoop_spec (past rest : List UInt8) (hlength : (past ++ rest).length < 256) :
    toHexLoop (past ++ rest) (rest.length + 1) (UInt8.ofNat past.length)
        (binaryToHex past ++ List.replicate (2 * rest.length + 1) 0) =
      .ok (binaryToHex (past ++ rest) ++ [0]) := by
  have hpast : (UInt8.ofNat past.length).toNat = past.length := by
    apply toNat_length
    rw [List.length_append] at hlength
    omega
  induction rest generalizing past with
  | nil =>
      rw [toHexLoop, dif_neg (by rw [hpast]; simp), List.append_nil]
      rfl
  | cons b rest ih =>
      have hlt : (UInt8.ofNat past.length).toNat < (past ++ b :: rest).length := by
        rw [hpast, List.length_append, List.length_cons]
        omega
      have hbyte : (past ++ b :: rest)[(UInt8.ofNat past.length).toNat] = b := by
        simp [hpast]
      have hsplit : past ++ b :: rest = past ++ [b] ++ rest := List.append_cons past b rest
      rw [toHexLoop, dif_pos hlt, hbyte, hpast, if_pos, List.length_cons, overwrite_sprintfHex,
        ofNat_succ]
      · rw [hsplit] at hlength ⊢
        have hnext := ih (past ++ [b]) hlength (by
          apply toNat_length
          rw [List.length_append] at hlength
          omega)
        have hlonger : (past ++ [b]).length = past.length + 1 := List.length_append
        rw [hlonger] at hnext
        exact hnext
      · rw [List.length_append, length_binaryToHex, List.length_replicate, List.length_cons]
        omega

theorem toHexLoop_diverges {data : List UInt8} (hlength : 256 ≤ data.length) (fuel : Nat)
    (i : UInt8) (res : List UInt8) : ¬ Returns (toHexLoop data fuel i res) := by
  induction fuel generalizing i res with
  | zero => exact not_returns_error _
  | succ fuel ih =>
      rw [toHexLoop, dif_pos (i.toNat_lt.trans_le hlength)]
      split_ifs
      · exact ih (i + 1) _
      · exact not_returns_error _

theorem toHexLoop_length {data res res' : List UInt8} {fuel : Nat} {i : UInt8}
    (h : toHexLoop data fuel i res = .ok res') : res'.length = res.length := by
  induction fuel generalizing i res with
  | zero => cases h
  | succ fuel ih =>
      rw [toHexLoop] at h
      split_ifs at h with hlt hroom
      · rw [ih h, length_overwrite (by omega)]
        change max res.length (2 * i.toNat + 3) = res.length
        omega
      · cases h
        rfl

theorem fromHexLoop_diverges {hex : CString} {length : Nat} (hlength : 256 ≤ length)
    (fuel : Nat) (i : UInt8) (data : List UInt8) :
    ¬ Returns (fromHexLoop uninitialised hex length fuel i data) := by
  induction fuel generalizing i data with
  | zero => exact not_returns_error _
  | succ fuel ih =>
      rw [fromHexLoop, if_pos (i.toNat_lt.trans_le hlength)]
      split_ifs
      · exact ih (i + 1) _
      · exact not_returns_error _

theorem fromHexLoop_spec (past rest left : List UInt8) (hlength : (past ++ rest).length < 256)
    (hleft : rest.length ≤ left.length) :
    ∃ left', fromHexLoop uninitialised (binaryToHex (past ++ rest)) (past ++ rest).length
        (rest.length + 1) (UInt8.ofNat past.length) (past ++ left) =
      .ok (past ++ rest ++ left') := by
  have hpast : (UInt8.ofNat past.length).toNat = past.length := by
    apply toNat_length
    rw [List.length_append] at hlength
    omega
  induction rest generalizing past left with
  | nil =>
      refine ⟨left, ?_⟩
      rw [fromHexLoop, if_neg (by rw [hpast]; simp), List.append_nil]
  | cons b rest ih =>
      obtain ⟨first, left, rfl⟩ := List.exists_cons_of_ne_nil (by
        rintro rfl
        simp at hleft : left ≠ [])
      have hsplit : past ++ b :: rest = past ++ [b] ++ rest := List.append_cons past b rest
      have hscan : sscanfHex ((binaryToHex (past ++ b :: rest)).drop (2 * past.length)) =
          some b := by
        rw [binaryToHex_append, List.drop_left' (length_binaryToHex past)]
        exact sscanfHex_binaryToHex b _
      rw [fromHexLoop, if_pos (by rw [hpast]; simp), if_pos (by rw [hpast]; simp), hpast, hscan,
        Option.getD_some, List.set_append_right _ _ le_rfl, Nat.sub_self, List.set_cons_zero,
        ofNat_succ, List.append_cons past b left, hsplit]
      rw [hsplit] at hlength
      have hnext := ih (past ++ [b]) left hlength (by simpa using hleft) (by
        apply toNat_length
        rw [List.length_append] at hlength
        omega)
      have hlonger : (past ++ [b]).length = past.length + 1 := List.length_append
      rw [hlonger] at hnext
      exact hnext

end Loops

section RoundTrips

variable {uninitialised : Nat → UInt8}

/-- The call comes to an end and gives the result. -/
def Gives {α : Type} (call : Nat → Outcome α) (result : α) : Prop :=
  ∃ fuel, call fuel = .ok result

theorem bufferToHex_of_short {buffer : Buffer} (h : buffer.data.length < 256) :
    Gives (bufferToHex · buffer) (binaryToHex buffer.data) := by
  refine ⟨buffer.data.length + 1, ?_⟩
  have hsize : (buffer.data.length * 2 + 1) % 2 ^ 32 = 2 * buffer.data.length + 1 := by omega
  have hloop := toHexLoop_spec [] buffer.data h
  change toHexLoop buffer.data (buffer.data.length + 1) 0
    (List.replicate (2 * buffer.data.length + 1) 0) =
      .ok (binaryToHex buffer.data ++ [0]) at hloop
  change (do
    let res ← toHexLoop buffer.data (buffer.data.length + 1) 0
      (List.replicate ((buffer.data.length * 2 + 1) % 2 ^ 32) 0)
    return res.takeWhile (· ≠ 0)) = _
  rw [hsize, hloop, ok_bind, List.takeWhile_append_of_pos, List.takeWhile_cons_of_neg,
    List.append_nil]
  · rfl
  · decide
  · intro c hc
    have hdigit := lowerHex_binaryToHex buffer.data c hc
    rw [decide_eq_true_iff]
    rintro rfl
    revert hdigit
    unfold LowerHex
    decide

theorem bufferToHex_of_long {buffer : Buffer} (h : 256 ≤ buffer.data.length) (fuel : Nat) :
    ¬ Returns (bufferToHex fuel buffer) := by
  rw [bufferToHex, returns_bind]
  rintro ⟨res, hres, -⟩
  exact toHexLoop_diverges h _ _ _ ⟨res, hres⟩

theorem bufferFromHex_of_short {buffer : Buffer} (h : buffer.data.length < 256) :
    Gives (bufferFromHex uninitialised · (binaryToHex buffer.data)) buffer := by
  obtain ⟨left, hloop⟩ := @fromHexLoop_spec uninitialised [] buffer.data
    (List.replicate (2 * buffer.data.length) 0) h (by rw [List.length_replicate]; omega)
  have hlength : (binaryToHex buffer.data).length / 2 % 2 ^ 32 = buffer.data.length := by
    rw [length_binaryToHex]
    omega
  change fromHexLoop uninitialised (binaryToHex buffer.data) buffer.data.length
    (buffer.data.length + 1) 0 (List.replicate (2 * buffer.data.length) 0) =
      .ok (buffer.data ++ left) at hloop
  refine ⟨buffer.data.length + 1, ?_⟩
  rw [← length_binaryToHex] at hloop
  simp only [bufferFromHex, hlength, hloop, ok_bind]
  apply congrArg Except.ok
  apply Buffer.ext
  exact List.take_left

theorem length_of_bufferFromHex {fuel : Nat} {hex : CString} {buffer : Buffer}
    (h : bufferFromHex uninitialised fuel hex = .ok buffer) :
    hex.length / 2 % 2 ^ 32 < 256 ∧ buffer.data.length ≤ hex.length / 2 % 2 ^ 32 := by
  rw [bufferFromHex, bind_eq_ok] at h
  obtain ⟨data, hdata, hbuffer⟩ := h
  cases hbuffer
  constructor
  · by_contra hlong
    exact fromHexLoop_diverges (not_lt.mp hlong) _ _ _ ⟨data, hdata⟩
  · exact List.length_take_le _ _

theorem length_of_bufferToHex {fuel : Nat} {hex : CString} {buffer : Buffer}
    (h : bufferToHex fuel buffer = .ok hex) : hex.length ≤ 2 * buffer.data.length + 1 := by
  rw [bufferToHex, bind_eq_ok] at h
  obtain ⟨res, hres, hhex⟩ := h
  cases hhex
  have hlength := toHexLoop_length hres
  have hprefix := (List.takeWhile_prefix (l := res) (· ≠ 0)).length_le
  rw [List.length_replicate] at hlength
  omega

/-- The string of the buffer is its digits, and the buffer of that string is the same. -/
def BufferTrip (uninitialised : Nat → UInt8) (buffer : Buffer) : Prop :=
  ∃ hex, Gives (bufferToHex · buffer) hex ∧ hex.length = 2 * buffer.data.length ∧
    (∀ c ∈ hex, LowerHex c) ∧ Gives (bufferFromHex uninitialised · hex) buffer

/-- A string is read into a buffer that gives the string back. -/
def StringTrip (uninitialised : Nat → UInt8) (hex : CString) : Prop :=
  ∃ buffer, Gives (bufferFromHex uninitialised · hex) buffer ∧
    Gives (bufferToHex · buffer) hex

theorem bufferTrip_iff (buffer : Buffer) :
    BufferTrip uninitialised buffer ↔ buffer.data.length ≤ 255 := by
  constructor
  · rintro ⟨hex, ⟨fuel, hcall⟩, -⟩
    by_contra hlong
    exact bufferToHex_of_long (by omega) fuel ⟨hex, hcall⟩
  · intro h
    exact ⟨_, bufferToHex_of_short (by omega), length_binaryToHex _, lowerHex_binaryToHex _,
      bufferFromHex_of_short (by omega)⟩

theorem stringTrip_iff {hex : CString} (heven : hex.length % 2 = 0)
    (hdigits : ∀ c ∈ hex, LowerHex c) :
    StringTrip uninitialised hex ↔ hex.length ≤ 510 := by
  constructor
  · rintro ⟨buffer, ⟨fuel, hfrom⟩, ⟨fuel', hto⟩⟩
    obtain ⟨hshort, hle⟩ := length_of_bufferFromHex hfrom
    have hhex := length_of_bufferToHex hto
    omega
  · intro h
    obtain ⟨data, rfl⟩ := exists_binaryToHex (hex.length / 2) hex (by omega) hdigits
    rw [length_binaryToHex] at h
    let buffer : Buffer := ⟨data, by omega⟩
    have hshort : buffer.data.length < 256 := by
      change data.length < 256
      omega
    exact ⟨buffer, bufferFromHex_of_short hshort, bufferToHex_of_short hshort⟩

theorem hex_round_trips (uninitialised : Nat → UInt8) (buffer : Buffer) {hex : CString}
    (heven : hex.length % 2 = 0) (hdigits : ∀ c ∈ hex, LowerHex c) :
    (BufferTrip uninitialised buffer ↔ buffer.data.length ≤ 255) ∧
      (StringTrip uninitialised hex ↔ hex.length ≤ 510) :=
  ⟨bufferTrip_iff buffer, stringTrip_iff heven hdigits⟩

theorem hex_round_trips_byte :
    BufferTrip (fun _ => 0) ⟨[0x0f], by norm_num⟩ ∧ StringTrip (fun _ => 0) [97, 48] := by
  have hdigits : ∀ c ∈ [97, 48], LowerHex c := by
    unfold LowerHex
    decide +kernel
  have htrips := hex_round_trips (fun _ => 0) ⟨[0x0f], by norm_num⟩ rfl hdigits
  exact ⟨htrips.1.mpr (by norm_num), htrips.2.mpr (by norm_num)⟩

theorem long_buffer_diverges :
    ∃ buffer : Buffer, buffer.data.length = 256 ∧
      ¬ ∃ hex, Gives (bufferToHex · buffer) hex := by
  have hlength : (List.replicate 256 (0 : UInt8)).length = 256 := by rw [List.length_replicate]
  refine ⟨⟨List.replicate 256 0, by rw [hlength]; norm_num⟩, hlength, ?_⟩
  rintro ⟨hex, fuel, hcall⟩
  exact bufferToHex_of_long hlength.ge fuel ⟨hex, hcall⟩

end RoundTrips

end Whosecoin.HexBuffers

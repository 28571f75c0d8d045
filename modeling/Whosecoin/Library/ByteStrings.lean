import Mathlib

namespace Whosecoin.Library.ByteStrings

/-- The number whose base-256 digits, most significant first, are the bytes. -/
def bigEndian : List UInt8 → Nat
  | [] => 0
  | b :: bs => b.toNat * 256 ^ bs.length + bigEndian bs

/-- The low `width` base-256 digits of a number, most significant first. -/
def toBigEndian : Nat → Nat → List UInt8
  | 0, _ => []
  | width + 1, v => UInt8.ofNat (v / 256 ^ width) :: toBigEndian width v

/-- The number whose base-256 digits, least significant first, are the bytes. -/
def littleEndian (bs : List UInt8) : Nat :=
  bigEndian bs.reverse

/-- The low `width` base-256 digits of a number, least significant first. -/
def toLittleEndian (width v : Nat) : List UInt8 :=
  (toBigEndian width v).reverse

@[simp] theorem toBigEndian_length (width v : Nat) : (toBigEndian width v).length = width := by
  induction width with
  | zero => rfl
  | succ width ih => simp [toBigEndian, ih]

@[simp] theorem toLittleEndian_length (width v : Nat) :
    (toLittleEndian width v).length = width := by
  simp [toLittleEndian]

theorem bigEndian_lt (bs : List UInt8) : bigEndian bs < 256 ^ bs.length := by
  induction bs with
  | nil => simp [bigEndian]
  | cons b bs ih =>
      have hb : b.toNat < 256 := b.toNat_lt
      calc
        bigEndian (b :: bs) = b.toNat * 256 ^ bs.length + bigEndian bs := rfl
        _ < b.toNat * 256 ^ bs.length + 256 ^ bs.length := by omega
        _ = (b.toNat + 1) * 256 ^ bs.length := by ring
        _ ≤ 256 * 256 ^ bs.length := Nat.mul_le_mul_right _ hb
        _ = 256 ^ (b :: bs).length := by rw [List.length_cons, pow_succ, mul_comm]

/-- A digit expansion depends on the number only modulo its range. -/
theorem toBigEndian_add_mul (width v k : Nat) :
    toBigEndian width (v + k * 256 ^ width) = toBigEndian width v := by
  induction width generalizing k with
  | zero => rfl
  | succ width ih =>
      have hshift : v + k * 256 ^ (width + 1) = v + k * 256 * 256 ^ width := by
        rw [pow_succ]
        ring
      have hpos : 0 < 256 ^ width := by positivity
      simp only [toBigEndian, hshift, ih]
      congr 1
      rw [Nat.add_mul_div_right _ _ hpos]
      apply UInt8.toNat_inj.mp
      simp [UInt8.toNat_ofNat']

theorem bigEndian_toBigEndian (width v : Nat) (hv : v < 256 ^ width) :
    bigEndian (toBigEndian width v) = v := by
  induction width generalizing v with
  | zero =>
      have : v = 0 := by simpa using hv
      subst this
      rfl
  | succ width ih =>
      have hpos : 0 < 256 ^ width := by positivity
      have hdigit : v / 256 ^ width < 256 := by
        rw [Nat.div_lt_iff_lt_mul hpos]
        rwa [pow_succ, mul_comm] at hv
      have hlow : toBigEndian width v = toBigEndian width (v % 256 ^ width) := by
        conv_lhs => rw [← Nat.mod_add_div v (256 ^ width), mul_comm]
        exact toBigEndian_add_mul _ _ _
      simp only [toBigEndian, bigEndian, toBigEndian_length, UInt8.toNat_ofNat']
      rw [hlow, ih _ (Nat.mod_lt _ hpos), Nat.mod_eq_of_lt hdigit, mul_comm]
      exact Nat.div_add_mod v (256 ^ width)

theorem toBigEndian_bigEndian (bs : List UInt8) :
    toBigEndian bs.length (bigEndian bs) = bs := by
  induction bs with
  | nil => rfl
  | cons b bs ih =>
      have hpos : 0 < 256 ^ bs.length := by positivity
      have hdigit : (b.toNat * 256 ^ bs.length + bigEndian bs) / 256 ^ bs.length = b.toNat := by
        rw [add_comm, Nat.add_mul_div_right _ _ hpos, Nat.div_eq_of_lt (bigEndian_lt bs)]
        omega
      simp only [List.length_cons, toBigEndian, bigEndian, hdigit]
      rw [add_comm, toBigEndian_add_mul, ih, UInt8.ofNat_toNat]

theorem littleEndian_lt (bs : List UInt8) : littleEndian bs < 256 ^ bs.length := by
  simpa [littleEndian] using bigEndian_lt bs.reverse

theorem littleEndian_toLittleEndian (width v : Nat) (hv : v < 256 ^ width) :
    littleEndian (toLittleEndian width v) = v := by
  simp [littleEndian, toLittleEndian, bigEndian_toBigEndian width v hv]

theorem toLittleEndian_littleEndian (bs : List UInt8) :
    toLittleEndian bs.length (littleEndian bs) = bs := by
  have h := toBigEndian_bigEndian bs.reverse
  rw [List.length_reverse] at h
  simp [littleEndian, toLittleEndian, h]

theorem bigEndian_injective {as bs : List UInt8} (hlen : as.length = bs.length)
    (h : bigEndian as = bigEndian bs) : as = bs := by
  rw [← toBigEndian_bigEndian as, ← toBigEndian_bigEndian bs, hlen, h]

section Positions

/-- The bytes stand in the data at the offset. -/
def At (data : List UInt8) (offset : Nat) (bytes : List UInt8) : Prop :=
  ∃ before after, data = before ++ (bytes ++ after) ∧ before.length = offset

variable {data : List UInt8} {offset : Nat}

theorem At.le_length {bytes : List UInt8} (h : At data offset bytes) :
    offset + bytes.length ≤ data.length := by
  obtain ⟨before, after, rfl, rfl⟩ := h
  simp only [List.length_append]
  omega

theorem At.drop_eq {bytes : List UInt8} (h : At data offset bytes) :
    ∃ after, data.drop offset = bytes ++ after := by
  obtain ⟨before, after, rfl, rfl⟩ := h
  exact ⟨after, List.drop_left⟩

theorem At.take_drop {bytes : List UInt8} (h : At data offset bytes) :
    (data.drop offset).take bytes.length = bytes := by
  obtain ⟨after, hafter⟩ := h.drop_eq
  rw [hafter, List.take_left]

theorem at_of_drop_eq {bytes after : List UInt8} (hoffset : offset ≤ data.length)
    (h : data.drop offset = bytes ++ after) : At data offset bytes := by
  refine ⟨data.take offset, after, ?_, List.length_take_of_le hoffset⟩
  rw [← h, List.take_append_drop]

theorem at_append {as bs : List UInt8} :
    At data offset (as ++ bs) ↔ At data offset as ∧ At data (offset + as.length) bs := by
  constructor
  · rintro ⟨before, after, rfl, rfl⟩
    exact ⟨⟨before, bs ++ after, by simp, rfl⟩, ⟨before ++ as, after, by simp, by simp⟩⟩
  · rintro ⟨⟨before, after, hdata, rfl⟩, ⟨before', after', hdata', hlength⟩⟩
    rw [hdata, ← List.append_assoc] at hdata'
    have hsplit := List.append_inj hdata' (by rw [List.length_append, hlength])
    exact ⟨before, after', by rw [hdata, hsplit.2, List.append_assoc], rfl⟩

theorem at_singleton {b : UInt8} : At data offset [b] ↔ data[offset]? = some b := by
  constructor
  · rintro ⟨before, after, rfl, rfl⟩
    simp
  · intro h
    obtain ⟨hlt, hget⟩ := List.getElem?_eq_some_iff.mp h
    refine @at_of_drop_eq _ _ _ (data.drop (offset + 1)) hlt.le ?_
    rw [List.drop_eq_getElem_cons hlt, hget, List.singleton_append]

theorem at_cons {b : UInt8} {bs : List UInt8} :
    At data offset (b :: bs) ↔ data[offset]? = some b ∧ At data (offset + 1) bs := by
  rw [← List.singleton_append, at_append, at_singleton, List.length_singleton]

theorem At.append_right {bytes : List UInt8} (h : At data offset bytes) (more : List UInt8) :
    At (data ++ more) offset bytes := by
  obtain ⟨before, after, rfl, rfl⟩ := h
  exact ⟨before, after ++ more, by simp only [List.append_assoc], rfl⟩

theorem At.of_take {bytes start rest : List UInt8} (h : At data offset bytes)
    (hdata : data = start ++ rest) (hle : offset + bytes.length ≤ start.length) :
    At start offset bytes := by
  obtain ⟨before, after, hsplit, rfl⟩ := h
  rw [hdata, ← List.append_assoc] at hsplit
  rw [List.append_eq_append_iff] at hsplit
  rcases hsplit with ⟨middle, hbytes, -⟩ | ⟨middle, hstart, -⟩
  · have hlength := congrArg List.length hbytes
    simp only [List.length_append] at hlength
    have hmiddle : middle = [] := List.eq_nil_of_length_eq_zero (by omega)
    rw [hmiddle, List.append_nil] at hbytes
    exact ⟨before, [], by rw [List.append_nil, hbytes], rfl⟩
  · exact ⟨before, middle, by rw [hstart, List.append_assoc], rfl⟩

theorem at_zero_iff {bytes : List UInt8} :
    At data 0 bytes ↔ ∀ i, i < bytes.length → data[i]? = bytes[i]? := by
  constructor
  · rintro ⟨before, after, rfl, hbefore⟩ i hi
    rw [List.eq_nil_of_length_eq_zero hbefore, List.nil_append, List.getElem?_append_left hi]
  · intro h
    refine ⟨[], data.drop bytes.length, ?_, rfl⟩
    have htake : data.take bytes.length = bytes := by
      apply List.ext_getElem?
      intro i
      rcases Nat.lt_or_ge i bytes.length with hi | hi
      · rw [List.getElem?_take_of_lt hi, h i hi]
      · rw [List.getElem?_eq_none hi, List.getElem?_take_eq_none hi]
    conv_lhs => rw [← List.take_append_drop bytes.length data, htake]
    rw [List.nil_append]

end Positions

section Overwriting

/-- The data after bytes have been copied over it from the offset on. -/
def overwrite (data : List UInt8) (offset : Nat) (bytes : List UInt8) : List UInt8 :=
  data.take offset ++ (bytes ++ data.drop (offset + bytes.length))

variable {data bytes : List UInt8} {offset : Nat}

theorem length_overwrite (h : offset ≤ data.length) :
    (overwrite data offset bytes).length = max data.length (offset + bytes.length) := by
  simp only [overwrite, List.length_append, List.length_take, List.length_drop]
  omega

theorem overwrite_getElem?_of_lt {i : Nat} (h : offset ≤ data.length) (hi : i < offset) :
    (overwrite data offset bytes)[i]? = data[i]? := by
  rw [overwrite, List.getElem?_append_left (by rw [List.length_take]; omega),
    List.getElem?_take_of_lt hi]

theorem overwrite_getElem?_of_mem {i : Nat} (h : offset ≤ data.length) (hi : i < bytes.length) :
    (overwrite data offset bytes)[offset + i]? = bytes[i]? := by
  rw [overwrite, List.getElem?_append_right (by rw [List.length_take]; omega),
    List.length_take_of_le h, Nat.add_sub_cancel_left, List.getElem?_append_left hi]

theorem overwrite_getElem?_of_ge {i : Nat} (h : offset ≤ data.length)
    (hi : offset + bytes.length ≤ i) : (overwrite data offset bytes)[i]? = data[i]? := by
  rw [overwrite, ← List.append_assoc, List.getElem?_append_right
    (by rw [List.length_append, List.length_take]; omega), List.length_append,
    List.length_take_of_le h, List.getElem?_drop, Nat.add_sub_cancel' hi]

theorem overwrite_take (h : offset ≤ data.length) :
    (overwrite data offset bytes).take (offset + bytes.length) = data.take offset ++ bytes := by
  rw [overwrite, ← List.append_assoc, List.take_left']
  rw [List.length_append, List.length_take_of_le h]

end Overwriting

section Prefixes

variable {front rest string : List UInt8}

theorem dropPrefix?_append (front rest : List UInt8) :
    (front ++ rest).dropPrefix? front = some rest :=
  List.dropPrefix?_eq_some_iff.mpr ⟨front, rfl, beq_self_eq_true front⟩

theorem eq_of_dropPrefix? (h : string.dropPrefix? front = some rest) :
    string = front ++ rest := by
  obtain ⟨front', rfl, heq⟩ := List.dropPrefix?_eq_some_iff.mp h
  rw [eq_of_beq heq]

end Prefixes

/-- The sign of C's `memcmp` on two regions of one length: the difference of
the first bytes that differ, or zero. -/
def memcmp : List UInt8 → List UInt8 → Int
  | a :: as, b :: bs => if a = b then memcmp as bs else (a.toNat : Int) - b.toNat
  | _, _ => 0

/-- `memcmp` compares regions of one length as big-endian numbers. -/
theorem memcmp_neg_iff {as bs : List UInt8} (hlen : as.length = bs.length) :
    memcmp as bs < 0 ↔ bigEndian as < bigEndian bs := by
  induction as generalizing bs with
  | nil =>
      have : bs = [] := List.eq_nil_of_length_eq_zero hlen.symm
      subst this
      simp [memcmp, bigEndian]
  | cons a as ih =>
      rcases bs with _ | ⟨b, bs⟩
      · simp at hlen
      have htail : as.length = bs.length := by simpa using hlen
      have has := bigEndian_lt as
      have hbs := bigEndian_lt bs
      by_cases hab : a = b
      · subst hab
        simp [memcmp, bigEndian, htail, ih htail]
      · have hne : a.toNat ≠ b.toNat := fun h => hab (UInt8.toNat_inj.mp h)
        simp only [memcmp, hab, if_false, bigEndian, htail]
        rw [htail] at has
        rcases Nat.lt_or_gt_of_ne hne with hlt | hgt
        · have hmul : (a.toNat + 1) * 256 ^ bs.length ≤ b.toNat * 256 ^ bs.length :=
            Nat.mul_le_mul_right _ hlt
          rw [Nat.add_mul] at hmul
          constructor <;> intro _ <;> omega
        · have hmul : (b.toNat + 1) * 256 ^ bs.length ≤ a.toNat * 256 ^ bs.length :=
            Nat.mul_le_mul_right _ hgt
          rw [Nat.add_mul] at hmul
          constructor <;> intro _ <;> omega

theorem memcmp_eq_zero_iff {as bs : List UInt8} (hlen : as.length = bs.length) :
    memcmp as bs = 0 ↔ as = bs := by
  induction as generalizing bs with
  | nil =>
      have : bs = [] := List.eq_nil_of_length_eq_zero hlen.symm
      simp [this, memcmp]
  | cons a as ih =>
      rcases bs with _ | ⟨b, bs⟩
      · simp at hlen
      have htail : as.length = bs.length := by simpa using hlen
      by_cases hab : a = b
      · simp [memcmp, hab, ih htail]
      · have hne : a.toNat ≠ b.toNat := fun h => hab (UInt8.toNat_inj.mp h)
        simp only [memcmp, hab, if_false, List.cons.injEq, false_and, iff_false]
        omega

/-- A byte array of a fixed size. -/
structure Bytes (n : Nat) where
  toList : List UInt8
  length_eq : toList.length = n

namespace Bytes

variable {n : Nat}

@[ext] theorem ext {a b : Bytes n} (h : a.toList = b.toList) : a = b := by
  cases a
  cases b
  simp_all

/-- A zero-initialised array. -/
def zero (n : Nat) : Bytes n :=
  ⟨List.replicate n 0, List.length_replicate⟩

/-- A zero-initialised array whose first bytes are then overwritten. -/
def ofList (n : Nat) (bs : List UInt8) : Bytes n :=
  ⟨bs.take n ++ List.replicate (n - bs.length) 0, by simp; omega⟩

theorem ofList_toList {bs : List UInt8} (h : bs.length = n) : (ofList n bs).toList = bs := by
  subst h
  simp [ofList]

@[simp] theorem ofList_self (a : Bytes n) : ofList n a.toList = a :=
  Bytes.ext (ofList_toList a.length_eq)

/-- The big-endian number an array spells. -/
def value (a : Bytes n) : Nat :=
  bigEndian a.toList

theorem value_injective : Function.Injective (@value n) := by
  intro a b h
  exact Bytes.ext (bigEndian_injective (a.length_eq.trans b.length_eq.symm) h)

/-- Arrays of one size in the order that `memcmp` decides. -/
instance : LinearOrder (Bytes n) :=
  LinearOrder.lift' value value_injective

theorem memcmp_neg_iff_lt (a b : Bytes n) : memcmp a.toList b.toList < 0 ↔ a < b :=
  memcmp_neg_iff (a.length_eq.trans b.length_eq.symm)

end Bytes

section Words

variable {α : Type} [DecidableEq α]

/-- The pieces between the separators that are not empty. -/
def words (sep : α) (xs : List α) : List (List α) :=
  (xs.splitOn sep).filter (· ≠ [])

theorem words_nil (sep : α) : words sep [] = [] :=
  rfl

theorem words_append_cons (sep : α) (xs ys : List α) :
    words sep (xs ++ sep :: ys) = words sep xs ++ words sep ys := by
  rw [words, List.splitOn_append_cons_self, List.filter_append]
  rfl

theorem words_cons (sep : α) (xs : List α) : words sep (sep :: xs) = words sep xs :=
  words_append_cons sep [] xs

theorem words_of_not_mem {sep : α} {word : List α} (hne : word ≠ []) (hsep : sep ∉ word) :
    words sep word = [word] := by
  simp [words, List.splitOn_eq_singleton hsep, hne]

theorem words_dropWhile (sep : α) (xs : List α) :
    words sep (xs.dropWhile (· = sep)) = words sep xs := by
  induction xs with
  | nil => rfl
  | cons x xs ih =>
      rw [List.dropWhile_cons]
      split_ifs with hx
      · rw [decide_eq_true_eq] at hx
        rw [hx, words_cons, ih]
      · rfl

theorem words_of_head {sep x : α} (xs : List α) (hx : x ≠ sep) :
    words sep (x :: xs) = (x :: xs).takeWhile (· ≠ sep) ::
      words sep (((x :: xs).dropWhile (· ≠ sep)).drop 1) := by
  have hne : (x :: xs).takeWhile (· ≠ sep) ≠ [] := by
    simp [hx]
  have hsep : sep ∉ (x :: xs).takeWhile (· ≠ sep) := by
    intro hmem
    simpa using List.mem_takeWhile_imp hmem
  conv_lhs => rw [← @List.takeWhile_append_dropWhile _ (· ≠ sep) (x :: xs)]
  rcases hrest : (x :: xs).dropWhile (· ≠ sep) with _ | ⟨y, ys⟩
  · rw [List.append_nil, words_of_not_mem hne hsep, List.drop_nil, words_nil]
  · have hy : y = sep := by
      have hhead := List.head?_dropWhile_not (p := fun c => decide (c ≠ sep)) (l := x :: xs)
      rw [hrest] at hhead
      simpa using hhead
    rw [hy, words_append_cons, words_of_not_mem hne hsep, List.drop_one, List.tail_cons,
      List.singleton_append]

end Words

end Whosecoin.Library.ByteStrings

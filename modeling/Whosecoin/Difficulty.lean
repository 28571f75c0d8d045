import Whosecoin.Cryptography

namespace Whosecoin.Difficulty

open Cryptography

theorem last_lt {difficulty : Nat} (h : ¬ 8 * generichashBytes < difficulty)
    (hpart : ¬ difficulty % 8 = 0) : difficulty / 8 < 32 := by
  rw [generichashBytes] at h
  omega

/-- The byte that the first byte not covered whole is compared with. -/
def maskOf (difficulty : Nat) : UInt8 :=
  0xff >>> UInt8.ofNat (difficulty % 8)

/-- The loop over the bytes that are covered whole. -/
def zeroBytes (hash : Vector UInt8 32) (difficulty : Nat) : Bool :=
  (hash.toList.take (difficulty / 8)).all (· == 0)

/-- A difficulty beyond the bits of the hash is never met. -/
def hashSatisfiesDifficulty (hash : Vector UInt8 32) (difficulty : UInt32) : Bool :=
  if h : 8 * generichashBytes < difficulty.toNat then false
  else if zeroBytes hash difficulty.toNat = false then false
  else if hpart : difficulty.toNat % 8 = 0 then true
  else
    have hlast := last_lt h hpart
    hash[difficulty.toNat / 8] < maskOf difficulty.toNat

/-- The first bits, from the most significant one of the first byte, are zero. -/
def LeadingZeros (hash : Vector UInt8 32) (bits : Nat) : Prop :=
  ∀ i (_ : i / 8 < 32), i < bits → hash[i / 8].toNat.testBit (7 - i % 8) = false

/-- The bytes that are covered whole are zero, and the byte that is covered in part is
the mask. -/
def OnMask (hash : Vector UInt8 32) (difficulty : Nat) : Prop :=
  difficulty ≤ 256 ∧ difficulty % 8 ≠ 0 ∧ zeroBytes hash difficulty = true ∧
    ∃ _ : difficulty / 8 < 32, hash[difficulty / 8] = maskOf difficulty

theorem maskOf_toNat (difficulty : Nat) :
    (maskOf difficulty).toNat + 1 = 2 ^ (8 - difficulty % 8) := by
  rw [maskOf]
  have h : difficulty % 8 < 8 := Nat.mod_lt _ (by decide)
  generalize difficulty % 8 = r at h
  interval_cases r <;> rfl

theorem byte_lt_iff (byte : UInt8) {k : Nat} (hk : k ≤ 8) :
    byte.toNat < 2 ^ (8 - k) ↔ ∀ j < k, byte.toNat.testBit (7 - j) = false := by
  constructor
  · intro h j hj
    apply Nat.testBit_lt_two_pow
    apply h.trans_le
    exact Nat.pow_le_pow_right (by decide) (by omega)
  · intro h
    apply Nat.lt_pow_two_of_testBit
    intro i hi
    by_cases hsmall : i < 8
    · have hbit := h (7 - i) (by omega)
      rwa [show 7 - (7 - i) = i by omega] at hbit
    · apply Nat.testBit_lt_two_pow
      exact byte.toNat_lt.trans_le (Nat.pow_le_pow_right (by decide) (by omega))

theorem zeroBytes_iff (hash : Vector UInt8 32) (difficulty : Nat) :
    zeroBytes hash difficulty = true ↔
      ∀ i (_ : i < 32), i < difficulty / 8 → hash[i].toNat = 0 := by
  rw [zeroBytes, List.all_eq_true]
  constructor
  · intro h i hi hlt
    have hmem : hash[i] ∈ hash.toList.take (difficulty / 8) := by
      rw [List.mem_take_iff_getElem]
      exact ⟨i, by simp; omega, by simp⟩
    rw [beq_iff_eq.mp (h _ hmem)]
    rfl
  · intro h byte hbyte
    obtain ⟨i, hi, rfl⟩ := List.mem_take_iff_getElem.mp hbyte
    rw [Vector.length_toList] at hi
    rw [Vector.getElem_toList, beq_iff_eq]
    exact UInt8.toNat_inj.mp (h i (by omega) (by omega))

variable {hash : Vector UInt8 32}

theorem LeadingZeros.testBit {bits k j : Nat} (h : LeadingZeros hash bits) (hk : k < 32)
    (hj : j < 8) (hlt : 8 * k + j < bits) : hash[k].toNat.testBit (7 - j) = false := by
  have hbit := h (8 * k + j) (by omega) hlt
  simp only [show (8 * k + j) / 8 = k by omega, show (8 * k + j) % 8 = j by omega] at hbit
  exact hbit

theorem leadingZeros_iff {bits : Nat} :
    LeadingZeros hash bits ↔ zeroBytes hash bits = true ∧
      (bits % 8 ≠ 0 → ∀ _ : bits / 8 < 32, hash[bits / 8].toNat < 2 ^ (8 - bits % 8)) := by
  have hpart : bits % 8 < 8 := Nat.mod_lt _ (by decide)
  rw [zeroBytes_iff]
  constructor
  · intro h
    constructor
    · intro i hi hlt
      have hzero : hash[i].toNat < 2 ^ (8 - 8) := by
        rw [byte_lt_iff _ le_rfl]
        intro j hj
        exact h.testBit hi hj (by omega)
      omega
    · intro hpos hlast
      rw [byte_lt_iff _ hpart.le]
      intro j hj
      exact h.testBit hlast (by omega) (by omega)
  · rintro ⟨hwhole, hlast⟩ i hi hlt
    by_cases hbyte : i / 8 < bits / 8
    · rw [hwhole _ hi hbyte]
      exact Nat.zero_testBit _
    · have hsame : i / 8 = bits / 8 := by omega
      have hbound := hlast (by omega) (by omega)
      rw [byte_lt_iff _ hpart.le] at hbound
      simp only [hsame]
      exact hbound (i % 8) (by omega)

theorem satisfies_iff {difficulty : UInt32} :
    hashSatisfiesDifficulty hash difficulty = true ↔
      difficulty.toNat ≤ 256 ∧ zeroBytes hash difficulty.toNat = true ∧
        (difficulty.toNat % 8 ≠ 0 → ∀ _ : difficulty.toNat / 8 < 32,
          hash[difficulty.toNat / 8].toNat + 1 < 2 ^ (8 - difficulty.toNat % 8)) := by
  rw [hashSatisfiesDifficulty]
  split_ifs with hbig hzero hpart
  · rw [generichashBytes] at hbig
    exact ⟨nofun, fun h => by omega⟩
  · exact ⟨nofun, fun h => absurd h.2.1 (by rw [hzero]; decide)⟩
  · rw [generichashBytes] at hbig
    exact ⟨fun _ => ⟨by omega, by simpa using hzero, fun h => absurd hpart h⟩, fun _ => rfl⟩
  · have hlast := last_lt hbig hpart
    rw [generichashBytes] at hbig
    rw [decide_eq_true_iff, UInt8.lt_iff_toNat_lt, ← maskOf_toNat]
    simp only [Nat.add_lt_add_iff_right]
    constructor
    · intro h
      exact ⟨by omega, by simpa using hzero, fun _ _ => h⟩
    · rintro ⟨-, -, h⟩
      exact h hpart hlast

theorem onMask_iff {difficulty : Nat} :
    OnMask hash difficulty ↔ difficulty ≤ 256 ∧ zeroBytes hash difficulty = true ∧
      difficulty % 8 ≠ 0 ∧ ∃ _ : difficulty / 8 < 32,
        hash[difficulty / 8].toNat + 1 = 2 ^ (8 - difficulty % 8) := by
  simp only [OnMask, ← maskOf_toNat, Nat.add_right_cancel_iff, UInt8.toNat_inj]
  tauto

/-- A hash that passes is not stopped by a smaller difficulty. -/
theorem satisfies_of_le {difficulty lesser : UInt32} (hle : lesser ≤ difficulty)
    (h : hashSatisfiesDifficulty hash difficulty = true) :
    hashSatisfiesDifficulty hash lesser = true := by
  rw [satisfies_iff] at h ⊢
  obtain ⟨hsize, hzero, hlast⟩ := h
  rw [UInt32.le_iff_toNat_le] at hle
  rw [zeroBytes_iff] at hzero
  refine ⟨by omega, ?_, ?_⟩
  · rw [zeroBytes_iff]
    intro i hi hlt
    exact hzero i hi (by omega)
  · intro hpart hbound
    by_cases hbyte : lesser.toNat / 8 < difficulty.toNat / 8
    · rw [hzero _ hbound hbyte]
      apply Nat.one_lt_two_pow
      omega
    · have hsame : lesser.toNat / 8 = difficulty.toNat / 8 := by omega
      have hstrict := hlast (by omega) (by omega)
      simp only [hsame]
      apply hstrict.trans_le
      exact Nat.pow_le_pow_right (by decide) (by omega)

theorem satisfies_iff_leadingZeros (hash : Vector UInt8 32) (difficulty : UInt32) :
    ((hashSatisfiesDifficulty hash difficulty = true ↔
        difficulty.toNat ≤ 256 ∧ LeadingZeros hash difficulty.toNat) ∧
      (hashSatisfiesDifficulty hash difficulty = true →
        ∀ lesser ≤ difficulty, hashSatisfiesDifficulty hash lesser = true)) ↔
    ¬ OnMask hash difficulty.toNat := by
  rw [and_iff_left fun h lesser hle => satisfies_of_le hle h, satisfies_iff, leadingZeros_iff,
    onMask_iff]
  constructor
  · rintro h ⟨hsize, hzero, hpart, hlast, hmask⟩
    have hstrict := (h.mpr ⟨hsize, hzero, fun _ _ => by omega⟩).2.2 hpart hlast
    omega
  · intro h
    constructor
    · rintro ⟨hsize, hzero, hstrict⟩
      refine ⟨hsize, hzero, ?_⟩
      intro hpart hlast
      have hbound := hstrict hpart hlast
      omega
    · rintro ⟨hsize, hzero, hbound⟩
      refine ⟨hsize, hzero, ?_⟩
      intro hpart hlast
      have hle := hbound hpart hlast
      by_contra hstrict
      exact h ⟨hsize, hzero, hpart, hlast, by omega⟩

theorem mask_refused :
    ∃ hash : Vector UInt8 32, LeadingZeros hash 1 ∧ hashSatisfiesDifficulty hash 1 = false := by
  refine ⟨(Vector.replicate 32 0).set 0 0x7f, ?_, by decide⟩
  rw [leadingZeros_iff]
  exact ⟨by decide, by decide⟩

end Whosecoin.Difficulty

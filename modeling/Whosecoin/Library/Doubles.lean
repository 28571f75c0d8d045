import Mathlib

namespace Whosecoin.Library.Doubles

/-- The number has at most `p` significant bits. -/
def HasBits (p n : Nat) : Prop :=
  ∃ m e, m < 2 ^ p ∧ n = m * 2 ^ e

/-- The distance between neighbours with `p` significant bits, at a number. -/
def unit (p n : Nat) : Nat :=
  2 ^ (n.size - p)

/-- The nearest number with `p` significant bits, and of two the one with the even
significand. -/
def roundTo (p n : Nat) : Nat :=
  let low := n / unit p n
  let rest := n % unit p n
  if 2 * rest < unit p n ∨ (2 * rest = unit p n ∧ low % 2 = 0) then low * unit p n
  else (low + 1) * unit p n

variable {p n x : Nat}

theorem unit_pos (p n : Nat) : 0 < unit p n :=
  Nat.two_pow_pos _

theorem roundTo_cases (p n : Nat) :
    (roundTo p n = n / unit p n * unit p n ∧ 2 * (n % unit p n) ≤ unit p n) ∨
      (roundTo p n = n / unit p n * unit p n + unit p n ∧ unit p n ≤ 2 * (n % unit p n)) := by
  rw [roundTo]
  split_ifs with hdown
  · left
    refine ⟨rfl, ?_⟩
    rcases hdown with hlt | ⟨heq, -⟩
    · exact hlt.le
    · exact heq.le
  · right
    refine ⟨Nat.succ_mul _ _, ?_⟩
    by_contra hlt
    exact hdown (.inl (not_le.mp hlt))

theorem roundTo_nearest_multiple (p n k : Nat) :
    |(roundTo p n : ℤ) - n| ≤ |((k * unit p n : Nat) : ℤ) - n| := by
  have hsplit : n / unit p n * unit p n + n % unit p n = n := Nat.div_add_mod' _ _
  have hrest : n % unit p n < unit p n := Nat.mod_lt _ (unit_pos p n)
  have hside : k * unit p n ≤ n / unit p n * unit p n ∨
      n / unit p n * unit p n + unit p n ≤ k * unit p n := by
    rcases Nat.lt_or_ge (n / unit p n) k with hlt | hge
    · right
      rw [← Nat.succ_mul]
      exact Nat.mul_le_mul_right _ hlt
    · left
      exact Nat.mul_le_mul_right _ hge
  rcases roundTo_cases p n with ⟨hround, hhalf⟩ | ⟨hround, hhalf⟩
  · rw [hround, abs_le]
    rcases hside with hside | hside <;> constructor <;> grind
  · rw [hround, abs_le]
    rcases hside with hside | hside <;> constructor <;> grind

theorem unit_dvd (h : HasBits p x) (hle : 2 ^ n.size ≤ 2 * x) : unit p n ∣ x := by
  obtain ⟨m, e, hm, rfl⟩ := h
  have hlt : 2 ^ n.size < 2 ^ (p + e + 1) := by
    calc
      2 ^ n.size ≤ 2 * (m * 2 ^ e) := hle
      _ < 2 * (2 ^ p * 2 ^ e) := by
        have hpos : 0 < 2 ^ e := Nat.two_pow_pos e
        have hlt := (Nat.mul_lt_mul_right hpos).mpr hm
        omega
      _ = 2 ^ (p + e + 1) := by ring
  have hexp : n.size - p ≤ e := by
    have hsize := (Nat.pow_lt_pow_iff_right (by decide)).mp hlt
    omega
  exact (pow_dvd_pow 2 hexp).trans (Nat.dvd_mul_left _ _)

theorem lead_le (hn : n ≠ 0) : 2 ^ n.size ≤ 2 * n := by
  obtain ⟨k, hk⟩ :=
    Nat.exists_eq_add_one_of_ne_zero (Nat.size_pos.mpr (Nat.pos_of_ne_zero hn)).ne'
  have hle : 2 ^ k ≤ n := Nat.lt_size.mp (by omega)
  rw [hk, pow_succ]
  omega

/-- No number with `p` significant bits is nearer. -/
theorem roundTo_nearest (hp : 0 < p) (hx : HasBits p x) :
    |(roundTo p n : ℤ) - n| ≤ |(x : ℤ) - n| := by
  by_cases hlead : 2 ^ n.size ≤ 2 * x
  · obtain ⟨k, hk⟩ := unit_dvd hx hlead
    rw [hk, Nat.mul_comm]
    exact roundTo_nearest_multiple p n k
  · by_cases hlong : p < n.size
    · have hn : n ≠ 0 := by
        rintro rfl
        rw [Nat.size_zero] at hlong
        omega
      have hpower : 2 ^ (p - 1) * unit p n * 2 = 2 ^ n.size := by
        rw [unit, ← pow_add, ← pow_succ]
        congr 1
        omega
      have hleading := lead_le hn
      refine (roundTo_nearest_multiple p n (2 ^ (p - 1))).trans ?_
      rw [abs_of_nonpos (by omega), abs_of_nonpos (by omega)]
      omega
    · have hself := roundTo_nearest_multiple p n n
      rw [unit, Nat.sub_eq_zero_of_le (not_lt.mp hlong), pow_zero, mul_one, sub_self,
        abs_zero] at hself
      exact hself.trans (abs_nonneg _)

theorem hasBits_roundTo (hp : 0 < p) (n : Nat) : HasBits p (roundTo p n) := by
  have hlow : n / unit p n < 2 ^ p := by
    rw [Nat.div_lt_iff_lt_mul (unit_pos p n), unit, ← pow_add]
    exact n.lt_size_self.trans_le (Nat.pow_le_pow_right (by decide) (by omega))
  rcases roundTo_cases p n with ⟨hround, -⟩ | ⟨hround, -⟩
  · exact ⟨n / unit p n, n.size - p, hlow, hround⟩
  · rw [← Nat.succ_mul] at hround
    rcases Nat.lt_or_ge (n / unit p n + 1) (2 ^ p) with hlt | hge
    · exact ⟨n / unit p n + 1, n.size - p, hlt, hround⟩
    · refine ⟨1, p + (n.size - p), Nat.one_lt_two_pow hp.ne', ?_⟩
      have hcarry : n / unit p n + 1 = 2 ^ p := by omega
      rw [hround, Nat.succ_eq_add_one, hcarry, unit, pow_add, one_mul]

/-- Rounding changes nothing exactly where the number has few bits already. -/
theorem roundTo_eq_iff (hp : 0 < p) : roundTo p n = n ↔ HasBits p n := by
  constructor
  · intro h
    rw [← h]
    exact hasBits_roundTo hp n
  · intro h
    have hnearest := @roundTo_nearest p n n hp h
    rw [sub_self, abs_zero, abs_nonpos_iff, sub_eq_zero, Nat.cast_inj] at hnearest
    exact hnearest

end Whosecoin.Library.Doubles

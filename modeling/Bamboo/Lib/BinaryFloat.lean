import Mathlib

/-!
# Rounding to a binary floating-point number

Numbers with a significand of `p + 1` bits and an unbounded exponent; `float64` has `p = 52`.

* `roundEven`: to the nearest integer, and of two such ones to the even one;
* `nearest`: to the nearest number of the format, on the grid of the argument's binade;
* `nearest_mono`, `nearest_one`: rounding keeps the order, and one.
-/

namespace BinaryFloat

/-- The nearest integer, ties to even. -/
def roundEven (q : ℚ) : ℤ :=
  if Int.fract q < 1 / 2 ∨ Int.fract q = 1 / 2 ∧ Even ⌊q⌋ then ⌊q⌋ else ⌊q⌋ + 1

variable {q r : ℚ}

theorem floor_le_roundEven (q : ℚ) : ⌊q⌋ ≤ roundEven q := by
  unfold roundEven
  split_ifs <;> omega

theorem roundEven_le_succ (q : ℚ) : roundEven q ≤ ⌊q⌋ + 1 := by
  unfold roundEven
  split_ifs <;> omega

@[simp] theorem roundEven_intCast (z : ℤ) : roundEven z = z := by
  unfold roundEven
  rw [Int.fract_intCast, Int.floor_intCast, if_pos (Or.inl one_half_pos)]

theorem roundEven_mono : Monotone roundEven := by
  intro q r hqr
  rcases (Int.floor_mono hqr).lt_or_eq with hlt | heq
  · calc roundEven q ≤ ⌊q⌋ + 1 := roundEven_le_succ q
      _ ≤ ⌊r⌋ := hlt
      _ ≤ roundEven r := floor_le_roundEven r
  · -- on one unit interval a larger fraction is not rounded down where a smaller one is rounded up
    have hfract : Int.fract q ≤ Int.fract r := by
      unfold Int.fract
      rw [heq]
      exact sub_le_sub_right hqr _
    by_cases hdown : Int.fract r < 1 / 2 ∨ Int.fract r = 1 / 2 ∧ Even ⌊r⌋
    · have hdown' : Int.fract q < 1 / 2 ∨ Int.fract q = 1 / 2 ∧ Even ⌊q⌋ := by
        rcases hdown with h | ⟨h, heven⟩
        · exact Or.inl (hfract.trans_lt h)
        · exact (h ▸ hfract).lt_or_eq.imp_right fun hq => ⟨hq, heq ▸ heven⟩
      rw [roundEven, if_pos hdown', heq]
      exact floor_le_roundEven r
    · rw [roundEven.eq_1 r, if_neg hdown, ← heq]
      exact roundEven_le_succ q

/-- The unit of the grid around `q`. -/
def ulp (p : ℕ) (q : ℚ) : ℚ := 2 ^ (Int.log 2 q - p)

/-- The nearest number of the format to one that is not negative. -/
def nearestPos (p : ℕ) (q : ℚ) : ℚ := roundEven (q / ulp p q) * ulp p q

/-- **The nearest number of the format.** -/
def nearest (p : ℕ) (q : ℚ) : ℚ := if 0 ≤ q then nearestPos p q else -nearestPos p (-q)

variable (p : ℕ)

theorem ulp_pos (q : ℚ) : 0 < ulp p q := zpow_pos two_pos _

/-- The ends of a binade are on its grid. -/
theorem mul_ulp (q : ℚ) (k : ℕ) : ((2 ^ k : ℤ) : ℚ) * ulp p q = 2 ^ (Int.log 2 q - p + k) := by
  rw [ulp, Int.cast_pow, Int.cast_ofNat, ← zpow_natCast, ← zpow_add₀ two_ne_zero, add_comm]

/-- A positive number is rounded within its binade. -/
theorem nearestPos_mem (hq : 0 < q) :
    (2 : ℚ) ^ Int.log 2 q ≤ nearestPos p q ∧ nearestPos p q ≤ 2 ^ (Int.log 2 q + 1) := by
  have hlow := mul_ulp p q p
  have hhigh := mul_ulp p q (p + 1)
  rw [sub_add_cancel] at hlow
  rw [Nat.cast_add, Nat.cast_one, ← add_assoc, sub_add_cancel] at hhigh
  constructor
  · rw [← hlow, nearestPos]
    refine mul_le_mul_of_nonneg_right (Int.cast_le.2 ?_) (ulp_pos p q).le
    calc (2 ^ p : ℤ) = roundEven ((2 ^ p : ℤ) : ℚ) := (roundEven_intCast _).symm
      _ ≤ roundEven (q / ulp p q) := roundEven_mono ((le_div_iff₀ (ulp_pos p q)).2 ?_)
    rw [hlow]
    exact Int.zpow_log_le_self one_lt_two hq
  · rw [← hhigh, nearestPos]
    refine mul_le_mul_of_nonneg_right (Int.cast_le.2 ?_) (ulp_pos p q).le
    calc roundEven (q / ulp p q) ≤ roundEven ((2 ^ (p + 1) : ℤ) : ℚ) :=
          roundEven_mono ((div_le_iff₀ (ulp_pos p q)).2 ?_)
      _ = 2 ^ (p + 1) := roundEven_intCast _
    rw [hhigh]
    exact (Int.lt_zpow_succ_log_self one_lt_two q).le

@[simp] theorem nearestPos_zero : nearestPos p 0 = 0 := by
  have h := roundEven_intCast 0
  rw [Int.cast_zero] at h
  rw [nearestPos, zero_div, h, Int.cast_zero, zero_mul]

theorem nearestPos_nonneg (hq : 0 ≤ q) : 0 ≤ nearestPos p q := by
  rcases hq.eq_or_lt with rfl | hpos
  · rw [nearestPos_zero]
  · exact (zpow_pos two_pos _).le.trans (nearestPos_mem p hpos).1

theorem nearestPos_mono (hq : 0 ≤ q) (hqr : q ≤ r) : nearestPos p q ≤ nearestPos p r := by
  rcases hq.eq_or_lt with rfl | hpos
  · rw [nearestPos_zero]
    exact nearestPos_nonneg p hqr
  rcases (Int.log_mono_right hpos hqr : Int.log 2 q ≤ Int.log 2 r).lt_or_eq with hlt | heq
  · calc nearestPos p q ≤ 2 ^ (Int.log 2 q + 1) := (nearestPos_mem p hpos).2
      _ ≤ (2 : ℚ) ^ Int.log 2 r := zpow_le_zpow_right₀ one_le_two hlt
      _ ≤ nearestPos p r := (nearestPos_mem p (hpos.trans_le hqr)).1
  · have hulp : ulp p q = ulp p r := by rw [ulp, ulp, heq]
    rw [nearestPos, nearestPos, hulp]
    refine mul_le_mul_of_nonneg_right (Int.cast_le.2 (roundEven_mono ?_)) (ulp_pos p r).le
    exact div_le_div_of_nonneg_right hqr (ulp_pos p r).le

/-- **Rounding keeps the order.** -/
theorem nearest_mono : Monotone (nearest p) := by
  intro q r hqr
  unfold nearest
  split_ifs with hq hr hr
  · exact nearestPos_mono p hq hqr
  · exact absurd (hq.trans hqr) hr
  · exact (neg_nonpos.2 (nearestPos_nonneg p (by linarith))).trans (nearestPos_nonneg p hr)
  · exact neg_le_neg (nearestPos_mono p (by linarith) (neg_le_neg hqr))

theorem nearest_one : nearest p 1 = 1 := by
  have hulp := mul_ulp p 1 p
  have hlog : Int.log 2 (1 : ℚ) = 0 := Int.log_one_right 2
  rw [hlog, zero_sub, neg_add_cancel, zpow_zero] at hulp
  have hdiv : (1 : ℚ) / ulp p 1 = ((2 ^ p : ℤ) : ℚ) := by
    rw [div_eq_iff (ulp_pos p 1).ne', hulp]
  rw [nearest, if_pos zero_le_one, nearestPos, hdiv, roundEven_intCast, hulp]

end BinaryFloat

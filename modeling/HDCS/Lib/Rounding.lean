import Mathlib.Data.Int.Log
import Mathlib.Data.Rat.Floor

/-!
# Rounding to so many bits

A binary floating-point format with `p` bits in the significand, over the rational numbers: the
result of an operation is the nearest number that has `p` bits, and of two that are as near the one
with an even significand. The exponent has no bounds here.

Whole numbers below `2 ^ p` have `p` bits, so a number below `2 ^ p` is not rounded past any of them
(`le_roundTo`, `roundTo_le`).
-/

namespace Lib

/-- The nearest integer; the even one if two are as near. -/
def roundEven (q : ℚ) : ℤ :=
  if q - ⌊q⌋ < 1 / 2 ∨ q - ⌊q⌋ = 1 / 2 ∧ ⌊q⌋ % 2 = 0 then ⌊q⌋ else ⌊q⌋ + 1

/-- How far apart the numbers with `p` bits are around `q`. -/
def ulp (p : Nat) (q : ℚ) : ℚ := 2 ^ (Int.log 2 |q| + 1 - p)

/-- The nearest number with `p` bits. -/
def roundTo (p : Nat) (q : ℚ) : ℚ := roundEven (q / ulp p q) * ulp p q

variable {p : Nat} {q : ℚ} {n : ℤ}

theorem le_roundEven (h : n ≤ q) : n ≤ roundEven q := by
  have hfloor := Int.le_floor.mpr h
  unfold roundEven
  split <;> omega

theorem roundEven_le (h : q ≤ n) : roundEven q ≤ n := by
  unfold roundEven
  split
  · exact_mod_cast (Int.floor_le q).trans h
  · rename_i hnot
    -- what is rounded up is not whole
    have hlt : (⌊q⌋ : ℚ) < n := by
      push Not at hnot
      linarith [hnot.1]
    exact_mod_cast hlt

theorem exists_ulp_eq (hq : 0 < q) (hlt : q < 2 ^ p) : ∃ k : Nat, ulp p q = (2 ^ k)⁻¹ := by
  have hlog : (2 : ℚ) ^ Int.log 2 q < 2 ^ (p : ℤ) := by
    rw [zpow_natCast]
    exact (Int.zpow_log_le_self Nat.one_lt_two hq).trans_lt hlt
  have hexp := (zpow_lt_zpow_iff_right₀ one_lt_two).mp hlog
  refine ⟨(p - (Int.log 2 q + 1)).toNat, ?_⟩
  rw [ulp, abs_of_pos hq, ← zpow_natCast, ← zpow_neg, Int.toNat_of_nonneg (by omega)]
  congr 1
  omega

theorem le_roundTo (hq : 0 < q) (hlt : q < 2 ^ p) (h : n ≤ q) : n ≤ roundTo p q := by
  obtain ⟨k, hk⟩ := exists_ulp_eq hq hlt
  have hpos : (0 : ℚ) < 2 ^ k := by positivity
  rw [roundTo, hk, div_inv_eq_mul, ← div_eq_mul_inv, le_div_iff₀ hpos]
  have hround : n * 2 ^ k ≤ roundEven (q * 2 ^ k) :=
    le_roundEven (by push_cast; gcongr)
  exact_mod_cast hround

theorem roundTo_le (hq : 0 < q) (hlt : q < 2 ^ p) (h : q ≤ n) : roundTo p q ≤ n := by
  obtain ⟨k, hk⟩ := exists_ulp_eq hq hlt
  have hpos : (0 : ℚ) < 2 ^ k := by positivity
  rw [roundTo, hk, div_inv_eq_mul, ← div_eq_mul_inv, div_le_iff₀ hpos]
  have hround : roundEven (q * 2 ^ k) ≤ n * 2 ^ k :=
    roundEven_le (by push_cast; gcongr)
  exact_mod_cast hround

theorem roundTo_natCast {m : Nat} (h : m < 2 ^ p) : roundTo p m = m := by
  rcases Nat.eq_zero_or_pos m with rfl | hpos
  · simp [roundTo, roundEven]
  · have hq : (0 : ℚ) < m := by exact_mod_cast hpos
    have hlt : (m : ℚ) < 2 ^ p := by exact_mod_cast h
    have hle := roundTo_le (n := m) hq hlt (by simp)
    have hge := le_roundTo (n := m) hq hlt (by simp)
    rw [Int.cast_natCast] at hle hge
    exact le_antisymm hle hge

end Lib

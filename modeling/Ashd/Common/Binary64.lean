import Mathlib.Data.Int.Log
import Mathlib.Data.Rat.Floor
import Mathlib.Tactic.Linarith
import Mathlib.Tactic.Positivity
import Mathlib.Tactic.FieldSimp

/-!
# Rounding to floating point

The result of an operation on floating-point numbers of 53 bits is the exact one rounded to
nearest, ties to even. Exponents are not bounded, so that nothing overflows or gets subnormal.

Main results:
* `fl_intCast`: integers of up to 53 bits are not rounded.
* `abs_fl_sub_le`: the relative error.
-/

namespace Ashd

/-- The integer nearest to `x`, and the even one of two. -/
def roundEven (x : ℚ) : ℤ :=
  if x - ⌊x⌋ < 1 / 2 then ⌊x⌋
  else if 1 / 2 < x - ⌊x⌋ then ⌊x⌋ + 1
  else if ⌊x⌋ % 2 = 0 then ⌊x⌋ else ⌊x⌋ + 1

/-- The distance of the numbers around `x` that have 53 bits. -/
def ulp (x : ℚ) : ℚ := 2 ^ (Int.log 2 |x| - 52)

/-- `x` rounded to 53 bits. -/
def fl (x : ℚ) : ℚ := roundEven (x / ulp x) * ulp x

theorem roundEven_intCast (n : ℤ) : roundEven n = n := by
  simp [roundEven]

theorem abs_roundEven_sub_le (x : ℚ) : |roundEven x - x| ≤ 1 / 2 := by
  have h0 := Int.floor_le x
  have h1 := Int.lt_floor_add_one x
  unfold roundEven
  split_ifs with hlt hgt heven <;> rw [abs_le] <;> push_cast <;> constructor <;> linarith

theorem ulp_pos (x : ℚ) : 0 < ulp x := zpow_pos (by norm_num) _

theorem fl_zero : fl 0 = 0 := by
  have := roundEven_intCast 0
  rw [Int.cast_zero] at this
  rw [fl, zero_div, this, Int.cast_zero, zero_mul]

/-- What has 53 bits is not rounded. -/
theorem fl_of_mul {x : ℚ} {n : ℤ} (h : x = n * ulp x) : fl x = x := by
  have hu := (ulp_pos x).ne'
  have hdiv : x / ulp x = n := by
    rw [div_eq_iff hu]
    exact h
  rw [fl, hdiv, roundEven_intCast]
  exact h.symm

theorem fl_intCast {n : ℤ} (h : |n| < 2 ^ 53) : fl n = n := by
  rcases eq_or_ne n 0 with rfl | hn
  · rw [Int.cast_zero, fl_zero]
  · have hpos : (0 : ℚ) < |(n : ℚ)| := abs_pos.mpr (Int.cast_ne_zero.mpr hn)
    have hlog : Int.log 2 |(n : ℚ)| < 53 := by
      refine (Int.lt_zpow_iff_log_lt (by decide) hpos).mp ?_
      rw [← Int.cast_abs]
      exact_mod_cast h
    obtain ⟨k, hk⟩ := Int.eq_ofNat_of_zero_le (show 0 ≤ 52 - Int.log 2 |(n : ℚ)| by omega)
    refine fl_of_mul (n := n * 2 ^ k) ?_
    have hulp : ulp n = (2 ^ k)⁻¹ := by
      rw [ulp, show Int.log 2 |(n : ℚ)| - 52 = -(k : ℤ) by omega, zpow_neg, zpow_natCast]
    rw [hulp]
    push_cast
    field_simp

/-- The error is at most half of the distance. -/
theorem abs_fl_sub_le (x : ℚ) : |fl x - x| ≤ |x| / 2 ^ 53 := by
  rcases eq_or_ne x 0 with rfl | hx
  · simp [fl_zero]
  · have hu := ulp_pos x
    have hpos := abs_pos.mpr hx
    have hle : ulp x ≤ |x| / 2 ^ 52 := by
      have := Int.zpow_log_le_self (b := 2) (by decide) hpos
      rw [ulp, zpow_sub₀ (by norm_num)]
      have h52 : ((2 : ℚ) ^ (52 : ℤ)) = 2 ^ 52 := by norm_num
      rw [h52]
      exact div_le_div_of_nonneg_right (by exact_mod_cast this) (by positivity)
    have hfl : fl x - x = (roundEven (x / ulp x) - x / ulp x) * ulp x := by
      rw [fl, sub_mul, div_mul_cancel₀ _ hu.ne']
    have hround := abs_roundEven_sub_le (x / ulp x)
    rw [hfl, abs_mul, abs_of_pos hu]
    calc |(roundEven (x / ulp x) : ℚ) - x / ulp x| * ulp x ≤ 1 / 2 * (|x| / 2 ^ 52) := by
          gcongr
      _ = |x| / 2 ^ 53 := by ring

end Ashd

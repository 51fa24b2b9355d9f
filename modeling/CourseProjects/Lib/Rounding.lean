import Mathlib.Algebra.Order.Field.Power
import Mathlib.Algebra.Ring.Int.Parity
import Mathlib.Data.Int.Log
import Mathlib.Data.Rat.Floor
import Mathlib.Tactic.Linarith
import Mathlib.Tactic.NormNum

/-!
# Rounding to binary digits

Floating point with `p` binary digits, 53 of them in a double. A number is the rational that
it stands for. The exponent has no bounds, so there are neither subnormal numbers nor
infinities.
-/

namespace CourseProjects.Rounding

variable {p : ℕ} {x e d m u : ℚ} {a b : ℤ}

/-- The nearest integer, and of two nearest ones the even one. -/
def roundEven (x : ℚ) : ℤ :=
  let rest := x - ⌊x⌋
  if rest < 1 / 2 then ⌊x⌋
  else if 1 / 2 < rest then ⌊x⌋ + 1
  else if Even ⌊x⌋ then ⌊x⌋
  else ⌊x⌋ + 1

/-- The weight of the last digit. -/
def unit (p : ℕ) (x : ℚ) : ℚ :=
  2 ^ (Int.log 2 |x| + 1 - p)

/-- The result of an operation whose exact value is `x`. -/
def rounded (p : ℕ) (x : ℚ) : ℚ :=
  roundEven (x / unit p x) * unit p x

/-- The conversion to an integer drops the fraction. -/
def truncate (x : ℚ) : ℤ :=
  if 0 ≤ x then ⌊x⌋ else ⌈x⌉

theorem unit_pos : 0 < unit p x :=
  zpow_pos (by norm_num) _

theorem roundEven_intCast : roundEven a = a := by
  simp [roundEven]

theorem abs_roundEven_sub_le : |(roundEven x : ℚ) - x| ≤ 1 / 2 := by
  have hlow := Int.floor_le x
  have hhigh := Int.lt_floor_add_one x
  unfold roundEven
  rw [abs_le]
  dsimp only
  split_ifs with hless hmore heven
  · constructor <;> linarith
  · push_cast
    constructor <;> linarith
  · constructor <;> linarith
  · push_cast
    constructor <;> linarith

@[simp] theorem rounded_zero : rounded p 0 = 0 := by
  simp [rounded, roundEven]

/-- The error of a rounding, relative to the exact value. -/
theorem abs_rounded_sub_le : |rounded p x - x| ≤ |x| / 2 ^ p := by
  rcases eq_or_ne x 0 with rfl | hx
  · simp
  · have hpow : (2 : ℚ) ^ Int.log 2 |x| ≤ |x| := by
      exact_mod_cast Int.zpow_log_le_self (b := 2) (by decide) (abs_pos.mpr hx)
    have hunit : unit p x / 2 = 2 ^ Int.log 2 |x| / 2 ^ p := by
      rw [unit, zpow_sub₀ two_ne_zero, zpow_add_one₀ two_ne_zero, zpow_natCast]
      ring
    have hsplit : rounded p x - x = (roundEven (x / unit p x) - x / unit p x) * unit p x := by
      rw [rounded, sub_mul, div_mul_cancel₀ x unit_pos.ne']
    calc |rounded p x - x| = |(roundEven (x / unit p x) : ℚ) - x / unit p x| * unit p x := by
          rw [hsplit, abs_mul, abs_of_pos (unit_pos (p := p) (x := x))]
      _ ≤ 1 / 2 * unit p x := by
          exact mul_le_mul_of_nonneg_right abs_roundEven_sub_le unit_pos.le
      _ = 2 ^ Int.log 2 |x| / 2 ^ p := by rw [← hunit]; ring
      _ ≤ |x| / 2 ^ p := div_le_div_of_nonneg_right hpow (by positivity)

/-- The error of an operation whose operands have errors already. -/
theorem abs_rounded_sub_le_of_near (hp : 1 / 2 ^ p ≤ u) (hx : |x - e| ≤ d) (he : |e| ≤ m) :
    |rounded p x - e| ≤ d + (m + d) * u := by
  have hbound : |x| ≤ m + d := by
    calc |x| = |x - e + e| := by rw [sub_add_cancel]
      _ ≤ |x - e| + |e| := abs_add_le _ _
      _ ≤ m + d := by linarith
  have hrounded : |rounded p x - x| ≤ (m + d) * u := by
    calc |rounded p x - x| ≤ |x| / 2 ^ p := abs_rounded_sub_le
      _ = |x| * (1 / 2 ^ p) := by ring
      _ ≤ (m + d) * u := mul_le_mul hbound hp (by positivity) ((abs_nonneg x).trans hbound)
  calc |rounded p x - e| ≤ |rounded p x - x| + |x - e| := abs_sub_le _ _ _
    _ ≤ d + (m + d) * u := by linarith

/-- The error of a product with a factor between 0 and 1 that has an error already. -/
theorem abs_rounded_mul_sub_le {z : ℚ} (hp : 1 / 2 ^ p ≤ u) (hz : |z| ≤ m)
    (hx : |x - e| ≤ d) (h0 : 0 ≤ e) (h1 : e ≤ 1) :
    |rounded p (z * x) - z * e| ≤ m * d + (m + m * d) * u := by
  have hm : 0 ≤ m := (abs_nonneg z).trans hz
  refine abs_rounded_sub_le_of_near hp ?_ ?_
  · rw [← mul_sub, abs_mul]
    exact mul_le_mul hz hx (abs_nonneg _) hm
  · rw [abs_mul, abs_of_nonneg h0]
    exact (mul_le_of_le_one_right (abs_nonneg z) h1).trans hz

/-- An integer with at most `p` digits is not rounded. -/
theorem rounded_intCast (h : |a| < 2 ^ p) : rounded p a = a := by
  rcases eq_or_ne a 0 with rfl | ha
  · simp
  · have hpos : (0 : ℚ) < |(a : ℚ)| := abs_pos.mpr (Int.cast_ne_zero.mpr ha)
    have hlog : Int.log 2 |(a : ℚ)| < p := by
      refine (Int.lt_zpow_iff_log_lt (b := 2) (by decide) hpos).mp ?_
      exact_mod_cast h
    obtain ⟨k, hk⟩ := Int.eq_ofNat_of_zero_le (show 0 ≤ p - (Int.log 2 |(a : ℚ)| + 1) by omega)
    have hunit : unit p (a : ℚ) = (2 ^ k)⁻¹ := by
      rw [unit, ← neg_sub, hk, zpow_neg, zpow_natCast]
    have hquot : (a : ℚ) / unit p a = ((a * 2 ^ k : ℤ) : ℚ) := by
      rw [hunit, div_inv_eq_mul]
      push_cast
      rfl
    rw [rounded, hquot, roundEven_intCast, hunit]
    push_cast
    rw [mul_assoc, mul_inv_cancel₀ (by positivity), mul_one]

theorem rounded_one (hp : 0 < p) : rounded p 1 = 1 := by
  exact_mod_cast rounded_intCast (a := 1) (by simpa using one_lt_pow₀ one_lt_two hp.ne')

/-- Between integers the conversion stays between them. -/
theorem truncate_mem (ha : (a : ℚ) ≤ x) (hb : x ≤ b) : a ≤ truncate x ∧ truncate x ≤ b := by
  unfold truncate
  split_ifs
  · exact ⟨Int.le_floor.mpr ha, Int.cast_le.mp ((Int.floor_le x).trans hb)⟩
  · exact ⟨Int.cast_le.mp (ha.trans (Int.le_ceil x)), Int.ceil_le.mpr hb⟩

example : rounded 53 (1 / 10) = 3602879701896397 / 36028797018963968 := by decide +kernel

end CourseProjects.Rounding

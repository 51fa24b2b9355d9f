import Mathlib.Algebra.BigOperators.Intervals
import Mathlib.Algebra.BigOperators.Ring.Finset
import Mathlib.Tactic.Ring

/-!
# Evaluating a polynomial in strides

`stride y s c N m` evaluates the coefficients at `m`, `m + s`, `m + 2 * s` and so
on at `y`. With `y` the `s`-th power of `x`, `s` neighbouring strides make up a
tail of the polynomial.
-/

namespace CourseProjects.Stride

variable {R : Type*} [CommRing R]

def stride (y : R) (s : Nat) (c : Nat → R) (N m : Nat) : R :=
  ∑ k ∈ Finset.range N, c (m + s * k) * y ^ k

variable {x y : R} {s n N m : Nat} {c : Nat → R}

theorem stride_of_lt (hc : ∀ i, n < i → c i = 0) (hm : n < m) : stride y s c N m = 0 := by
  refine Finset.sum_eq_zero fun k _ => ?_
  rw [hc _ (by omega), zero_mul]

/-- One step of the scheme: the next coefficient joins its stride. -/
theorem stride_step (hc : ∀ i, n < i → c i = 0) (hs : 0 < s) (hN : n < N) :
    stride y s c N m = c m + y * stride y s c N (m + s) := by
  obtain ⟨N, rfl⟩ := Nat.exists_eq_succ_of_ne_zero (Nat.ne_of_gt (Nat.zero_lt_of_lt hN))
  have hlast : c (m + s + s * N) * y ^ N = 0 := by
    have : N ≤ s * N := Nat.le_mul_of_pos_left N hs
    rw [hc _ (by omega), zero_mul]
  unfold stride
  rw [Finset.sum_range_succ', Finset.sum_range_succ _ N, hlast, add_zero, Finset.mul_sum]
  have hterm : ∀ k, c (m + s * (k + 1)) * y ^ (k + 1) = y * (c (m + s + s * k) * y ^ k) := by
    intro k
    rw [show m + s * (k + 1) = m + s + s * k by ring, pow_succ]
    ring
  simp only [hterm, mul_zero, add_zero, pow_zero, mul_one]
  exact add_comm _ _

/-- Neighbouring strides sum up to the polynomial from the first of them on. -/
theorem sum_strides (hc : ∀ i, n < i → c i = 0) (hs : 0 < s) (hN : n < N) :
    ∑ j ∈ Finset.range s, x ^ (m + j) * stride (x ^ s) s c N (m + j) =
      ∑ i ∈ Finset.Ico m (n + 1), c i * x ^ i := by
  induction hk : n + 1 - m generalizing m with
  | zero =>
    rw [Finset.Ico_eq_empty (by omega), Finset.sum_empty]
    refine Finset.sum_eq_zero fun j _ => ?_
    rw [stride_of_lt hc (by omega), mul_zero]
  | succ k ih =>
    have hrest := ih (m := m + 1) (by omega)
    rw [Finset.sum_eq_sum_Ico_succ_bot (by omega), ← hrest]
    obtain ⟨s, rfl⟩ : ∃ k, s = k + 1 := ⟨s - 1, by omega⟩
    rw [Finset.sum_range_succ', Finset.sum_range_succ _ s]
    have hshift : ∑ j ∈ Finset.range s,
        x ^ (m + (j + 1)) * stride (x ^ (s + 1)) (s + 1) c N (m + (j + 1)) =
        ∑ j ∈ Finset.range s, x ^ (m + 1 + j) * stride (x ^ (s + 1)) (s + 1) c N (m + 1 + j) := by
      refine Finset.sum_congr rfl fun j _ => ?_
      rw [show m + (j + 1) = m + 1 + j by ring]
    rw [hshift, add_zero, stride_step (m := m) hc hs hN, show m + (s + 1) = m + 1 + s by ring]
    ring

end CourseProjects.Stride

import CourseProjects.Lib.Stride
import Mathlib.Algebra.Field.Rat
import Mathlib.Algebra.Order.Ring.Rat
import Mathlib.Tactic.Linarith
import Mathlib.Tactic.LinearCombination

/-!
# Polynomial evaluation, naive and unrolled

The arithmetic is that of exact rationals. Reading beyond the coefficient array
has no result.
-/

namespace CourseProjects.Performance

open Stride

/-- The loop of `poly_naive` from `i` on, with `n` coefficients to go. -/
def polyNaiveLoop (a : List ℚ) (x : ℚ) : Nat → Nat → ℚ → ℚ → Option ℚ
  | 0, _, result, _ => some result
  | n + 1, i, result, xpwr => do
    let ai ← a[i]?
    polyNaiveLoop a x n (i + 1) (result + ai * xpwr) (x * xpwr)

def polyNaive (a : List ℚ) (x : ℚ) (degree : Nat) : Option ℚ := do
  let result ← a[0]?
  polyNaiveLoop a x degree 1 result x

/-- The five accumulators. -/
structure Results where
  result1 : ℚ
  result2 : ℚ
  result3 : ℚ
  result4 : ℚ
  result5 : ℚ

/-- `for (i = degree - 5; i >= 5; i -= 5)`, with the index it stops at. -/
def polyLoop (a : List ℚ) (x5 : ℚ) : Nat → Results → Option (Nat × Results)
  | i + 5, r => do
    let a1 ← a[i + 5]?
    let a2 ← a[i + 4]?
    let a3 ← a[i + 3]?
    let a4 ← a[i + 2]?
    let a5 ← a[i + 1]?
    polyLoop a x5 i ⟨x5 * r.result1 + a1, x5 * r.result2 + a2, x5 * r.result3 + a3,
      x5 * r.result4 + a4, x5 * r.result5 + a5⟩
  | i, r => some (i, r)

/-- The clean-up `switch (i)`. -/
def cleanUp (a : List ℚ) (x x2 x3 x4 x5 : ℚ) (i : Nat) (r : Results) : Option Results :=
  match i with
  | 0 =>
    some ⟨r.result1 * x5, r.result2 * x4, r.result3 * x3, r.result4 * x2, r.result5 * x⟩
  | 1 => do
    let a1 ← a[1]?
    return ⟨(x5 * r.result1 + a1) * x, r.result2 * x5, r.result3 * x4, r.result4 * x3,
      r.result5 * x2⟩
  | 2 => do
    let a2 ← a[2]?
    let a1 ← a[1]?
    return ⟨(x5 * r.result1 + a2) * x2, (x5 * r.result2 + a1) * x, r.result3 * x5,
      r.result4 * x4, r.result5 * x3⟩
  | 3 => do
    let a3 ← a[3]?
    let a2 ← a[2]?
    let a1 ← a[1]?
    return ⟨(x5 * r.result1 + a3) * x3, (x5 * r.result2 + a2) * x2, (x5 * r.result3 + a1) * x,
      r.result4 * x4, r.result5 * x5⟩
  | 4 => do
    let a4 ← a[4]?
    let a3 ← a[3]?
    let a2 ← a[2]?
    let a1 ← a[1]?
    -- `result4 *= x5 * result4 + a[1]`
    return ⟨(x5 * r.result1 + a4) * x4, (x5 * r.result2 + a3) * x3, (x5 * r.result3 + a2) * x2,
      r.result4 * (x5 * r.result4 + a1) * x, r.result5 * x5⟩
  | _ => some r

def poly (a : List ℚ) (x : ℚ) (degree : Nat) : Option ℚ := do
  let x2 := x * x
  let x3 := x * x2
  let x4 := x * x3
  let x5 := x * x4
  let a1 ← a[degree]?
  let a2 ← a[degree - 1]?
  let a3 ← a[degree - 2]?
  let a4 ← a[degree - 3]?
  let a5 ← a[degree - 4]?
  let (i, r) ← polyLoop a x5 (degree - 5) ⟨a1, a2, a3, a4, a5⟩
  let r ← cleanUp a x x2 x3 x4 x5 i r
  let a0 ← a[0]?
  return a0 + r.result1 + r.result2 + r.result3 + r.result4 + r.result5

/-! ## The naive evaluation -/

/-- The coefficients, continued by zero. -/
def coeff (a : List ℚ) (i : Nat) : ℚ :=
  a.getD i 0

variable {a : List ℚ} {x : ℚ} {degree i n : Nat}

theorem read_coeff (ha : a.length = degree + 1) (hi : i ≤ degree) : a[i]? = some (coeff a i) := by
  have h : i < a.length := by omega
  rw [coeff, List.getD_eq_getElem?_getD, List.getElem?_eq_getElem h]
  rfl

theorem coeff_of_lt (ha : a.length = degree + 1) (hi : degree < i) : coeff a i = 0 := by
  rw [coeff, List.getD_eq_getElem?_getD, List.getElem?_eq_none (by omega)]
  rfl

theorem polyNaiveLoop_spec (ha : a.length = degree + 1) (hn : i + n = degree + 1) (result : ℚ) :
    polyNaiveLoop a x n i result (x ^ i) =
      some (result + ∑ j ∈ Finset.Ico i (degree + 1), coeff a j * x ^ j) := by
  induction n generalizing i result with
  | zero =>
    rw [polyNaiveLoop, Finset.Ico_eq_empty (by omega), Finset.sum_empty, add_zero]
  | succ n ih =>
    rw [polyNaiveLoop, read_coeff ha (by omega)]
    have hstep := ih (i := i + 1) (by omega) (result + coeff a i * x ^ i)
    rw [pow_succ'] at hstep
    rw [Finset.sum_eq_sum_Ico_succ_bot (by omega), ← add_assoc]
    exact hstep

theorem polyNaive_spec (ha : a.length = degree + 1) :
    polyNaive a x degree =
      some (coeff a 0 + ∑ j ∈ Finset.Ico 1 (degree + 1), coeff a j * x ^ j) := by
  have hloop := polyNaiveLoop_spec (x := x) (n := degree) (i := 1) ha (by omega) (coeff a 0)
  rw [pow_one] at hloop
  rw [polyNaive, read_coeff ha (by omega)]
  exact hloop

/-! ## The unrolled evaluation -/

/-- The coefficients at `m`, `m + 5` and so on, evaluated at the fifth power. -/
def column (a : List ℚ) (x : ℚ) (degree m : Nat) : ℚ :=
  stride (x ^ 5) 5 (coeff a) (degree + 1) m

theorem column_step (ha : a.length = degree + 1) (m : Nat) :
    column a x degree m = coeff a m + x ^ 5 * column a x degree (m + 5) :=
  stride_step (fun _ hi => coeff_of_lt ha hi) (by decide) (Nat.lt_succ_self degree)

/-- One assignment to an accumulator. -/
theorem column_back (ha : a.length = degree + 1) {m k : Nat} (hk : k = m + 5) :
    x ^ 5 * column a x degree k + coeff a m = column a x degree m := by
  rw [hk, column_step ha m, add_comm]

theorem column_of_lt (ha : a.length = degree + 1) {m : Nat} (hm : degree < m) :
    column a x degree m = 0 :=
  stride_of_lt (fun _ hi => coeff_of_lt ha hi) hm

/-- The polynomial without its constant, column by column. -/
theorem sum_columns (ha : a.length = degree + 1) :
    ∑ j ∈ Finset.Ico 1 (degree + 1), coeff a j * x ^ j =
      x * column a x degree 1 + x ^ 2 * column a x degree 2 + x ^ 3 * column a x degree 3 +
        x ^ 4 * column a x degree 4 + x ^ 5 * column a x degree 5 := by
  rw [← sum_strides (s := 5) (N := degree + 1) (fun _ hi => coeff_of_lt ha hi) (by decide)
    (Nat.lt_succ_self degree)]
  simp [Finset.sum_range_succ, column]

/-- What the accumulators hold when the loop stands at `i`. -/
def columns (a : List ℚ) (x : ℚ) (degree i : Nat) : Results :=
  ⟨column a x degree (i + 5), column a x degree (i + 4), column a x degree (i + 3),
    column a x degree (i + 2), column a x degree (i + 1)⟩

theorem polyLoop_spec (ha : a.length = degree + 1) (hi : i ≤ degree) :
    polyLoop a (x ^ 5) i (columns a x degree i) = some (i % 5, columns a x degree (i % 5)) := by
  induction i using Nat.strong_induction_on with
  | _ i ih =>
    by_cases h5 : i < 5
    · rw [Nat.mod_eq_of_lt h5]
      unfold polyLoop
      split
      · omega
      · rfl
    · obtain ⟨i, rfl⟩ := Nat.exists_eq_add_of_le' (Nat.le_of_not_lt h5)
      have hstep := ih i (by omega) (by omega)
      have hcolumns : columns a x degree i =
          ⟨x ^ 5 * (columns a x degree (i + 5)).result1 + coeff a (i + 5),
            x ^ 5 * (columns a x degree (i + 5)).result2 + coeff a (i + 4),
            x ^ 5 * (columns a x degree (i + 5)).result3 + coeff a (i + 3),
            x ^ 5 * (columns a x degree (i + 5)).result4 + coeff a (i + 2),
            x ^ 5 * (columns a x degree (i + 5)).result5 + coeff a (i + 1)⟩ := by
        simp only [columns, Results.mk.injEq]
        exact ⟨(column_back ha (by omega)).symm, (column_back ha (by omega)).symm,
          (column_back ha (by omega)).symm, (column_back ha (by omega)).symm,
          (column_back ha (by omega)).symm⟩
      rw [hcolumns] at hstep
      rw [polyLoop, read_coeff ha (by omega), read_coeff ha (by omega), read_coeff ha (by omega),
        read_coeff ha (by omega), read_coeff ha (by omega), Nat.add_mod_right]
      exact hstep

theorem start_spec (ha : a.length = degree + 1) (hd : 15 ≤ degree) :
    columns a x degree (degree - 5) =
      ⟨coeff a degree, coeff a (degree - 1), coeff a (degree - 2), coeff a (degree - 3),
        coeff a (degree - 4)⟩ := by
  have hlast : ∀ m, m ≤ degree → degree < m + 5 → column a x degree m = coeff a m := by
    intro m _ hm
    rw [column_step ha, column_of_lt ha hm, mul_zero, add_zero]
  simp only [columns, Results.mk.injEq]
  refine ⟨?_, ?_, ?_, ?_, ?_⟩
  · rw [hlast _ (by omega) (by omega), Nat.sub_add_cancel (by omega)]
  · rw [hlast _ (by omega) (by omega), show degree - 5 + 4 = degree - 1 by omega]
  · rw [hlast _ (by omega) (by omega), show degree - 5 + 3 = degree - 2 by omega]
  · rw [hlast _ (by omega) (by omega), show degree - 5 + 2 = degree - 3 by omega]
  · rw [hlast _ (by omega) (by omega), show degree - 5 + 1 = degree - 4 by omega]

/-- What the two slips in the clean-up add to the value. -/
def slip (a : List ℚ) (x : ℚ) (degree : Nat) : ℚ :=
  if degree % 5 = 3 then
    (x ^ 5 - x ^ 4) * (column a x degree 4 - column a x degree 5)
  else if degree % 5 = 4 then
    x * (column a x degree 6 - 1) * (x ^ 5 * column a x degree 6 + coeff a 1)
  else 0

/-- `poly` reads inside the array and returns the value of the polynomial and
the slip. -/
theorem poly_spec (ha : a.length = degree + 1) (hd : 15 ≤ degree) :
    poly a x degree =
      some (coeff a 0 + ∑ j ∈ Finset.Ico 1 (degree + 1), coeff a j * x ^ j + slip a x degree) := by
  have h2 : x * x = x ^ 2 := by ring
  have h3 : x * x ^ 2 = x ^ 3 := by ring
  have h4 : x * x ^ 3 = x ^ 4 := by ring
  have h5 : x * x ^ 4 = x ^ 5 := by ring
  have hloop := polyLoop_spec (x := x) (i := degree - 5) ha (by omega)
  rw [start_spec ha hd, show (degree - 5) % 5 = degree % 5 by omega] at hloop
  rw [poly, h2, h3, h4, h5, read_coeff ha (by omega), read_coeff ha (by omega),
    read_coeff ha (by omega), read_coeff ha (by omega), read_coeff ha (by omega)]
  simp only [Option.bind_eq_bind, Option.bind_some, hloop, sum_columns ha]
  have hread : ∀ i, i ≤ 4 → a[i]? = some (coeff a i) := fun i hi => read_coeff ha (by omega)
  have c1 := column_step (x := x) ha 1
  have c2 := column_step (x := x) ha 2
  have c3 := column_step (x := x) ha 3
  have c4 := column_step (x := x) ha 4
  obtain hi | hi | hi | hi | hi : degree % 5 = 0 ∨ degree % 5 = 1 ∨ degree % 5 = 2 ∨
    degree % 5 = 3 ∨ degree % 5 = 4 := by omega
  · simp only [hi, cleanUp, columns, hread 0 (by decide), Option.bind_some, slip]
    norm_num
    ring
  · simp only [hi, cleanUp, columns, hread 0 (by decide), hread 1 (by decide),
      Option.bind_eq_bind, Option.bind_some, Option.pure_def, slip]
    rw [c1]
    norm_num
    ring
  · simp only [hi, cleanUp, columns, hread 0 (by decide), hread 1 (by decide), hread 2 (by decide),
      Option.bind_eq_bind, Option.bind_some, Option.pure_def, slip]
    rw [c1, c2]
    norm_num
    ring
  · simp only [hi, cleanUp, columns, hread 0 (by decide), hread 1 (by decide), hread 2 (by decide),
      hread 3 (by decide), Option.bind_eq_bind, Option.bind_some, Option.pure_def, slip]
    rw [c1, c2, c3]
    norm_num
    ring
  · simp only [hi, cleanUp, columns, hread 0 (by decide), hread 1 (by decide), hread 2 (by decide),
      hread 3 (by decide), hread 4 (by decide), Option.bind_eq_bind, Option.bind_some,
      Option.pure_def, slip]
    rw [c1, c2, c3, c4]
    norm_num
    ring

/-- The slip vanishes: the degree has another residue, or the input is one of
those at which the two wrong columns cancel out. -/
def Cancels (a : List ℚ) (x : ℚ) (degree : Nat) : Prop :=
  (degree % 5 = 3 → x = 0 ∨ x = 1 ∨ column a x degree 4 = column a x degree 5) ∧
    (degree % 5 = 4 → x = 0 ∨ column a x degree 6 = 1 ∨
      x ^ 5 * column a x degree 6 + coeff a 1 = 0)

theorem slip_eq_zero_iff : slip a x degree = 0 ↔ Cancels a x degree := by
  unfold slip Cancels
  by_cases h3 : degree % 5 = 3
  · have hpow : x ^ 5 - x ^ 4 = x ^ 4 * (x - 1) := by ring
    simp [h3, hpow, sub_eq_zero, or_assoc]
  · by_cases h4 : degree % 5 = 4
    · simp [h4, sub_eq_zero, or_assoc]
    · simp [h3, h4]

/-- The unrolled evaluation equals the naive one exactly when the slip
vanishes. -/
theorem poly_eq_polyNaive_iff (a : List ℚ) (x : ℚ) (degree : Nat) (hd : 15 ≤ degree)
    (ha : a.length = degree + 1) :
    (∃ v, poly a x degree = some v) ∧
      (poly a x degree = polyNaive a x degree ↔ Cancels a x degree) := by
  rw [poly_spec ha hd, polyNaive_spec ha, ← slip_eq_zero_iff]
  refine ⟨⟨_, rfl⟩, ?_⟩
  rw [Option.some_inj]
  constructor
  · intro h
    linarith
  · intro h
    rw [h, add_zero]

/-- Degree 18 at 2, all coefficients zero but `a[5]`. -/
def degree18 : List ℚ :=
  [0, 0, 0, 0, 0, 1, 0, 0, 0, 0, 0, 0, 0, 0, 0, 0, 0, 0, 0]

theorem degree18_cancels_at_one :
    (∃ v, poly degree18 1 18 = some v) ∧
      (poly degree18 1 18 = polyNaive degree18 1 18 ↔ Cancels degree18 1 18) :=
  poly_eq_polyNaive_iff degree18 1 18 (by decide) rfl

theorem degree18_differs : degree18.length = 18 + 1 ∧ poly degree18 2 18 = some 16 ∧
    polyNaive degree18 2 18 = some 32 ∧ poly degree18 2 18 ≠ polyNaive degree18 2 18 := by
  decide +kernel

end CourseProjects.Performance

import CourseProjects.Data.Btest
import Mathlib.Algebra.Group.Nat.Defs
import Mathlib.Algebra.Order.BigOperators.Group.List

/-!
# The values of an argument

The random values stay between the bounds whatever the precision is, from a double's on: at
the ends of its range the weighted mean is exact, and elsewhere its error is smaller than the
distance from the bounds. So no value overflows, and `gen_vals` can only fail at the first
subtraction, at the end of the counter and at the end of the array.
-/

namespace CourseProjects.Data

open CInt Rounding

variable {p range : Nat} {rand : Nat → Nat} {min max : Int} {arg : Word} {l : List Word}
  {ints : List Int}

/-! ## The weighted mean -/

/-- The precision of a double. -/
theorem unit_roundoff (hp : 53 ≤ p) : (1 : ℚ) / 2 ^ p ≤ 1 / 2 ^ 53 :=
  one_div_pow_le_one_div_pow_of_le one_le_two hp

theorem rounded_int (hp : 53 ≤ p) {z : Int} (hmin : TMin ≤ z) (hmax : z ≤ TMax) :
    rounded p z = z := by
  refine rounded_intCast (lt_of_lt_of_le ?_ (pow_le_pow_right₀ one_le_two hp))
  unfold TMin intMin at hmin
  unfold TMax intMax at hmax
  rw [abs_lt]
  omega

theorem abs_int_le {z : Int} (hmin : TMin ≤ z) (hmax : z ≤ TMax) : |(z : ℚ)| ≤ 2 ^ 31 := by
  unfold TMin intMin at hmin
  unfold TMax intMax at hmax
  have hz : |z| ≤ 2 ^ 31 := abs_le.mpr ⟨by omega, by omega⟩
  exact_mod_cast hz

/-- The error of the weighted mean, from those of its five operations. -/
theorem mean_near {w : ℚ} (hp : 53 ≤ p) (h0 : 0 ≤ w) (h1 : w ≤ 1) (hmin : |(min : ℚ)| ≤ 2 ^ 31)
    (hmax : |(max : ℚ)| ≤ 2 ^ 31) :
    |rounded p (rounded p (min * rounded p (1 - rounded p w)) + rounded p (max * rounded p w)) -
      (min * (1 - w) + max * w)| ≤ 1 / 2 ^ 17 := by
  have hu := unit_roundoff hp
  have hweight : |rounded p w - w| ≤ 1 / 2 ^ 53 := by
    have h := abs_rounded_sub_le_of_near (x := w) (e := w) (d := 0) hu (by simp)
      (abs_le.mpr ⟨by linarith, h1⟩)
    linarith
  have hother : |rounded p (1 - rounded p w) - (1 - w)| ≤ 3 / 2 ^ 53 := by
    have hsub : |1 - rounded p w - (1 - w)| ≤ 1 / 2 ^ 53 := by
      rwa [sub_sub_sub_cancel_left, abs_sub_comm]
    refine (abs_rounded_sub_le_of_near hu hsub (abs_le.mpr ⟨by linarith, by linarith⟩)).trans
      (show (1 : ℚ) / 2 ^ 53 + (1 + 1 / 2 ^ 53) * (1 / 2 ^ 53) ≤ 3 / 2 ^ 53 by norm_num)
  have hlow := abs_rounded_mul_sub_le hu hmin hother (by linarith) (by linarith)
  have hhigh := abs_rounded_mul_sub_le hu hmax hweight h0 h1
  have hexact : |min * (1 - w) + max * w| ≤ (2 : ℚ) ^ 31 := by
    rw [abs_le] at hmin hmax ⊢
    constructor <;> nlinarith
  have hsum := (abs_add_le _ _).trans (add_le_add hlow hhigh)
  rw [← add_sub_add_comm] at hsum
  refine (abs_rounded_sub_le_of_near hu hsum hexact).trans ?_
  norm_num

/-- Away from its ends a wide range leaves room for the error of the mean. -/
theorem mean_room {w : ℚ} (hwide : (maxTestVals : ℚ) ≤ max - min) (h0 : 1 / randMax ≤ w)
    (h1 : w ≤ 1 - 1 / randMax) :
    (min : ℚ) + 1 / 2 ^ 17 ≤ min * (1 - w) + max * w ∧
      min * (1 - w) + max * w + 1 / 2 ^ 17 ≤ (max : ℚ) := by
  have hgap : (1 : ℚ) / 2 ^ 17 ≤ maxTestVals * (1 / randMax) := by
    norm_num [maxTestVals, testRange, randMax]
  have hpos : (0 : ℚ) ≤ maxTestVals := Nat.cast_nonneg _
  have hnum : (0 : ℚ) ≤ 1 / randMax := by norm_num [randMax]
  have hlow := mul_le_mul hwide h0 hnum (hpos.trans hwide)
  have hhigh := mul_le_mul hwide (show 1 / (randMax : ℚ) ≤ 1 - w by linarith) hnum
    (hpos.trans hwide)
  constructor <;> linarith

/-- The mean lies between the bounds of a wide range. -/
theorem mean_mem (hp : 53 ≤ p) (hmin : TMin ≤ min) (hmax : max ≤ TMax)
    (hwide : maxTestVals < max - min) {r : Nat} (hr : (r : Int) ≤ randMax) :
    let w := rounded p (r / randMax)
    let mean := rounded p (rounded p (min * rounded p (1 - w)) + rounded p (max * w))
    (min : ℚ) ≤ mean ∧ mean ≤ max := by
  have hmin' : min ≤ TMax := by omega
  have hmax' : TMin ≤ max := by omega
  have hle : (min : ℚ) ≤ max := Int.cast_le.mpr (by omega)
  have hone : rounded p 1 = 1 := rounded_one (by omega)
  have hpos : (0 : ℚ) < randMax := by norm_num [randMax]
  by_cases hr0 : r = 0
  · simp [hr0, hone, rounded_int hp hmin hmin', hle]
  by_cases hr1 : (r : Int) = randMax
  · have hcast : (r : ℚ) = randMax := by rw [← hr1, Int.cast_natCast]
    simp [hcast, div_self hpos.ne', hone, rounded_int hp hmax' hmax, hle]
  -- elsewhere the exact mean is farther from the bounds than the error
  have hfirst : (1 : ℚ) / randMax ≤ r / randMax := by
    refine div_le_div_of_nonneg_right ?_ hpos.le
    exact_mod_cast Nat.one_le_iff_ne_zero.mpr hr0
  have hlast : (r : ℚ) / randMax ≤ 1 - 1 / randMax := by
    rw [one_sub_div hpos.ne']
    refine div_le_div_of_nonneg_right ?_ hpos.le
    exact_mod_cast Int.le_sub_one_of_lt (lt_of_le_of_ne hr hr1)
  have hroom := mean_room (by exact_mod_cast hwide.le) hfirst hlast
  have hunit : (0 : ℚ) ≤ 1 / randMax := one_div_nonneg.mpr hpos.le
  have hnear := mean_near hp (hunit.trans hfirst) (hlast.trans (sub_le_self 1 hunit))
    (abs_int_le hmin hmin') (abs_int_le hmax' hmax)
  rw [abs_le] at hnear
  dsimp only
  constructor <;> linarith

theorem randomVal_mem (hp : 53 ≤ p) (hmin : TMin ≤ min) (hmax : max ≤ TMax)
    (hwide : maxTestVals < max - min) {r : Nat} (hr : (r : Int) ≤ randMax) :
    ∃ z, randomVal p min max r = some z ∧ min ≤ z ∧ z ≤ max := by
  have hmean := mean_mem hp hmin hmax hwide hr
  have hmem := truncate_mem hmean.1 hmean.2
  exact ⟨_, checked_of_mem (hmin.trans hmem.1) (hmem.2.trans hmax), hmem⟩

example : randomVal 53 TMin TMax 1 = some (-2147483646) := by decide +kernel

example : randomVal 64 TMin TMax 1 = some (-2147483645) := by decide +kernel

/-! ## The values -/

theorem toInt_ofInt {z : Int} (hmin : TMin ≤ z) (hmax : z ≤ TMax) :
    (BitVec.ofInt 32 z).toInt = z := by
  unfold TMin intMin at hmin
  unfold TMax intMax at hmax
  rw [BitVec.toInt_ofInt]
  exact Int.bmod_eq_of_le (by omega) (by omega)

/-- A round of the sampling loop computes at most five values between the bounds. -/
theorem sample_mem (hp : 53 ≤ p) (hmin : TMin ≤ min) (hmax : max ≤ TMax)
    (hwide : maxTestVals < max - min) {i : Nat} (hi : i < testRange)
    (hrand : (rand i : Int) ≤ randMax) :
    ∃ vals, sample p min max rand i = some vals ∧ vals.length ≤ 5 ∧
      ∀ z ∈ vals, min ≤ z ∧ z ≤ max := by
  obtain ⟨val, hval, hmem⟩ := randomVal_mem hp hmin hmax hwide hrand
  have hlow : min ≤ min + i ∧ min + i ≤ max := by
    unfold maxTestVals at hwide
    omega
  have hhigh : min ≤ max - i ∧ max - i ≤ max := by omega
  have hneg : checked (-(i : Int)) = some (-(i : Int)) := by
    unfold testRange at hi
    exact checked_of_mem (by unfold intMin; omega) (by unfold intMax; omega)
  simp only [sample, checked_of_mem (hmin.trans hlow.1) (hlow.2.trans hmax),
    checked_of_mem (hmin.trans hhigh.1) (hhigh.2.trans hmax), hneg, hval, Option.bind_eq_bind,
    Option.bind_some]
  refine ⟨_, rfl, ?_, ?_⟩
  · simp only [List.length_append, List.length_cons, List.length_nil]
    split_ifs <;> simp
  · intro z hz
    simp only [List.mem_append, List.mem_cons, List.not_mem_nil, or_false, List.mem_ite_nil_right]
      at hz
    rcases hz with ((((rfl | rfl) | ⟨h, rfl⟩) | ⟨h, rfl⟩) | rfl)
    · exact hlow
    · exact hhigh
    · exact h
    · exact h
    · exact hmem

/-- The bounds with which the values are computed without overflow. -/
def Computes (min max : Int) : Prop :=
  TMin ≤ max - maxTestVals ∧ (max - maxTestVals ≤ min → max < TMax)

instance (min max : Int) : Decidable (Computes min max) :=
  inferInstanceAs (Decidable (TMin ≤ max - maxTestVals ∧ (max - maxTestVals ≤ min → max < TMax)))

theorem checked_bound (hlow : TMin ≤ max - maxTestVals) (hmax : max ≤ TMax) :
    checked (max - maxTestVals) = some (max - maxTestVals) :=
  checked_of_mem hlow (le_trans (by omega) hmax)

/-- A small range is tried completely. -/
theorem intVals_of_small (h : Computes min max) (hsmall : max - maxTestVals ≤ min) :
    intVals p min max range rand =
      some ((List.range (max - min + 1).toNat).map fun (i : Nat) => min + i) := by
  have htop := h.2 hsmall
  have hcount : checked (max + 1) = some (max + 1) :=
    checked_of_mem (le_trans h.1 (by omega)) (Int.add_one_le_of_lt htop)
  simp only [intVals, checked_bound h.1 htop.le, Option.bind_eq_bind, Option.bind_some,
    if_pos hsmall, hcount]
  rfl

/-- A wide range is sampled. -/
theorem intVals_of_wide (hp : 53 ≤ p) (hmin : TMin ≤ min) (hmax : max ≤ TMax)
    (hwide : maxTestVals < max - min) (hrange : range ≤ testRange)
    (hrand : ∀ i, (rand i : Int) ≤ randMax) :
    ∃ ints, intVals p min max range rand = some ints ∧ ints.length ≤ maxTestVals ∧
      ∀ z ∈ ints, min ≤ z ∧ z ≤ max := by
  obtain ⟨rounds, hrounds, hcount, hmem⟩ := exists_mapM fun i hi =>
    sample_mem hp hmin hmax hwide ((List.mem_range.mp hi).trans_le hrange) (hrand i)
  refine ⟨rounds.flatten, ?_, ?_, ?_⟩
  · simp only [intVals, checked_bound (by omega) hmax, Option.bind_eq_bind, Option.bind_some,
      if_neg (show ¬ max - maxTestVals ≤ min by omega), hrounds]
    rfl
  · calc rounds.flatten.length = (rounds.map List.length).sum := List.length_flatten
      _ ≤ (rounds.map List.length).length • 5 :=
          List.sum_le_card_nsmul _ _ (List.forall_mem_map.mpr fun vals h => (hmem vals h).1)
      _ = range * 5 := by rw [List.length_map, hcount, List.length_range, Nat.nsmul_eq_mul]
      _ ≤ maxTestVals := by
          unfold maxTestVals
          omega
  · intro z hz
    obtain ⟨vals, hvals, hz⟩ := List.mem_flatten.mp hz
    exact (hmem vals hvals).2 z hz

theorem intVals_none (hmax : max ≤ TMax) (h : ¬ Computes min max) :
    intVals p min max range rand = none := by
  by_cases hlow : TMin ≤ max - maxTestVals
  · have hend : max - maxTestVals ≤ min ∧ ¬ max < TMax :=
      Classical.not_imp.mp fun htop => h ⟨hlow, htop⟩
    have hcount : checked (max + 1) = none :=
      checked_of_not_mem fun hm => hend.2 (Int.lt_of_add_one_le hm.2)
    simp only [intVals, checked_bound hlow hmax, Option.bind_eq_bind, Option.bind_some,
      if_pos hend.1, hcount]
    rfl
  · rw [intVals, checked_of_not_mem fun hm => hlow hm.1]
    rfl

theorem mem_intVals_of_small {z : Int} (hsmall : max - maxTestVals ≤ min)
    (h : Computes min max) (hints : intVals p min max range rand = some ints) :
    z ∈ ints ↔ min ≤ z ∧ z ≤ max := by
  rw [intVals_of_small h hsmall] at hints
  cases hints
  rw [List.mem_map]
  constructor
  · rintro ⟨i, hi, rfl⟩
    rw [List.mem_range] at hi
    omega
  · intro hz
    refine ⟨(z - min).toNat, ?_, ?_⟩
    · rw [List.mem_range]
      omega
    · omega

theorem intVals_mem (hp : 53 ≤ p) (hmin : TMin ≤ min) (hmax : max ≤ TMax)
    (hrange : range ≤ testRange) (hrand : ∀ i, (rand i : Int) ≤ randMax)
    (h : Computes min max) (hints : intVals p min max range rand = some ints) {z : Int}
    (hz : z ∈ ints) : min ≤ z ∧ z ≤ max := by
  by_cases hsmall : max - maxTestVals ≤ min
  · exact (mem_intVals_of_small hsmall h hints).mp hz
  · obtain ⟨_, hwide, -, hmem⟩ := intVals_of_wide hp hmin hmax (by omega) hrange hrand
    cases hints.symm.trans hwide
    exact hmem z hz

theorem floatVals_length : floatVals.length = 13 * testRange + 4 := by
  have hlen : ∀ l : List Nat, ∀ g : Nat → List Word, (∀ k, (g k).length = 13) →
      (l.flatMap g).length = 13 * l.length := fun l g hg => by
    induction l with
    | nil => rfl
    | cons k l ih =>
      rw [List.flatMap_cons, List.length_append, hg, ih, List.length_cons]
      omega
  simp only [floatVals, List.length_append]
  rw [hlen _ _ fun _ => rfl, List.length_range]
  rfl

theorem stored_ne_none {vals : List Word} : stored vals ≠ none ↔ vals.length ≤ maxTestVals := by
  unfold stored
  split_ifs with h <;> simp [h]

theorem stored_single (argval : Word) : stored [argval] = some [argval] :=
  if_pos (show 1 ≤ maxTestVals by decide)

/-- Only a range of one number more than the array has places is too long for it. -/
theorem genVals_small_ne_none (hfloat : ¬ (min = 1 ∧ max = 1)) (hsmall : max - maxTestVals ≤ min)
    (h : Computes min max) :
    genVals p none min max range rand ≠ none ↔ max - min ≠ maxTestVals := by
  simp only [genVals, if_neg hfloat, intVals_of_small h hsmall, Option.bind_some]
  rw [stored_ne_none, List.length_map, List.length_map, List.length_range]
  omega

theorem genVals_ne_none (hp : 53 ≤ p) (hmin : TMin ≤ min) (hmax : max ≤ TMax)
    (hfloat : ¬ (min = 1 ∧ max = 1)) (hrange : range ≤ testRange)
    (hrand : ∀ i, (rand i : Int) ≤ randMax) (h : Computes min max) :
    genVals p none min max range rand ≠ none ↔ max - min ≠ maxTestVals := by
  by_cases hsmall : max - maxTestVals ≤ min
  · exact genVals_small_ne_none hfloat hsmall h
  · obtain ⟨ints, hints, hlen, -⟩ :=
      intVals_of_wide hp hmin hmax (show maxTestVals < max - min by omega) hrange hrand
    simp only [genVals, if_neg hfloat, hints, Option.bind_some]
    rw [stored_ne_none, List.length_map]
    exact ⟨fun _ => by omega, fun _ => hlen⟩

/-- `gen_vals` computes without overflow and inside its array exactly when the argument is
fixed, or the range stands for floats, or its bounds can be computed and do not differ by the
length of the array. -/
theorem gen_vals_fit_iff (p : Nat) (hp : 53 ≤ p) (fixed : Option Word) (min max : Int)
    (hmin : TMin ≤ min) (hmax : max ≤ TMax) (range : Nat) (hrange : range ≤ testRange)
    (rand : Nat → Nat) (hrand : ∀ i, (rand i : Int) ≤ randMax) :
    genVals p fixed min max range rand ≠ none ↔
      fixed ≠ none ∨ (min = 1 ∧ max = 1) ∨ Computes min max ∧ max - min ≠ maxTestVals := by
  cases fixed with
  | some argval =>
    have hone : stored [argval] ≠ none := by simp [stored_single]
    exact ⟨fun _ => Or.inl (by simp), fun _ => hone⟩
  | none =>
    simp only [ne_eq, not_true_eq_false, false_or]
    by_cases hfloat : min = 1 ∧ max = 1
    · have hfits : stored floatVals ≠ none := by
        rw [stored_ne_none, floatVals_length]
        decide
      simp only [genVals, if_pos hfloat]
      exact ⟨fun _ => Or.inl hfloat, fun _ => hfits⟩
    · simp only [hfloat, false_or]
      by_cases hcomp : Computes min max
      · have hroom := genVals_ne_none hp hmin hmax hfloat hrange hrand hcomp
        exact ⟨fun h => ⟨hcomp, hroom.mp h⟩, fun h => hroom.mpr h.2⟩
      · refine ⟨fun h => absurd ?_ h, fun h => absurd h.1 hcomp⟩
        simp only [genVals, if_neg hfloat, intVals_none hmax hcomp, Option.bind_none]

theorem any_int_fits :
    genVals 53 none TMin TMax 1448 (fun _ => 1) ≠ none ↔
      (none : Option Word) ≠ none ∨ (TMin = 1 ∧ TMax = 1) ∨
        Computes TMin TMax ∧ TMax - TMin ≠ maxTestVals :=
  gen_vals_fit_iff 53 (by decide) none TMin TMax (by decide) (by decide) 1448 (by decide)
    (fun _ => 1) fun _ => by decide

theorem genVals_eq_some (hfloat : ¬ (min = 1 ∧ max = 1))
    (h : genVals p none min max range rand = some l) :
    ∃ ints, intVals p min max range rand = some ints ∧ l = ints.map (BitVec.ofInt 32) := by
  rw [genVals, if_neg hfloat] at h
  obtain ⟨ints, hints, hstored⟩ := Option.bind_eq_some_iff.mp h
  unfold stored at hstored
  split_ifs at hstored
  cases hstored
  exact ⟨ints, hints, rfl⟩

/-! ## Ranges of integers -/

/-- A range of integers for which there are values; `(1, 1)` is the one that stands for
floats. -/
structure OfInts (r : Int × Int) : Prop where
  low : TMin ≤ r.1
  high : r.2 ≤ TMax
  notFloat : ¬ (r.1 = 1 ∧ r.2 = 1)
  computes : Computes r.1 r.2
  fits : r.2 - r.1 ≠ maxTestVals

instance (r : Int × Int) : Decidable (OfInts r) :=
  decidable_of_iff (TMin ≤ r.1 ∧ r.2 ≤ TMax ∧ ¬ (r.1 = 1 ∧ r.2 = 1) ∧ Computes r.1 r.2 ∧
      r.2 - r.1 ≠ maxTestVals)
    ⟨fun ⟨hlow, hhigh, hfloat, hcomp, hfits⟩ => ⟨hlow, hhigh, hfloat, hcomp, hfits⟩,
      fun h => ⟨h.low, h.high, h.notFloat, h.computes, h.fits⟩⟩

variable {r : Int × Int}

theorem ranges_ofInts {l : List (Int × Int)} (h : ∀ r ∈ l, OfInts r) (i : Nat) :
    OfInts (ranges l i) := by
  unfold ranges
  cases hi : l[i]? with
  | none => decide
  | some r => exact h r (List.mem_of_getElem? hi)

theorem genVals_mem (hp : 53 ≤ p) (h : OfInts r) (hrange : range ≤ testRange)
    (hrand : ∀ i, (rand i : Int) ≤ randMax) (hl : genVals p none r.1 r.2 range rand = some l)
    (harg : arg ∈ l) : r.1 ≤ arg.toInt ∧ arg.toInt ≤ r.2 := by
  obtain ⟨ints, hints, rfl⟩ := genVals_eq_some h.notFloat hl
  obtain ⟨z, hz, rfl⟩ := List.mem_map.mp harg
  have hmem := intVals_mem hp h.low h.high hrange hrand h.computes hints hz
  rw [toInt_ofInt (h.low.trans hmem.1) (hmem.2.trans h.high)]
  exact hmem

theorem argTestRange_le (n : Nat) : argTestRange n ≤ testRange := by
  unfold argTestRange
  split_ifs <;> decide

end CourseProjects.Data

import Mathlib.Algebra.Group.Int.Defs
import Mathlib.Algebra.Group.Nat.Defs
import Mathlib.Data.Nat.Notation

/-!
# Two's complement words

The sign of a word as a mask of all its bits, and what follows for arithmetic without a
branch on the sign: division by a power of two, conditionals, the absolute value and the
overflow of a sum.
-/

namespace CourseProjects.Words

variable {w : ℕ} {x y z : BitVec w}

/-- The sign bit at every place. -/
def signMask (x : BitVec w) : BitVec w :=
  x.sshiftRight (w - 1)

theorem signMask_eq (x : BitVec w) :
    signMask x = if x.msb then BitVec.allOnes w else 0#w := by
  ext i hi
  have hread : (x.sshiftRight (w - 1))[i] = x.msb := by
    rw [BitVec.getElem_sshiftRight]
    by_cases h0 : i = 0
    · subst h0
      simp only [Nat.add_zero]
      rw [dif_pos (by omega), BitVec.msb_eq_getLsbD_last, BitVec.getLsbD_eq_getElem (by omega)]
    · rw [dif_neg (by omega)]
  rw [signMask, hread]
  cases x.msb <;> simp

/-- The sum of a word and the negation of another is their difference. -/
theorem add_not_add_one (x y : BitVec w) : x + ~~~y + 1#w = x - y := by
  rw [BitVec.add_assoc, ← BitVec.neg_eq_not_add, BitVec.sub_eq_add_neg]

/-! ## Division by a power of two -/

/-- Rounding up is rounding down after an addition. -/
theorem ceil_div {a d : Int} (hd : 0 < d) : (a + (d - 1)) / d = -(-a / d) := by
  have hquot := Int.mul_ediv_add_emod (-a) d
  have hlow := Int.emod_nonneg (-a) (Int.ne_of_gt hd)
  have hhigh := Int.emod_lt_of_pos (-a) hd
  refine ((Int.ediv_emod_unique hd (r := d - 1 - -a % d)).mpr ⟨?_, ?_, ?_⟩).1
  · rw [Int.mul_neg]
    omega
  · omega
  · omega

theorem toNat_one_shift {n : ℕ} (hn : n < w) : (1#w <<< n).toNat = 2 ^ n := by
  have hone : (1#w).toNat = 1 := by
    rw [BitVec.toNat_ofNat, Nat.mod_eq_of_lt (Nat.one_lt_two_pow (by omega))]
  have hlt : 2 ^ n < 2 ^ w := Nat.pow_lt_pow_right (by decide) hn
  rw [BitVec.toNat_shiftLeft, hone, Nat.one_shiftLeft, Nat.mod_eq_of_lt hlt]

theorem two_pow_double {n : ℕ} (hn : n + 1 < w) : 2 * 2 ^ n < 2 ^ w := by
  rw [← Nat.pow_succ']
  exact Nat.pow_lt_pow_right (by decide) hn

theorem toInt_one_shift {n : ℕ} (hn : n + 1 < w) : (1#w <<< n).toInt = 2 ^ n := by
  have hnat : (1#w <<< n).toNat = 2 ^ n := toNat_one_shift (by omega)
  rw [BitVec.toInt_eq_toNat_of_lt (by rw [hnat]; exact two_pow_double hn), hnat]
  push_cast
  rfl

theorem toInt_low_mask {n : ℕ} (hn : n + 1 < w) : ((1#w <<< n) - 1#w).toInt = 2 ^ n - 1 := by
  have hpos : (0 : Int) < 2 ^ n := Int.pow_pos (by decide)
  have hone : (1#w).toInt = 1 := BitVec.toInt_one (by omega)
  have hover : ¬ BitVec.ssubOverflow (1#w <<< n) 1#w := by
    have hhigh := BitVec.toInt_lt (x := 1#w <<< n)
    rw [toInt_one_shift hn] at hhigh
    simp only [BitVec.ssubOverflow, toInt_one_shift hn, hone, Bool.or_eq_true, decide_eq_true_eq,
      not_or]
    omega
  rw [BitVec.toInt_sub_of_not_ssubOverflow hover, toInt_one_shift hn, hone]

/-- A negative word gets the low bits added before the shift, so the shift rounds to zero. -/
theorem toInt_shift_round {n : ℕ} (hn : n + 1 < w) (x : BitVec w) :
    ((x + (signMask x &&& ((1#w <<< n) - 1#w))).sshiftRight n).toInt = x.toInt.tdiv (2 ^ n) := by
  have hpos : (0 : Int) < 2 ^ n := Int.pow_pos (by decide)
  have hmask := toInt_low_mask hn
  rw [signMask_eq, BitVec.toInt_sshiftRight, Int.shiftRight_eq_div_pow]
  cases hmsb : x.msb with
  | false =>
    have hx : 0 ≤ x.toInt := BitVec.toInt_nonneg_of_msb_false hmsb
    rw [Int.tdiv_eq_ediv_of_nonneg hx]
    simp
  | true =>
    have hx : x.toInt < 0 := BitVec.toInt_neg_of_msb_true hmsb
    have hsum : (x + ((1#w <<< n) - 1#w)).toInt = x.toInt + (2 ^ n - 1) := by
      have hover : ¬ BitVec.saddOverflow x ((1#w <<< n) - 1#w) := by
        have hlow := BitVec.le_toInt x
        have hhalf : (0 : Int) < 2 ^ (w - 1) := Int.pow_pos (by decide)
        have hle : (2 : Int) ^ n ≤ 2 ^ (w - 1) := by
          exact_mod_cast Nat.pow_le_pow_right (by decide) (by omega)
        simp only [BitVec.saddOverflow, hmask, Bool.or_eq_true, decide_eq_true_eq, not_or]
        omega
      rw [BitVec.toInt_add_of_not_saddOverflow hover, hmask]
    have hneg : x.toInt.tdiv (2 ^ n) = -(-x.toInt / 2 ^ n) := by
      rw [← Int.tdiv_eq_ediv_of_nonneg (by omega), Int.neg_tdiv, Int.neg_neg]
    rw [if_pos rfl, BitVec.allOnes_and, hsum, hneg]
    exact_mod_cast ceil_div hpos

/-! ## The sign of a word -/

/-- A word or its negation is negative, unless the word is zero. -/
theorem signMask_or_neg (x : BitVec w) :
    signMask (x ||| -x) = if x = 0#w then 0#w else BitVec.allOnes w := by
  have hmsb : (x ||| -x).msb = decide (x ≠ 0#w) := by
    by_cases hx : x = 0#w
    · simp [hx]
    · by_cases hmin : x = BitVec.intMin w
      · have hsign : x.msb = true := by
          rw [hmin, BitVec.msb_intMin]
          refine decide_eq_true (Nat.pos_of_ne_zero fun hw => hx ?_)
          subst hw
          exact BitVec.eq_nil x
        rw [BitVec.msb_or, hsign]
        simp [hx]
      · rw [BitVec.msb_or, BitVec.msb_neg_of_ne_intMin_of_ne_zero hmin hx]
        simp [hx]
  rw [signMask_eq, hmsb]
  by_cases hx : x = 0#w <;> simp [hx]

/-- Flipping the bits of a negative word and adding one negates it. -/
theorem xor_signMask (x : BitVec w) :
    (x ^^^ signMask x) + ~~~(signMask x) + 1#w = if x.msb then -x else x := by
  rw [add_not_add_one, signMask_eq]
  cases x.msb with
  | false => simp
  | true =>
    rw [if_pos rfl, if_pos rfl, BitVec.xor_allOnes, BitVec.neg_eq_not_add,
      ← BitVec.neg_one_eq_allOnes, BitVec.sub_eq_add_neg, BitVec.neg_neg]

/-- A sum overflows when its sign differs from the signs of both summands. -/
theorem signMask_add (x y : BitVec w) (hw : 0 < w) :
    ((signMask (x + y) - signMask y) &&& (signMask (x + y) - signMask x) = 0#w) ↔
      ¬ BitVec.saddOverflow x y := by
  have hall : BitVec.allOnes w ≠ 0#w := fun h => by
    have := congrArg BitVec.msb h
    simp [BitVec.msb_allOnes hw] at this
  rw [signMask_eq, signMask_eq, signMask_eq, BitVec.saddOverflow_eq]
  cases x.msb <;> cases y.msb <;> cases (x + y).msb <;> simp [hall]

end CourseProjects.Words

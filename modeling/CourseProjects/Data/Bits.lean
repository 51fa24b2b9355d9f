import CourseProjects.Lib.Words

/-!
# The bit puzzles

An `int` is a word of 32 bits, and a shift to the right keeps the sign. The puzzles are
written without branches; `tests.c` says what each of them computes.
-/

namespace CourseProjects.Data

open Words

abbrev Word := BitVec 32

/-- The operator `!`. -/
def lnot (x : Word) : Word :=
  if x = 0#32 then 1#32 else 0#32

/-! ## The solutions -/

def bitAnd (x y : Word) : Word :=
  ~~~(~~~x ||| ~~~y)

def negate (x : Word) : Word :=
  ~~~x + 1#32

def isEqual (x y : Word) : Word :=
  lnot (x + ~~~y + 1#32)

def divPwr2 (x n : Word) : Word :=
  let sign := x.sshiftRight 31
  (x + (sign &&& ((1#32 <<< n.toNat) + ~~~1#32 + 1#32))).sshiftRight n.toNat

def conditional (x y z : Word) : Word :=
  let i := ~~~(lnot (lnot x)) + 1#32
  (~~~i &&& z) ||| (i &&& y)

def replaceByte (x n c : Word) : Word :=
  let i := n <<< 3
  let mask := 0xff#32 <<< i.toNat
  (x &&& ~~~mask) ||| (c <<< i.toNat)

def addOk (x y : Word) : Word :=
  let signx := x.sshiftRight 31
  let signy := y.sshiftRight 31
  let signa := (x + y).sshiftRight 31
  lnot ((signa + ~~~signy + 1#32) &&& (signa + ~~~signx + 1#32))

def absVal (x : Word) : Word :=
  let sign := x.sshiftRight 31
  (x ^^^ sign) + ~~~sign + 1#32

def bang (x : Word) : Word :=
  let mask := (x ||| (~~~x + 1#32)).sshiftRight 31
  mask + 1#32

/-! ## The functions of `tests.c` -/

def ofBool (b : Bool) : Word :=
  if b then 1#32 else 0#32

def testBitAnd (x y : Word) : Word :=
  x &&& y

def testNegate (x : Word) : Word :=
  -x

def testIsEqual (x y : Word) : Word :=
  ofBool (x = y)

def testDivPwr2 (x n : Word) : Word :=
  let p2n := 1#32 <<< n.toNat
  x.sdiv p2n

def testConditional (x y z : Word) : Word :=
  if x ≠ 0#32 then y else z

def testReplaceByte (x n c : Word) : Word :=
  if n = 0#32 then (x &&& 0xFFFFFF00#32) ||| c
  else if n = 1#32 then (x &&& 0xFFFF00FF#32) ||| (c <<< 8)
  else if n = 2#32 then (x &&& 0xFF00FFFF#32) ||| (c <<< 16)
  else (x &&& 0x00FFFFFF#32) ||| (c <<< 24)

/-- The sum is taken in 64 bits and compared with its low half. -/
def testAddOk (x y : Word) : Word :=
  let lsum := x.signExtend 64 + y.signExtend 64
  ofBool (lsum = (lsum.setWidth 32).signExtend 64)

def testAbsVal (x : Word) : Word :=
  if x.toInt < 0 then -x else x

def testBang (x : Word) : Word :=
  lnot x

variable {x y z n c : Word}

/-! ## What the puzzles compute -/

theorem lnot_eq (x : Word) : lnot x = ofBool (x = 0#32) := by
  unfold lnot ofBool
  by_cases h : x = 0#32 <;> simp [h]

theorem bitAnd_eq (x y : Word) : bitAnd x y = testBitAnd x y := by
  rw [bitAnd, BitVec.not_or, BitVec.not_not, BitVec.not_not, testBitAnd]

theorem negate_eq (x : Word) : negate x = testNegate x :=
  (BitVec.neg_eq_not_add x).symm

theorem isEqual_eq (x y : Word) : isEqual x y = testIsEqual x y := by
  have hzero : x - y = 0#32 ↔ x = y := BitVec.sub_eq_iff_eq_add.trans (by simp)
  rw [isEqual, add_not_add_one, lnot_eq, testIsEqual, decide_eq_decide.mpr hzero]

/-- The condition as a mask of all bits. -/
theorem condition_mask (x : Word) :
    ~~~(lnot (lnot x)) + 1#32 = if x = 0#32 then 0#32 else BitVec.allOnes 32 := by
  rw [lnot_eq, lnot_eq]
  by_cases h : x = 0#32
  · rw [decide_eq_true h, if_pos h]
    rfl
  · rw [decide_eq_false h, if_neg h]
    rfl

theorem conditional_eq (x y z : Word) : conditional x y z = testConditional x y z := by
  rw [conditional, condition_mask, testConditional]
  by_cases h : x = 0#32
  · rw [if_pos h, if_neg (not_not_intro h), BitVec.not_zero, BitVec.allOnes_and, BitVec.zero_and,
      BitVec.or_zero]
  · rw [if_neg h, if_pos h, BitVec.not_allOnes, BitVec.zero_and, BitVec.allOnes_and,
      BitVec.zero_or]

/-- A small word that is not negative. -/
theorem toNat_le {bound : ℕ} (h0 : 0 ≤ n.toInt)
    (h : n.toInt ≤ bound) : n.toNat ≤ bound := by
  have hlt := n.isLt
  rw [BitVec.toInt_eq_toNat_cond] at h0 h
  split at h <;> omega

/-- The byte is masked in its place and replaced. -/
theorem replaceByte_eq (x c : Word) (hn : 0 ≤ n.toInt ∧ n.toInt ≤ 3) :
    replaceByte x n c = testReplaceByte x n c := by
  have hle : n.toNat ≤ 3 := toNat_le hn.1 hn.2
  have hcases : n = 0#32 ∨ n = 1#32 ∨ n = 2#32 ∨ n = 3#32 := by
    simp only [← BitVec.toNat_inj, BitVec.toNat_ofNat]
    omega
  rcases hcases with rfl | rfl | rfl | rfl
  · have hshift : c <<< 0 = c := BitVec.shiftLeft_zero c
    exact congrArg (fun b => (x &&& 0xFFFFFF00#32) ||| b) hshift
  · rfl
  · rfl
  · rfl

/-- The quotient is rounded towards zero. -/
theorem divPwr2_eq (x : Word) (hn : 0 ≤ n.toInt ∧ n.toInt ≤ 30) :
    divPwr2 x n = testDivPwr2 x n := by
  have hle : n.toNat + 1 < 32 := Nat.lt_of_le_of_lt
    (Nat.succ_le_succ (toNat_le hn.1 hn.2)) (by decide)
  have hpow : (1#32 <<< n.toNat).toInt = 2 ^ n.toNat := toInt_one_shift hle
  have hpos : (0 : Int) < 2 ^ n.toNat := Int.pow_pos (by decide)
  have hdivisor : (1#32 <<< n.toNat) ≠ -1#32 := fun h => by
    rw [h] at hpow
    have hneg : (-1#32).toInt = -1 := by decide
    omega
  have hquot := BitVec.toInt_sdiv_of_ne_or_ne x (1#32 <<< n.toNat) (Or.inr hdivisor)
  rw [hpow, ← toInt_shift_round hle x, ← add_not_add_one] at hquot
  exact (BitVec.eq_of_toInt_eq hquot).symm

/-- The low half of a sum is the sum unless it overflows. -/
theorem sum_fits (x y : Word) :
    x.signExtend 64 + y.signExtend 64 =
        ((x.signExtend 64 + y.signExtend 64).setWidth 32).signExtend 64 ↔
      ¬ BitVec.saddOverflow x y := by
  have hx := BitVec.le_toInt x
  have hx' := BitVec.toInt_lt (x := x)
  have hy := BitVec.le_toInt y
  have hy' := BitVec.toInt_lt (x := y)
  have hsum : (x.signExtend 64 + y.signExtend 64).toInt = x.toInt + y.toInt := by
    rw [BitVec.toInt_add, BitVec.toInt_signExtend_of_le (by decide),
      BitVec.toInt_signExtend_of_le (by decide)]
    exact Int.bmod_eq_of_le (by omega) (by omega)
  have hlow : (((x.signExtend 64 + y.signExtend 64).setWidth 32).signExtend 64).toInt =
      (x.toInt + y.toInt).bmod (2 ^ 32) := by
    rw [BitVec.toInt_signExtend_of_le (by decide), ← BitVec.signExtend_eq_setWidth_of_le _ (by decide),
      BitVec.toInt_signExtend_eq_toInt_bmod_of_le _ (by decide), hsum]
  rw [← BitVec.toInt_inj, hsum, hlow]
  simp only [BitVec.saddOverflow, Bool.or_eq_true, decide_eq_true_eq, not_or]
  constructor
  · intro h
    have hge := Int.le_bmod (x := x.toInt + y.toInt) (m := 2 ^ 32) (by decide)
    have hlt := Int.bmod_lt (x := x.toInt + y.toInt) (m := 2 ^ 32) (by decide)
    omega
  · intro h
    exact (Int.bmod_eq_of_le (by omega) (by omega)).symm

theorem addOk_eq (x y : Word) : addOk x y = testAddOk x y := by
  have hok := (signMask_add x y (by decide)).trans (sum_fits x y).symm
  have hsigns : addOk x y = lnot ((signMask (x + y) - signMask y) &&&
      (signMask (x + y) - signMask x)) := by
    rw [← add_not_add_one, ← add_not_add_one]
    rfl
  rw [hsigns, lnot_eq, decide_eq_decide.mpr hok]
  rfl

theorem absVal_eq (x : Word) : absVal x = testAbsVal x := by
  refine (xor_signMask x).trans ?_
  rw [testAbsVal]
  cases hmsb : x.msb with
  | false =>
    have hx := BitVec.toInt_nonneg_of_msb_false hmsb
    rw [if_neg (by decide), if_neg (by omega)]
  | true => rw [if_pos rfl, if_pos (BitVec.toInt_neg_of_msb_true hmsb)]

theorem bang_eq (x : Word) : bang x = testBang x := by
  have hmask : bang x = signMask (x ||| -x) + 1#32 := by
    rw [BitVec.neg_eq_not_add]
    rfl
  rw [hmask, signMask_or_neg, testBang, lnot]
  by_cases hx : x = 0#32
  · rw [if_pos hx, if_pos hx]
    rfl
  · rw [if_neg hx, if_neg hx]
    rfl

end CourseProjects.Data

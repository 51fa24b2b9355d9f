import CourseProjects.Data.Bits
import CourseProjects.Lib.CInt
import CourseProjects.Lib.Rounding
import Mathlib.Data.List.Forall2

/-!
# The test harness of the puzzles

A test is called with every combination of some values for its arguments, up to the first
difference from the function of `tests.c`. The numbers that `rand` returns are an input of a
run, and so is the precision of floating point: a double has 53 binary digits, and the
registers that hold it in a program of 32 bits have 64. No test runs into the timeout.
-/

namespace CourseProjects.Data

open CInt Rounding

/-- A function of some `int` arguments. -/
@[reducible] def Funct : Nat → Type
  | 0 => Word
  | n + 1 => Word → Funct n

/-- The entries of `test_set`; the lists of operators and their limits belong to another tool. -/
structure TestRec where
  name : String
  args : Nat
  solutionFunct : Funct args
  testFunct : Funct args
  rating : Int
  argRanges : Nat → Int × Int

def TMin : Int :=
  intMin

def TMax : Int :=
  intMax

def anyInt : Int × Int :=
  (TMin, TMax)

/-- The ranges of the arguments; those behind the last one are never read. -/
def ranges : List (Int × Int) → Nat → Int × Int :=
  fun l i => l[i]?.getD anyInt

def testSet : List TestRec :=
  [⟨"bit_and", 2, bitAnd, testBitAnd, 1, ranges [anyInt, anyInt, anyInt]⟩,
   ⟨"negate", 1, negate, testNegate, 2, ranges [anyInt, anyInt, anyInt]⟩,
   ⟨"is_equal", 2, isEqual, testIsEqual, 2, ranges [anyInt, anyInt, anyInt]⟩,
   ⟨"div_pwr_2", 2, divPwr2, testDivPwr2, 2, ranges [anyInt, (0, 30), anyInt]⟩,
   ⟨"conditional", 3, conditional, testConditional, 3, ranges [anyInt, anyInt, anyInt]⟩,
   ⟨"replaceByte", 3, replaceByte, testReplaceByte, 3, ranges [anyInt, (0, 3), (0, 255)]⟩,
   ⟨"add_ok", 2, addOk, testAddOk, 3, ranges [anyInt, anyInt, anyInt]⟩,
   ⟨"abs_val", 1, absVal, testAbsVal, 4, ranges [(-TMax, TMax), anyInt, anyInt]⟩,
   ⟨"bang", 1, bang, testBang, 4, ranges [anyInt, anyInt, anyInt]⟩]

/-! ## The values of an argument -/

def testRange : Nat :=
  2 ^ 21

def maxTestVals : Nat :=
  14 * testRange

def randMax : Int :=
  2147483647

/-- The weighted mean of the bounds, computed in floating point and cut to an integer. -/
def randomVal (p : Nat) (min max : Int) (rand : Nat) : Option Int :=
  let weight := rounded p (rand / randMax)
  let result := rounded p (rounded p (min * rounded p (1 - weight)) + rounded p (max * weight))
  checked (truncate result)

/-- The values for functions of the bits of a float. -/
def floatVals : List Word :=
  let smallestNorm : Word := 0x00800000#32
  let one : Word := 0x3f800000#32
  let largestNorm : Word := 0x7f000000#32
  let inf : Word := 0x7f800000#32
  let nan : Word := 0x7fc00000#32
  let sign : Word := 0x80000000#32
  ((List.range (2 ^ 21)).flatMap fun k =>
    let i := BitVec.ofNat 32 k
    [i, sign ||| i, smallestNorm + i, smallestNorm - i, sign ||| (smallestNorm + i),
      sign ||| (smallestNorm - i), one + i, one - i, sign ||| (one + i), sign ||| (one - i),
      largestNorm - i, sign ||| (largestNorm - i), i <<< 10]) ++
    [inf, sign ||| inf, nan, sign ||| nan]

/-- The values of one round of the sampling loop. -/
def sample (p : Nat) (min max : Int) (rand : Nat → Nat) (i : Nat) : Option (List Int) := do
  let low ← checked (min + i)
  let high ← checked (max - i)
  let neg ← checked (-i)
  let val ← randomVal p min max (rand i)
  return [low, high] ++ (if i ≥ min ∧ i ≤ max then [(i : Int)] else []) ++
    (if neg ≥ min ∧ neg ≤ max then [neg] else []) ++ [val]

/-- The values for an argument between `min` and `max`. The counter of the first loop ends
behind `max`. -/
def intVals (p : Nat) (min max : Int) (range : Nat) (rand : Nat → Nat) : Option (List Int) := do
  let bound ← checked (max - maxTestVals)
  if bound ≤ min then
    let _ ← checked (max + 1)
    return (List.range (max - min + 1).toNat).map fun (i : Nat) => min + i
  else
    let rounds ← (List.range range).mapM (sample p min max rand)
    return rounds.flatten

/-- The values in their array, which has room for `maxTestVals`. -/
def stored (vals : List Word) : Option (List Word) :=
  if vals.length ≤ maxTestVals then some vals else none

/-- `fixed` is the argument of the command line. -/
def genVals (p : Nat) (fixed : Option Word) (min max : Int) (range : Nat) (rand : Nat → Nat) :
    Option (List Word) :=
  match fixed with
  | some argval => stored [argval]
  | none =>
    if min = 1 ∧ max = 1 then stored floatVals
    else (intVals p min max range rand).bind fun l => stored (l.map (BitVec.ofInt 32))

/-! ## A test -/

/-- The arguments of the first difference, and the two results. -/
structure Failure where
  args : List Word
  r : Word
  rt : Word

/-- The loops over the values of the arguments. -/
def testArgs : (n : Nat) → Funct n → Funct n → List (List Word) → Option Failure
  | 0, r, rt, _ => if r = rt then none else some ⟨[], r, rt⟩
  | _ + 1, _, _, [] => none
  | n + 1, f, ft, vals :: rest =>
    vals.findSome? fun arg =>
      (testArgs n (f arg) (ft arg) rest).map fun e => { e with args := arg :: e.args }

/-- The powers 0.5 and 0.333 of `TEST_RANGE`, cut to integers. -/
def argTestRange (args : Nat) : Nat :=
  if args = 1 then testRange else if args = 2 then 1448 else 127

/-- The values of an argument of a test. -/
def argVals (p : Nat) (t : TestRec) (fixed : Nat → Option Word) (rand : Nat → Nat → Nat)
    (i : Nat) : Option (List Word) :=
  genVals p (fixed i) (t.argRanges i).1 (t.argRanges i).2 (argTestRange t.args) (rand i)

/-- The values of the first arguments. -/
def argTestVals (p : Nat) (t : TestRec) (fixed : Nat → Option Word) (rand : Nat → Nat → Nat) :
    Nat → Option (List (List Word))
  | 0 => some []
  | n + 1 => do
    let vals ← argTestVals p t fixed rand n
    return vals ++ [← argVals p t fixed rand n]

/-- The first difference; a test of more than three arguments ends the program. -/
def testFunction (p : Nat) (t : TestRec) (fixed : Nat → Option Word)
    (rand : Nat → Nat → Nat) : Option (Option Failure) :=
  if t.args > 3 then none
  else do
    let vals ← argTestVals p t fixed rand t.args
    return testArgs t.args t.solutionFunct t.testFunct vals

/-! ## All tests -/

/-- The options of the command line. -/
structure Options where
  grade : Bool
  testFname : Option String
  fixed : Nat → Option Word
  globalRating : Int

/-- A line of the table that `run_tests` prints. -/
structure Line where
  points : Int
  rating : Int
  errors : Nat
  name : String
  deriving DecidableEq

structure Totals where
  failures : List (String × Failure)
  lines : List Line
  errors : Nat
  points : Int
  maxPoints : Int

def Options.selects (o : Options) (t : TestRec) : Bool :=
  match o.testFname with
  | none => true
  | some name => t.name = name

def Options.rating (o : Options) (t : TestRec) : Int :=
  if o.globalRating ≠ 0 then o.globalRating else t.rating

/-- One test of the loop; a difference is printed unless the output is for grading. -/
def runTest (p : Nat) (o : Options) (rand : String → Nat → Nat → Nat) (totals : Totals)
    (t : TestRec) : Option Totals :=
  if o.selects t then do
    let failure ← testFunction p t o.fixed (rand t.name)
    let terrors := if failure.isSome then 1 else 0
    let tpoints := if terrors = 0 then o.rating t else 0
    return {
      failures := totals.failures ++
        if o.grade then [] else failure.toList.map fun e => (t.name, e)
      lines := totals.lines ++
        if o.grade ∨ terrors < 1 then [⟨tpoints, o.rating t, terrors, t.name⟩] else []
      errors := totals.errors + terrors
      points := totals.points + tpoints
      maxPoints := totals.maxPoints + o.rating t }
  else some totals

def runTests (p : Nat) (o : Options) (rand : String → Nat → Nat → Nat)
    (tests : List TestRec) : Option Totals :=
  tests.foldlM (runTest p o rand) ⟨[], [], 0, 0, 0⟩

end CourseProjects.Data

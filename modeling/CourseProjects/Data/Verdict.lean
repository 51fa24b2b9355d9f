import CourseProjects.Data.Values

/-!
# The verdict of the harness

A test fails exactly when the two functions differ at a combination of its values, and all
combinations of a small range are tried. The puzzles agree with the functions of `tests.c` in
the whole ranges of their arguments, so every run of the harness gives full points.
-/

namespace CourseProjects.Data

variable {n p : Nat} {f ft : Funct n} {vals : List (List Word)} {e : Failure} {t : TestRec}
  {fixed : Nat → Option Word} {rand : Nat → Nat → Nat} {arg : Word} {l args : List Word}

/-! ## The loops -/

/-- The value at some arguments. -/
def Funct.apply : (n : Nat) → Funct n → List Word → Word
  | 0, r, _ => r
  | n + 1, f, [] => apply n (f 0#32) []
  | n + 1, f, arg :: args => apply n (f arg) args

/-- One of the values for each argument. -/
abbrev Combination (args : List Word) (vals : List (List Word)) : Prop :=
  List.Forall₂ (fun arg l => arg ∈ l) args vals

theorem testArgs_none (hlen : vals.length = n) :
    testArgs n f ft vals = none ↔
      ∀ args, Combination args vals → Funct.apply n f args = Funct.apply n ft args := by
  induction n generalizing vals with
  | zero =>
    obtain rfl := List.eq_nil_of_length_eq_zero hlen
    rw [testArgs]
    constructor
    · intro h args _
      have hsame : f = ft := by
        by_contra hne
        rw [if_neg hne] at h
        cases h
      exact hsame
    · intro h
      exact if_pos (h [] .nil)
  | succ n ih =>
    obtain ⟨l, rest, rfl⟩ := List.exists_cons_of_length_eq_add_one hlen
    have hrest : rest.length = n := Nat.succ.inj hlen
    simp only [testArgs, List.findSome?_eq_none_iff, Option.map_eq_none_iff, ih hrest]
    constructor
    · intro h args hargs
      cases hargs with
      | cons harg hcomb => exact h _ harg _ hcomb
    · intro h arg harg args hcomb
      exact h (arg :: args) (.cons harg hcomb)

theorem argTestVals_get (h : argTestVals p t fixed rand n = some vals) :
    vals.length = n ∧ ∀ i < n, argVals p t fixed rand i = vals[i]? := by
  induction n generalizing vals with
  | zero =>
    cases h
    exact ⟨rfl, fun i hi => absurd hi (Nat.not_lt_zero i)⟩
  | succ n ih =>
    obtain ⟨first, hfirst, hbind⟩ := Option.bind_eq_some_iff.mp h
    obtain ⟨last, hlast, hvals⟩ := Option.bind_eq_some_iff.mp hbind
    cases hvals
    obtain ⟨hlen, hget⟩ := ih hfirst
    refine ⟨by simp [hlen], fun i hi => ?_⟩
    rcases Nat.lt_succ_iff_lt_or_eq.mp hi with hi | rfl
    · rw [hget i hi, List.getElem?_append_left (by omega)]
    · rw [hlast, ← hlen, List.getElem?_concat_length]

theorem argTestVals_exists (h : ∀ i < n, argVals p t fixed rand i ≠ none) :
    ∃ vals, argTestVals p t fixed rand n = some vals := by
  induction n with
  | zero => exact ⟨[], rfl⟩
  | succ n ih =>
    obtain ⟨first, hfirst⟩ := ih fun i hi => h i (Nat.lt_succ_of_lt hi)
    obtain ⟨last, hlast⟩ := Option.ne_none_iff_exists'.mp (h n (Nat.lt_succ_self n))
    exact ⟨first ++ [last], by rw [argTestVals, hfirst, hlast]; rfl⟩

theorem testFunction_eq (hargs : t.args ≤ 3)
    (hvals : argTestVals p t fixed rand t.args = some vals) :
    testFunction p t fixed rand = some (testArgs t.args t.solutionFunct t.testFunct vals) := by
  rw [testFunction, if_neg (Nat.not_lt.mpr hargs), hvals]
  rfl

/-- There are values for fixed arguments and for ranges of integers. -/
theorem argTestVals_some (hp : 53 ≤ p)
    (hrand : ∀ i k, (rand i k : Int) ≤ randMax)
    (h : ∀ i < t.args, fixed i ≠ none ∨ OfInts (t.argRanges i)) :
    ∃ vals, argTestVals p t fixed rand t.args = some vals := by
  refine argTestVals_exists fun i hi => ?_
  unfold argVals
  cases hfixed : fixed i with
  | some argval => simp [genVals, stored_single]
  | none =>
    have hints := (h i hi).resolve_left (not_not_intro hfixed)
    exact (genVals_ne_none hp hints.low hints.high hints.notFloat (argTestRange_le t.args)
      (hrand i) hints.computes).mpr hints.fits

theorem combination_iff :
    Combination args vals ↔
      args.length = vals.length ∧
        ∀ (i : Nat) l arg, vals[i]? = some l → args[i]? = some arg → arg ∈ l := by
  constructor
  · intro h
    refine ⟨h.length_eq, fun i l arg hl harg => ?_⟩
    obtain ⟨hi, rfl⟩ := List.getElem?_eq_some_iff.mp hl
    obtain ⟨hi', rfl⟩ := List.getElem?_eq_some_iff.mp harg
    exact h.get hi' hi
  · rintro ⟨hargs, h⟩
    refine List.forall₂_of_length_eq_of_get hargs fun i hi hi' => ?_
    exact h i _ _ (List.getElem?_eq_getElem hi') (List.getElem?_eq_getElem hi)

/-- A value is the fixed argument or lies in the range. -/
theorem argVals_mem (hp : 53 ≤ p) {i : Nat} (h : OfInts (t.argRanges i))
    (hrand : ∀ k, (rand i k : Int) ≤ randMax) (hl : argVals p t fixed rand i = some l)
    (harg : arg ∈ l) :
    fixed i = some arg ∨ (t.argRanges i).1 ≤ arg.toInt ∧ arg.toInt ≤ (t.argRanges i).2 := by
  unfold argVals at hl
  cases hfixed : fixed i with
  | some argval =>
    rw [hfixed, genVals, stored_single] at hl
    cases hl
    rw [List.mem_singleton.mp harg]
    exact Or.inl rfl
  | none =>
    rw [hfixed] at hl
    exact Or.inr (genVals_mem hp h (argTestRange_le t.args) hrand hl harg)

/-- The combinations of the values of a test, argument by argument. -/
theorem combination_vals (hvals : argTestVals p t fixed rand n = some vals) :
    Combination args vals ↔ args.length = n ∧
      ∀ i < n, ∀ l arg, argVals p t fixed rand i = some l → args[i]? = some arg → arg ∈ l := by
  obtain ⟨hlen, hget⟩ := argTestVals_get hvals
  rw [combination_iff, hlen]
  refine and_congr_right fun hargs => ⟨fun h i hi l arg hl => ?_, fun h i l arg hl harg => ?_⟩
  · exact h i l arg (by rw [← hget i hi, hl])
  · obtain ⟨hi, -⟩ := List.getElem?_eq_some_iff.mp hl
    rw [hlen] at hi
    exact h i hi l arg (by rw [hget i hi, hl]) harg

/-- The right number of arguments, each in the range that the test gives for it. -/
def InRanges (t : TestRec) (args : List Word) : Prop :=
  args.length = t.args ∧ ∀ i arg, args[i]? = some arg →
    (t.argRanges i).1 ≤ arg.toInt ∧ arg.toInt ≤ (t.argRanges i).2

/-! ## The verdict -/

theorem solution_agrees (ht : t ∈ testSet) (hargs : InRanges t args) :
    Funct.apply t.args t.solutionFunct args = Funct.apply t.args t.testFunct args := by
  obtain ⟨hlen, hranges⟩ := hargs
  simp only [testSet, List.mem_cons, List.not_mem_nil, or_false] at ht
  rcases ht with rfl | rfl | rfl | rfl | rfl | rfl | rfl | rfl | rfl
  · obtain ⟨x, y, rfl⟩ := List.length_eq_two.mp hlen
    exact bitAnd_eq x y
  · obtain ⟨x, rfl⟩ := List.length_eq_one_iff.mp hlen
    exact negate_eq x
  · obtain ⟨x, y, rfl⟩ := List.length_eq_two.mp hlen
    exact isEqual_eq x y
  · obtain ⟨x, n, rfl⟩ := List.length_eq_two.mp hlen
    exact divPwr2_eq x (hranges 1 n rfl)
  · obtain ⟨x, y, z, rfl⟩ := List.length_eq_three.mp hlen
    exact conditional_eq x y z
  · obtain ⟨x, n, c, rfl⟩ := List.length_eq_three.mp hlen
    exact replaceByte_eq x c (hranges 1 n rfl)
  · obtain ⟨x, y, rfl⟩ := List.length_eq_two.mp hlen
    exact addOk_eq x y
  · obtain ⟨x, rfl⟩ := List.length_eq_one_iff.mp hlen
    exact absVal_eq x
  · obtain ⟨x, rfl⟩ := List.length_eq_one_iff.mp hlen
    exact bang_eq x

/-- Every puzzle computes the function of `tests.c` in the ranges of its arguments. -/
theorem puzzles_meet_tests (t : TestRec) (ht : t ∈ testSet) (args : List Word)
    (hargs : InRanges t args) :
    Funct.apply t.args t.solutionFunct args = Funct.apply t.args t.testFunct args :=
  solution_agrees ht hargs

theorem quotient_meets_test : ∃ t ∈ testSet, t.name = "div_pwr_2" ∧
    Funct.apply t.args t.solutionFunct [-33#32, 4#32] =
      Funct.apply t.args t.testFunct [-33#32, 4#32] := by
  refine ⟨_, List.mem_of_getElem? (rfl : testSet[3]? = some _), rfl, ?_⟩
  refine puzzles_meet_tests _ (List.mem_of_getElem? (rfl : testSet[3]? = some _)) _ ⟨rfl, ?_⟩
  rintro (_ | _ | i) arg harg
  · cases harg
    decide
  · cases harg
    decide
  · cases harg

/-! ## A run of the harness -/

theorem testSet_ofInts (t : TestRec) (ht : t ∈ testSet) (i : Nat) : OfInts (t.argRanges i) := by
  simp only [testSet, List.mem_cons, List.not_mem_nil, or_false] at ht
  rcases ht with rfl | rfl | rfl | rfl | rfl | rfl | rfl | rfl | rfl <;>
    exact ranges_ofInts (by decide) i

theorem testSet_args (t : TestRec) (ht : t ∈ testSet) : t.args ≤ 3 := by
  simp only [testSet, List.mem_cons, List.not_mem_nil, or_false] at ht
  rcases ht with rfl | rfl | rfl | rfl | rfl | rfl | rfl | rfl | rfl <;> decide

/-- The fixed arguments are in the ranges of the tests that are run. -/
def Options.Valid (o : Options) : Prop :=
  ∀ t ∈ testSet, o.selects t = true → ∀ i < t.args, ∀ arg ∈ o.fixed i,
    (t.argRanges i).1 ≤ arg.toInt ∧ arg.toInt ≤ (t.argRanges i).2

theorem testFunction_passes (hp : 53 ≤ p) {o : Options} (ho : o.Valid) (ht : t ∈ testSet)
    (hsel : o.selects t = true) {rand : Nat → Nat → Nat}
    (hrand : ∀ i k, (rand i k : Int) ≤ randMax) : testFunction p t o.fixed rand = some none := by
  have hints := testSet_ofInts t ht
  obtain ⟨vals, hvals⟩ : ∃ vals, argTestVals p t o.fixed rand t.args = some vals :=
    argTestVals_some hp hrand fun i _ => Or.inr (hints i)
  rw [testFunction_eq (testSet_args t ht) hvals, Option.some_inj,
    testArgs_none (argTestVals_get hvals).1]
  intro args hargs
  obtain ⟨hlen, hmem⟩ := (combination_vals hvals).mp hargs
  obtain ⟨hvlen, hget⟩ := argTestVals_get hvals
  refine solution_agrees ht ⟨hlen, fun i arg harg => ?_⟩
  obtain ⟨hi, -⟩ := List.getElem?_eq_some_iff.mp harg
  rw [hlen] at hi
  have hl : argVals p t o.fixed rand i = some _ :=
    (hget i hi).trans (List.getElem?_eq_getElem (by rw [hvlen]; exact hi))
  rcases argVals_mem hp (hints i) (hrand i) hl (hmem i hi _ arg hl harg) with hfixed | hrange
  · exact ho t ht hsel i hi arg hfixed
  · exact hrange

/-- The totals after some more tests without a difference. -/
def Totals.passed (totals : Totals) (o : Options) (tests : List TestRec) : Totals :=
  let selected := tests.filter o.selects
  { totals with
    lines := totals.lines ++ selected.map fun t => ⟨o.rating t, o.rating t, 0, t.name⟩
    points := totals.points + (selected.map o.rating).sum
    maxPoints := totals.maxPoints + (selected.map o.rating).sum }

theorem runTest_passes {o : Options} {rand : String → Nat → Nat → Nat} (totals : Totals)
    (h : o.selects t = true → testFunction p t o.fixed (rand t.name) = some none) :
    runTest p o rand totals t = some (totals.passed o [t]) := by
  unfold runTest Totals.passed
  by_cases hsel : o.selects t = true
  · simp [hsel, h hsel]
  · simp [hsel]

theorem foldlM_passes {o : Options} {rand : String → Nat → Nat → Nat} (tests : List TestRec)
    (totals : Totals)
    (h : ∀ t ∈ tests, o.selects t = true →
      testFunction p t o.fixed (rand t.name) = some none) :
    tests.foldlM (runTest p o rand) totals = some (totals.passed o tests) := by
  induction tests generalizing totals with
  | nil => simp [Totals.passed]
  | cons t tests ih =>
    rw [List.foldlM_cons, runTest_passes totals (h t List.mem_cons_self), Option.bind_eq_bind,
      Option.bind_some, ih _ fun t' ht' => h t' (List.mem_cons_of_mem t ht')]
    by_cases hsel : o.selects t = true
    · simp [Totals.passed, hsel, Int.add_assoc]
    · simp [Totals.passed, hsel]

/-- Every run of the harness with arguments in the ranges finds no difference and gives every
selected puzzle its full points, whatever the random values and the precision are. -/
theorem btest_passes (p : Nat) (hp : 53 ≤ p) (o : Options) (ho : o.Valid)
    (rand : String → Nat → Nat → Nat) (hrand : ∀ name i k, (rand name i k : Int) ≤ randMax) :
    ∃ totals, runTests p o rand testSet = some totals ∧ totals.failures = [] ∧ totals.errors = 0 ∧
      totals.points = totals.maxPoints ∧
      totals.lines =
        (testSet.filter o.selects).map fun t => ⟨o.rating t, o.rating t, 0, t.name⟩ :=
  ⟨_, foldlM_passes testSet _ fun t ht hsel => testFunction_passes hp ho ht hsel (hrand t.name),
    rfl, rfl, rfl, List.nil_append _⟩

/-- A run without options. -/
def allTests : Options :=
  ⟨false, none, fun _ => none, 0⟩

theorem allTests_pass : ∃ totals, runTests 64 allTests (fun _ _ _ => 0) testSet = some totals ∧
    totals.failures = [] ∧ totals.errors = 0 ∧ totals.points = totals.maxPoints ∧
    totals.lines = (testSet.filter allTests.selects).map fun t =>
      ⟨allTests.rating t, allTests.rating t, 0, t.name⟩ :=
  btest_passes 64 (by decide) allTests (fun _ _ _ _ _ _ h => by cases h) (fun _ _ _ => 0)
    fun _ _ _ => by decide

end CourseProjects.Data

import CourseProjects.Lib.Interval
import CourseProjects.Lib.Transition
import CourseProjects.Malloc.Heap

/-!
# The range list of `mdriver.c`

The driver records the first and the last byte of every payload it was given.
`add_range` looks whether an end of the new payload lies in a recorded one. A payload
that encloses a recorded one has both of its ends outside.
-/

namespace CourseProjects.Malloc

open Transition CourseProjects.Interval

structure Range where
  lo : Nat
  hi : Nat
  deriving DecidableEq, Repr

def memHeapHi (h : Heap) : Nat := h.memBrk - 1

/-- `IS_ALIGNED`. -/
def isAligned (p : Nat) : Bool := p % alignment = 0

/-- The complaints of `add_range`, with the pointers that they name. -/
inductive RangeError
  | notAligned (lo : Nat)
  | outsideHeap (lo hi heapLo heapHi : Nat)
  | overlaps (lo hi : Nat) (p : Range)
  deriving DecidableEq, Repr

/-- A pointer as `%p` prints it. -/
def fmtPtr (p : Nat) : String :=
  if p = 0 then "(nil)" else "0x" ++ String.ofList (Nat.toDigits 16 p)

def RangeError.msg : RangeError → String
  | notAligned lo =>
    "Payload address (" ++ fmtPtr lo ++ ") not aligned to " ++ toString alignment ++ " bytes"
  | outsideHeap lo hi heapLo heapHi =>
    "Payload (" ++ fmtPtr lo ++ ":" ++ fmtPtr hi ++ ") lies outside heap (" ++ fmtPtr heapLo ++
      ":" ++ fmtPtr heapHi ++ ")"
  | overlaps lo hi p =>
    "Payload (" ++ fmtPtr lo ++ ":" ++ fmtPtr hi ++ ") overlaps another payload (" ++
      fmtPtr p.lo ++ ":" ++ fmtPtr p.hi ++ ")\n"

/-- The test of a payload against a recorded range. -/
def endIn (lo hi : Nat) (p : Range) : Bool :=
  (lo ≥ p.lo ∧ lo ≤ p.hi) ∨ (hi ≥ p.lo ∧ hi ≤ p.hi)

/-- A failed `assert` is `none`. The driver exits when it gets no memory for the record. -/
def addRange (h : Heap) (ranges : List Range) (lo : Nat) (size : Int) :
    Option (Except RangeError (List Range)) := do
  let hi := lo + size.toNat - 1
  guard (size > 0)
  if isAligned lo = false then
    return .error (.notAligned lo)
  if lo < memHeapLo h ∨ lo > memHeapHi h ∨ hi < memHeapLo h ∨ hi > memHeapHi h then
    return .error (.outsideHeap lo hi (memHeapLo h) (memHeapHi h))
  match ranges.find? (endIn lo hi) with
  | some p => return .error (.overlaps lo hi p)
  | none => return .ok (⟨lo, hi⟩ :: ranges)

/-- The first record of a block whose payload starts at `lo` is freed. -/
def removeRange (ranges : List Range) (lo : Nat) : List Range :=
  ranges.eraseP fun p => p.lo = lo

/-- Every record is freed. -/
def clearRanges : List Range → List Range
  | [] => []
  | _ :: ranges => clearRanges ranges

inductive RangeCall
  | add (h : Heap) (lo : Nat) (size : Int)
  | remove (lo : Nat)

/-- The list after a call; a payload that is reported is not recorded. -/
def RangeCall.run (ranges : List Range) : RangeCall → Option (List Range)
  | .add h lo size => do
    match ← addRange h ranges lo size with
    | .ok ranges => return ranges
    | .error _ => return ranges
  | .remove lo => some (removeRange ranges lo)

/-- The calls of the driver, from the empty list. -/
def rangeList : System (List Range) RangeCall where
  init ranges := ranges = []
  step ranges c ranges' := c.run ranges = some ranges'

def Range.bytes (p : Range) : Set Nat := Set.Icc p.lo p.hi

/-- The two ranges have no byte in common. -/
def Range.Apart (p q : Range) : Prop := ¬ ∃ x ∈ p.bytes, x ∈ q.bytes

/-- The payload is recorded, without a complaint. -/
def Accepts (h : Heap) (ranges : List Range) (lo : Nat) (size : Int) : Prop :=
  ∃ ranges', addRange h ranges lo size = some (.ok ranges')

/-- A payload in the right place that has no byte in common with a recorded one. -/
structure Allowed (h : Heap) (ranges : List Range) (lo : Nat) (size : Int) : Prop where
  aligned : lo % 8 = 0
  inside : memHeapLo h ≤ lo ∧ lo + size.toNat - 1 ≤ memHeapHi h
  apart : ∀ p ∈ ranges, Range.Apart ⟨lo, lo + size.toNat - 1⟩ p

/-- A payload in the right place with no end in a recorded range, and with a recorded range
strictly between its ends. -/
structure Encloses (h : Heap) (ranges : List Range) (lo : Nat) (size : Int) : Prop where
  aligned : lo % 8 = 0
  inside : memHeapLo h ≤ lo ∧ lo + size.toNat - 1 ≤ memHeapHi h
  ends : ∀ p ∈ ranges, endIn lo (lo + size.toNat - 1) p = false
  around : ∃ p ∈ ranges, lo < p.lo ∧ p.hi < lo + size.toNat - 1

def NotEnclosing (ranges : List Range) : RangeCall → Prop
  | .add h lo size => ¬ Encloses h ranges lo size
  | .remove _ => True

def Separate (ranges : List Range) : Prop :=
  ranges.Pairwise Range.Apart

variable {h : Heap} {ranges ranges' : List Range} {lo hi : Nat} {size : Int} {p : Range}
  {c : RangeCall}

/-! ## One call -/

theorem endIn_iff : endIn lo hi p = true ↔ lo ∈ p.bytes ∨ hi ∈ p.bytes := by
  simp [endIn, Range.bytes]

/-- What `add_range` looks at, and what it does not. -/
theorem apart_iff (hhi : lo ≤ hi) (hp : p.lo ≤ p.hi) :
    Range.Apart ⟨lo, hi⟩ p ↔ endIn lo hi p = false ∧ ¬ (lo < p.lo ∧ p.hi < hi) := by
  rw [← Bool.not_eq_true, endIn_iff, ← not_or]
  exact not_congr (meet_Icc_iff_ends hhi hp)

theorem last_le (hsize : 0 < size) (lo : Nat) : lo ≤ lo + size.toNat - 1 := by
  omega

/-- A payload outside the heap is one that does not lie in it. -/
theorem outside_iff (hle : lo ≤ hi) :
    (lo < memHeapLo h ∨ lo > memHeapHi h ∨ hi < memHeapLo h ∨ hi > memHeapHi h) ↔
      ¬ (memHeapLo h ≤ lo ∧ hi ≤ memHeapHi h) := by
  omega

theorem isAligned_iff : isAligned lo = false ↔ ¬ lo % 8 = 0 :=
  decide_eq_false_iff_not

/-- The three checks, one after another. -/
theorem addRange_eq (h : Heap) (ranges : List Range) (lo : Nat) (hsize : 0 < size) :
    addRange h ranges lo size = some
      (if ¬ lo % 8 = 0 then .error (.notAligned lo)
      else if ¬ (memHeapLo h ≤ lo ∧ lo + size.toNat - 1 ≤ memHeapHi h) then
        .error (.outsideHeap lo (lo + size.toNat - 1) (memHeapLo h) (memHeapHi h))
      else
        match ranges.find? (endIn lo (lo + size.toNat - 1)) with
        | some p => .error (.overlaps lo (lo + size.toNat - 1) p)
        | none => .ok (⟨lo, lo + size.toNat - 1⟩ :: ranges)) := by
  have hguard : guard (size > 0) = some () := if_pos hsize
  have hout := outside_iff (h := h) (last_le hsize lo)
  unfold addRange
  rw [hguard]
  simp only [hout, isAligned_iff]
  by_cases ha : lo % 8 = 0
  · rw [if_neg (not_not.mpr ha), if_neg (not_not.mpr ha)]
    by_cases hin : memHeapLo h ≤ lo ∧ lo + size.toNat - 1 ≤ memHeapHi h
    · rw [if_neg (not_not.mpr hin), if_neg (not_not.mpr hin)]
      cases ranges.find? (endIn lo (lo + size.toNat - 1)) <;> rfl
    · rw [if_pos hin, if_pos hin]
      rfl
  · rw [if_pos ha, if_pos ha]
    rfl

theorem addRange_none (hsize : ¬ 0 < size) : addRange h ranges lo size = none := by
  have hguard : guard (size > 0) = (none : Option Unit) := if_neg hsize
  unfold addRange
  rw [hguard]
  rfl

/-- The payloads that are recorded. -/
theorem addRange_ok (hsize : 0 < size) : addRange h ranges lo size = some (.ok ranges') ↔
    lo % 8 = 0 ∧ (memHeapLo h ≤ lo ∧ lo + size.toNat - 1 ≤ memHeapHi h) ∧
      (∀ p ∈ ranges, endIn lo (lo + size.toNat - 1) p = false) ∧
      ranges' = ⟨lo, lo + size.toNat - 1⟩ :: ranges := by
  rw [addRange_eq h ranges lo hsize, Option.some.injEq]
  by_cases ha : lo % 8 = 0
  · rw [if_neg (not_not.mpr ha)]
    by_cases hin : memHeapLo h ≤ lo ∧ lo + size.toNat - 1 ≤ memHeapHi h
    · rw [if_neg (not_not.mpr hin)]
      cases hfind : ranges.find? (endIn lo (lo + size.toNat - 1)) with
      | some p =>
        constructor
        · intro h
          cases h
        · rintro ⟨-, -, hall, -⟩
          have hend := List.find?_some hfind
          rw [hall p (List.mem_of_find?_eq_some hfind)] at hend
          cases hend
      | none =>
        constructor
        · intro h
          cases h
          refine ⟨ha, hin, ?_, rfl⟩
          intro p hp
          exact Bool.eq_false_iff.mpr (List.find?_eq_none.mp hfind p hp)
        · rintro ⟨-, -, -, rfl⟩
          rfl
    · rw [if_pos hin]
      constructor
      · intro h
        cases h
      · intro h
        exact absurd h.2.1 hin
  · rw [if_pos ha]
    constructor
    · intro h
      cases h
    · intro h
      exact absurd h.1 ha

theorem removeRange_self (p : Range) (ranges : List Range) :
    removeRange (p :: ranges) p.lo = ranges := by
  simp [removeRange]

theorem removeRange_ne (hne : p.lo ≠ lo) :
    removeRange (p :: ranges) lo = p :: removeRange ranges lo := by
  simp [removeRange, hne]

theorem clearRanges_eq (ranges : List Range) : clearRanges ranges = [] := by
  induction ranges with
  | nil => rfl
  | cons p ranges ih => exact ih

/-! ## Runs -/

/-- What a call does to the list. -/
theorem RangeCall.run_cases (hrun : c.run ranges = some ranges') :
    (∃ h lo size, c = .add h lo size ∧ 0 < size ∧ addRange h ranges lo size = some (.ok ranges')) ∨
      ranges' = ranges ∨ ∃ lo, c = .remove lo ∧ ranges' = removeRange ranges lo := by
  cases c with
  | remove lo =>
    cases hrun
    exact Or.inr (Or.inr ⟨lo, rfl, rfl⟩)
  | add h lo size =>
    obtain ⟨r, hr, hrun⟩ := Option.bind_eq_some_iff.mp hrun
    cases r with
    | error e =>
      cases hrun
      exact Or.inr (Or.inl rfl)
    | ok ranges1 =>
      cases hrun
      have hsize : 0 < size := by
        by_contra hneg
        rw [addRange_none hneg] at hr
        cases hr
      exact Or.inl ⟨h, lo, size, rfl, hsize, hr⟩

/-- Every recorded range has a byte. -/
theorem rangeList_nonempty : rangeList.Invariant fun ranges => ∀ p ∈ ranges, p.lo ≤ p.hi := by
  constructor
  · rintro ranges rfl p hp
    cases hp
  · intro ranges c ranges' hinv hstep p hp
    rcases RangeCall.run_cases hstep with ⟨h, lo, size, -, hsize, hadd⟩ | rfl | ⟨lo, -, rfl⟩
    · obtain ⟨-, -, -, rfl⟩ := (addRange_ok hsize).mp hadd
      rcases List.mem_cons.mp hp with rfl | hp
      · exact last_le hsize lo
      · exact hinv p hp
    · exact hinv p hp
    · exact hinv p (List.mem_of_mem_eraseP hp)

/-- A call that is no exception accepts what is allowed. -/
theorem accepts_iff (hne : ∀ p ∈ ranges, p.lo ≤ p.hi) (hsize : 0 < size) :
    (Accepts h ranges lo size ↔ Allowed h ranges lo size) ↔ ¬ Encloses h ranges lo size := by
  have hle := last_le hsize lo
  have haccepts : Accepts h ranges lo size ↔
      lo % 8 = 0 ∧ (memHeapLo h ≤ lo ∧ lo + size.toNat - 1 ≤ memHeapHi h) ∧
        ∀ p ∈ ranges, endIn lo (lo + size.toNat - 1) p = false := by
    unfold Accepts
    simp only [addRange_ok hsize]
    constructor
    · rintro ⟨_, ha, hin, hall, -⟩
      exact ⟨ha, hin, hall⟩
    · rintro ⟨ha, hin, hall⟩
      exact ⟨_, ha, hin, hall, rfl⟩
  rw [haccepts]
  constructor
  · rintro hiff ⟨ha, hin, hends, p, hp, haround⟩
    have hapart := (hiff.mp ⟨ha, hin, hends⟩).apart p hp
    exact ((apart_iff hle (hne p hp)).mp hapart).2 haround
  · intro hnot
    constructor
    · rintro ⟨ha, hin, hends⟩
      refine ⟨ha, hin, ?_⟩
      intro p hp
      refine (apart_iff hle (hne p hp)).mpr ⟨hends p hp, ?_⟩
      intro haround
      exact hnot ⟨ha, hin, hends, p, hp, haround⟩
    · intro hallowed
      refine ⟨hallowed.aligned, hallowed.inside, ?_⟩
      intro p hp
      exact ((apart_iff hle (hne p hp)).mp (hallowed.apart p hp)).1

/-- As long as no payload encloses a recorded range, the recorded ranges are apart. -/
theorem rangeList_separate : (rangeList.restrict NotEnclosing).Invariant fun ranges =>
    (∀ p ∈ ranges, p.lo ≤ p.hi) ∧ Separate ranges := by
  constructor
  · rintro ranges rfl
    exact ⟨fun p hp => absurd hp List.not_mem_nil, List.Pairwise.nil⟩
  · rintro ranges c ranges' ⟨hne, hsep⟩ ⟨hok, hstep⟩
    refine ⟨rangeList_nonempty.step ranges c ranges' hne hstep, ?_⟩
    rcases RangeCall.run_cases hstep with ⟨h, lo, size, rfl, hsize, hadd⟩ | rfl | ⟨lo, -, rfl⟩
    · have hallowed := ((accepts_iff hne hsize).mpr hok).mp ⟨ranges', hadd⟩
      obtain ⟨-, -, -, rfl⟩ := (addRange_ok hsize).mp hadd
      exact List.pairwise_cons.mpr ⟨hallowed.apart, hsep⟩
    · exact hsep
    · exact hsep.sublist List.eraseP_sublist

/-- A payload that encloses a recorded range is recorded beside it. -/
theorem not_separate (hne : ∀ p ∈ ranges, p.lo ≤ p.hi) (hc : ¬ NotEnclosing ranges c)
    (hrun : c.run ranges = some ranges') : ¬ Separate ranges' := by
  cases c with
  | remove lo => exact absurd trivial hc
  | add h lo size =>
    obtain ⟨ha, hin, hends, p, hp, haround⟩ := not_not.mp hc
    have hsize : 0 < size := by
      by_contra hneg
      rw [RangeCall.run, addRange_none hneg] at hrun
      cases hrun
    have hadd : addRange h ranges lo size = some (.ok (⟨lo, lo + size.toNat - 1⟩ :: ranges)) :=
      (addRange_ok hsize).mpr ⟨ha, hin, hends, rfl⟩
    have hlist : ranges' = ⟨lo, lo + size.toNat - 1⟩ :: ranges := by
      simpa [RangeCall.run, hadd] using hrun.symm
    subst hlist
    intro hsep
    have hapart := (List.pairwise_cons.mp hsep).1 p hp
    exact ((apart_iff (last_le hsize lo) (hne p hp)).mp hapart).2 haround

/-- **`add_range` is right but for payloads that enclose a recorded range**: for each call on
a list that calls of the driver lead to, and for the runs without such a payload. -/
theorem addRange_exact (ranges : List Range) (hreach : rangeList.Reachable ranges) :
    (∀ h lo size, 0 < size →
      ((Accepts h ranges lo size ↔ Allowed h ranges lo size) ↔ ¬ Encloses h ranges lo size)) ∧
    ((rangeList.restrict NotEnclosing).Reachable ranges → Separate ranges) ∧
    ∀ c ranges', c.run ranges = some ranges' → ¬ NotEnclosing ranges c → ¬ Separate ranges' := by
  have hne := hreach.rule rangeList_nonempty
  refine ⟨?_, ?_, ?_⟩
  · intro h lo size hsize
    exact accepts_iff hne hsize
  · intro hrun
    exact (hrun.rule rangeList_separate).2
  · intro c ranges' hrun hc
    exact not_separate hne hc hrun

/-- A heap of 64 bytes. -/
def smallHeap : Heap where
  mem _ := 0
  memStartBrk := 4096
  memBrk := 4160
  memMaxAddr := 8192
  flistFirst := 0
  prologue := 0
  epilogue := 0

theorem small_reachable : (rangeList.restrict NotEnclosing).Reachable [⟨4112, 4119⟩] := by
  have hstep : (RangeCall.add smallHeap 4112 8).run [] = some [⟨4112, 4119⟩] := by decide
  refine System.Reachable.step (e := .add smallHeap 4112 8) (.init rfl) ⟨?_, hstep⟩
  rintro ⟨-, -, -, p, hp, -⟩
  cases hp

theorem small_exact :
    ((Accepts smallHeap [⟨4112, 4119⟩] 4128 8 ↔ Allowed smallHeap [⟨4112, 4119⟩] 4128 8) ↔
      ¬ Encloses smallHeap [⟨4112, 4119⟩] 4128 8) ∧ Separate [⟨4112, 4119⟩] :=
  have h := addRange_exact [⟨4112, 4119⟩] small_reachable.of_restrict
  ⟨h.1 smallHeap 4128 8 (by decide), h.2.1 small_reachable⟩

/-- A payload of 24 bytes is recorded around one of 8 bytes. -/
theorem enclosing_accepted : rangeList.Reachable [⟨4104, 4127⟩, ⟨4112, 4119⟩] ∧
    Accepts smallHeap [⟨4112, 4119⟩] 4104 24 ∧ ¬ Allowed smallHeap [⟨4112, 4119⟩] 4104 24 ∧
    ¬ Separate [⟨4104, 4127⟩, ⟨4112, 4119⟩] := by
  have hshared : ¬ Range.Apart ⟨4104, 4127⟩ ⟨4112, 4119⟩ :=
    not_not.mpr ⟨4112, ⟨by decide, by decide⟩, by decide, by decide⟩
  have hstep : (RangeCall.add smallHeap 4104 24).run [⟨4112, 4119⟩] =
      some [⟨4104, 4127⟩, ⟨4112, 4119⟩] := by decide
  refine ⟨.step (e := .add smallHeap 4104 24) small_reachable.of_restrict hstep, ⟨_, rfl⟩, ?_, ?_⟩
  · intro hallowed
    exact hshared (hallowed.apart _ List.mem_cons_self)
  · intro hsep
    exact hshared ((List.pairwise_cons.mp hsep).1 _ List.mem_cons_self)

end CourseProjects.Malloc

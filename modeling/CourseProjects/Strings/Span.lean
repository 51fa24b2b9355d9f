import Mathlib.Data.Nat.Notation
import CourseProjects.Lib.CText
import CourseProjects.Lib.Text

/-!
# `strspn` and `strcspn`

The two loops of `strings.c`. The indices are `int`s: an index that would reach
`2 ^ 31` is undefined, as is a read where the memory has no byte.
-/

namespace CourseProjects.Strings

open CText

/-- The number of values an index can take, `2 ^ 31`. -/
def intRange : Nat := 2147483648

/-- The inner loop: the index of `s[i]` in the set, or of the terminator of the set. -/
def setLoop (m : Memory) (s i set : Nat) : Nat → Nat → Option Nat
  | 0, _ => none
  | fuel + 1, j => do
    let b ← m (set + j)
    if b = 0 then return j
    let c ← m (s + i)
    if c = b then return j
    setLoop m s i set fuel (j + 1)

/-- The outer loop of both: `strspn` breaks when the inner loop has reached the end
of the set (`stop = true`), `strcspn` when it has not. -/
def spanLoop (stop : Bool) (m : Memory) (s set : Nat) : Nat → Nat → Option Nat
  | 0, _ => none
  | fuel + 1, i => do
    let c ← m (s + i)
    if c = 0 then return i
    let j ← setLoop m s i set intRange 0
    let e ← m (set + j)
    if decide (e = 0) = stop then return i
    spanLoop stop m s set fuel (i + 1)

def strspn (m : Memory) (s accept : Nat) : Option Nat :=
  spanLoop true m s accept intRange 0

def strcspn (m : Memory) (s reject : Nat) : Option Nat :=
  spanLoop false m s reject intRange 0

variable {m : Memory} {a d i j fuel : Nat} {c : UInt8} {s set : List UInt8}

/-! ## The inner loop -/

theorem setLoop_spec (hset : StringAt m (d + j) set) (hc : m (a + i) = some c)
    (hfuel : set.length < fuel) : setLoop m a i d fuel j = some (j + set.idxOf c) := by
  induction set generalizing fuel j with
  | nil =>
    obtain ⟨fuel, rfl⟩ := Nat.exists_eq_add_one_of_ne_zero (Nat.ne_zero_of_lt hfuel)
    have hend : m (d + j) = some 0 := hset
    simp [setLoop, hend]
  | cons b set ih =>
    obtain ⟨fuel, rfl⟩ := Nat.exists_eq_add_one_of_ne_zero (Nat.ne_zero_of_lt hfuel)
    have hbyte : m (d + j) = some b := hset.2.1
    by_cases hcb : c = b
    · subst hcb
      simp [setLoop, hbyte, hset.1, hc]
    · have hne : b ≠ c := fun h => hcb h.symm
      have hrest : setLoop m a i d fuel (j + 1) = some (j + 1 + set.idxOf c) :=
        ih hset.2.2 (Nat.lt_of_succ_lt_succ hfuel)
      rw [setLoop]
      simp only [hbyte, hset.1, hc, hcb, if_false, Option.bind_eq_bind, Option.bind_some, hrest]
      rw [List.idxOf_cons_ne set hne, Nat.succ_eq_add_one]
      congr 1
      omega

/-- The byte where the inner loop stops tells whether `c` is in the set. -/
theorem StringAt.idxOf_byte (hset : StringAt m d set) (c : UInt8) :
    ∃ e, m (d + set.idxOf c) = some e ∧ (e = 0 ↔ c ∉ set) := by
  induction set generalizing d with
  | nil => exact ⟨0, hset, by simp⟩
  | cons b set ih =>
    by_cases hbc : b = c
    · subst hbc
      exact ⟨b, by simpa using hset.2.1, by simp [hset.1]⟩
    · obtain ⟨e, he, hiff⟩ := ih hset.2.2
      refine ⟨e, ?_, ?_⟩
      · rw [List.idxOf_cons_ne set hbc, Nat.succ_eq_add_one, Nat.add_comm _ 1, ← Nat.add_assoc]
        exact he
      · rw [hiff, List.mem_cons, not_or]
        exact ⟨fun h => ⟨fun h' => hbc h'.symm, h⟩, fun h => h.2⟩

/-! ## The outer loop -/

theorem spanLoop_spec {stop : Bool} (hs : StringAt m (a + i) s) (hset : StringAt m d set)
    (hfuel : s.length < fuel) (hlen : set.length < intRange) :
    spanLoop stop m a d fuel i =
      some (i + (s.takeWhile fun c => decide (c ∈ set) = stop).length) := by
  induction s generalizing fuel i with
  | nil =>
    obtain ⟨fuel, rfl⟩ := Nat.exists_eq_add_one_of_ne_zero (Nat.ne_zero_of_lt hfuel)
    have hend : m (a + i) = some 0 := hs
    simp [spanLoop, hend]
  | cons c s ih =>
    obtain ⟨fuel, rfl⟩ := Nat.exists_eq_add_one_of_ne_zero (Nat.ne_zero_of_lt hfuel)
    have hbyte : m (a + i) = some c := hs.2.1
    have hinner : setLoop m a i d intRange 0 = some (0 + set.idxOf c) :=
      setLoop_spec hset hbyte hlen
    obtain ⟨e, he, hiff⟩ := StringAt.idxOf_byte hset c
    rw [Nat.zero_add] at hinner
    rw [spanLoop]
    simp only [hbyte, hs.1, hinner, he, hiff, if_false, Option.bind_eq_bind, Option.bind_some]
    by_cases hstop : decide (c ∉ set) = stop
    · have hkeep : ¬ decide (c ∈ set) = stop := by
        intro h
        by_cases hc : c ∈ set <;> simp_all
      rw [if_pos hstop, List.takeWhile_cons_of_neg (by simpa using hkeep)]
      rfl
    · have hkeep : decide (c ∈ set) = stop := by
        by_cases hc : c ∈ set <;> simp_all
      rw [if_neg hstop, List.takeWhile_cons_of_pos (by simpa using hkeep)]
      have hrest := ih (i := i + 1) hs.2.2 (Nat.lt_of_succ_lt_succ hfuel)
      rw [hrest, List.length_cons]
      congr 1
      omega

/-- `strspn` gives the length of the longest prefix of bytes in the set. -/
theorem strspn_spec (hs : StringAt m a s) (hset : StringAt m d set)
    (hlen : s.length < intRange) (hlen' : set.length < intRange) :
    strspn m a d = some (s.takeWhile fun c => decide (c ∈ set)).length := by
  have h : spanLoop true m a d intRange 0 = _ := spanLoop_spec hs hset hlen hlen'
  simpa [strspn] using h

/-- `strcspn` gives the length of the longest prefix of bytes that are not in the set. -/
theorem strcspn_spec (hs : StringAt m a s) (hset : StringAt m d set)
    (hlen : s.length < intRange) (hlen' : set.length < intRange) :
    strcspn m a d = some (s.takeWhile fun c => !decide (c ∈ set)).length := by
  have h : spanLoop false m a d intRange 0 = _ := spanLoop_spec hs hset hlen hlen'
  simpa [strcspn] using h

/-- **`strspn` and `strcspn` give the length of the longest prefix** whose bytes are all in
the set, and of the longest prefix without a byte of the set. Both read the two strings
and nothing else. -/
theorem span_longest (hs : StringAt m a s) (hset : StringAt m d set)
    (hlen : s.length < intRange) (hlen' : set.length < intRange) :
    (∃ k, strspn m a d = some k ∧ strspn (m.strings a s d set) a d = some k ∧
      IsGreatest {k | k ≤ s.length ∧ ∀ c ∈ s.take k, c ∈ set} k) ∧
    ∃ k, strcspn m a d = some k ∧ strcspn (m.strings a s d set) a d = some k ∧
      IsGreatest {k | k ≤ s.length ∧ ∀ c ∈ s.take k, c ∉ set} k := by
  have hs' := hs.strings_left d set
  have hset' := hset.strings_right a s
  constructor
  · refine ⟨_, strspn_spec hs hset hlen hlen', strspn_spec hs' hset' hlen hlen', ?_⟩
    have hmax := Text.isGreatest_takeWhile (fun c => decide (c ∈ set)) s
    simpa only [decide_eq_true_eq] using hmax
  · refine ⟨_, strcspn_spec hs hset hlen hlen', strcspn_spec hs' hset' hlen hlen', ?_⟩
    have hmax := Text.isGreatest_takeWhile (fun c => !decide (c ∈ set)) s
    simpa only [Bool.not_eq_true', decide_eq_false_iff_not] using hmax

/-- The strings `aab` and `a`. -/
def prefixMemory : Memory :=
  fun x => ([0, 97, 97, 98, 0, 97, 0] : List UInt8)[x]?

theorem prefix_span :
    (∃ k, strspn prefixMemory 1 5 = some k ∧
      strspn (prefixMemory.strings 1 [97, 97, 98] 5 [97]) 1 5 = some k ∧
      IsGreatest {k | k ≤ 3 ∧ ∀ c ∈ ([97, 97, 98] : List UInt8).take k, c ∈ [97]} k) ∧
    ∃ k, strcspn prefixMemory 1 5 = some k ∧
      strcspn (prefixMemory.strings 1 [97, 97, 98] 5 [97]) 1 5 = some k ∧
      IsGreatest {k | k ≤ 3 ∧ ∀ c ∈ ([97, 97, 98] : List UInt8).take k, c ∉ [97]} k :=
  span_longest (by simp [StringAt, prefixMemory]) (by simp [StringAt, prefixMemory])
    (by decide) (by decide)

end CourseProjects.Strings

import CourseProjects.Strings.Compare
import CourseProjects.Strings.Span

/-!
# `strstr`

`strncmp` with the length of the needle, at one position of the haystack after the
other. Behind the end of the haystack the needle still has a byte, so the comparison
of a rest that is too short stops at the terminator.
-/

namespace CourseProjects.Strings

open CText

def strlenLoop (m : Memory) (s : Nat) : Nat → Nat → Option Nat
  | 0, _ => none
  | fuel + 1, length => do
    let c ← m (s + length)
    if c = 0 then return length
    strlenLoop m s fuel (length + 1)

def strlen (m : Memory) (s : Nat) : Option Nat :=
  strlenLoop m s intRange 0

def strstrLoop (m : Memory) (haystack needle length : Nat) : Nat → Nat → Option Nat
  | 0, _ => none
  | fuel + 1, i => do
    let c ← m (haystack + i)
    if c = 0 then return 0
    let val ← strncmp m (haystack + i) needle length
    if val = 0 then return haystack + i
    strstrLoop m haystack needle length fuel (i + 1)

/-- The pointer to the needle in the haystack; 0 is `NULL`. -/
def strstr (m : Memory) (haystack needle : Nat) : Option Nat := do
  let length ← strlen m needle
  if length = 0 then return 0
  strstrLoop m haystack needle length intRange 0

variable {m : Memory} {a b i k fuel : Nat} {c : UInt8} {s t hay needle : List UInt8}

/-! ## The length -/

theorem strlenLoop_spec (hs : StringAt m (a + i) s) (hfuel : s.length < fuel) :
    strlenLoop m a fuel i = some (i + s.length) := by
  induction s generalizing fuel i with
  | nil =>
    obtain ⟨fuel, rfl⟩ := Nat.exists_eq_add_one_of_ne_zero (Nat.ne_zero_of_lt hfuel)
    have hend : m (a + i) = some 0 := hs
    simp [strlenLoop, hend]
  | cons c s ih =>
    obtain ⟨fuel, rfl⟩ := Nat.exists_eq_add_one_of_ne_zero (Nat.ne_zero_of_lt hfuel)
    have hrest := ih (i := i + 1) hs.2.2 (Nat.lt_of_succ_lt_succ hfuel)
    rw [strlenLoop]
    simp only [hs.2.1, hs.1, if_false, Option.bind_eq_bind, Option.bind_some, hrest]
    rw [List.length_cons]
    congr 1
    omega

theorem strlen_spec (hs : StringAt m a s) (hlen : s.length < intRange) :
    strlen m a = some s.length := by
  have h : strlenLoop m a intRange 0 = _ := strlenLoop_spec hs hlen
  rwa [Nat.zero_add] at h

/-! ## One position -/

theorem firstDiff_length : firstDiff s t t.length = none ↔ t <+: s := by
  induction t generalizing s with
  | nil => simp [firstDiff]
  | cons b t ih =>
    cases s with
    | nil => simp [firstDiff]
    | cons c s =>
      rw [List.length_cons, firstDiff, List.cons_prefix_cons]
      by_cases hcb : c = b
      · rw [if_pos hcb, ih]
        simp [hcb]
      · rw [if_neg hcb]
        simp [Ne.symm hcb]

/-- A comparison of as many bytes as the needle has is 0 on a full match alone. -/
theorem diffBy_length (hs : ∀ c ∈ s, c ≠ 0) (ht : ∀ c ∈ t, c ≠ 0) :
    diffBy signed s t t.length = 0 ↔ t <+: s := by
  rw [← firstDiff_length]
  unfold diffBy
  cases h : firstDiff s t t.length with
  | none => simp
  | some r =>
    obtain ⟨x, y⟩ := r
    have hne : x ≠ y := firstDiff_ne h hs ht
    have hval : signed x - signed y ≠ 0 := fun h => hne (signed_inj (by omega))
    simp [hval]

/-! ## The search -/

/-- The least place of `t` in `s`. -/
def FirstAt (t s : List UInt8) (k : Nat) : Prop :=
  IsLeast {k | t <+: s.drop k} k

theorem firstAt_zero (h : t <+: s) : FirstAt t s 0 :=
  ⟨h, fun k _ => Nat.zero_le k⟩

theorem FirstAt.cons (h : FirstAt t s k) (hne : ¬ t <+: c :: s) : FirstAt t (c :: s) (k + 1) := by
  refine ⟨h.1, ?_⟩
  intro j hj
  cases j with
  | zero => exact absurd hj hne
  | succ j => exact Nat.succ_le_succ (h.2 hj)

/-- From the position `i`, what is left of the haystack being `s`. -/
theorem strstrLoop_spec (hs : StringAt m (a + i) s) (hn : StringAt m b t) (hne : t ≠ [])
    (hfuel : s.length < fuel) :
    (∃ k, FirstAt t s k ∧ strstrLoop m a b t.length fuel i = some (a + i + k)) ∨
      (∀ k, ¬ t <+: s.drop k) ∧ strstrLoop m a b t.length fuel i = some 0 := by
  induction s generalizing fuel i with
  | nil =>
    obtain ⟨fuel, rfl⟩ := Nat.exists_eq_add_one_of_ne_zero (Nat.ne_zero_of_lt hfuel)
    have hend : m (a + i) = some 0 := hs
    right
    refine ⟨?_, by simp [strstrLoop, hend]⟩
    intro k hk
    rw [List.drop_nil] at hk
    exact hne (List.prefix_nil.mp hk)
  | cons c s ih =>
    obtain ⟨fuel, rfl⟩ := Nat.exists_eq_add_one_of_ne_zero (Nat.ne_zero_of_lt hfuel)
    have hcmp := strncmp_eq hs hn t.length
    have hval := diffBy_length hs.ne_zero hn.ne_zero
    rw [strstrLoop]
    simp only [hs.2.1, hs.1, hcmp, hval, if_false, Option.bind_eq_bind, Option.bind_some]
    by_cases hpre : t <+: c :: s
    · left
      exact ⟨0, firstAt_zero hpre, by rw [if_pos hpre]; rfl⟩
    · rw [if_neg hpre]
      rcases ih (i := i + 1) hs.2.2 (Nat.lt_of_succ_lt_succ hfuel) with ⟨k, hk, hrun⟩ | ⟨hno, hrun⟩
      · left
        refine ⟨k + 1, hk.cons hpre, ?_⟩
        rw [hrun]
        congr 1
        omega
      · right
        refine ⟨?_, hrun⟩
        intro k hk
        cases k with
        | zero => exact hpre hk
        | succ k => exact hno k hk

theorem strstr_spec (hs : StringAt m a hay) (hn : StringAt m b needle) (hne : needle ≠ [])
    (hlen : hay.length < intRange) (hlen' : needle.length < intRange) :
    (∃ k, FirstAt needle hay k ∧ strstr m a b = some (a + k)) ∨
      (∀ k, ¬ needle <+: hay.drop k) ∧ strstr m a b = some 0 := by
  have hpos : needle.length ≠ 0 := fun h => hne (List.length_eq_zero_iff.mp h)
  have hloop := strstrLoop_spec (i := 0) hs hn hne hlen
  simp only [strstr, strlen_spec hn hlen', hpos, if_false, Option.bind_eq_bind, Option.bind_some]
  exact hloop

/-- **`strstr` returns the first place of the needle**, and `NULL` when there is none. It
reads the two strings and nothing else. -/
theorem strstr_least (ha : a ≠ 0) (hs : StringAt m a hay) (hn : StringAt m b needle)
    (hne : needle ≠ []) (hlen : hay.length < intRange) (hlen' : needle.length < intRange) :
    ∃ p, strstr m a b = some p ∧ strstr (m.strings a hay b needle) a b = some p ∧
      (p = 0 ↔ ∀ i, ¬ needle <+: hay.drop i) ∧
      ∀ i, IsLeast {i | needle <+: hay.drop i} i → p = a + i := by
  have hrun := strstr_spec hs hn hne hlen hlen'
  have hrun' := strstr_spec (hs.strings_left b needle) (hn.strings_right a hay) hne hlen hlen'
  rcases hrun with ⟨k, hk, hp⟩ | ⟨hno, hp⟩
  · have hsame : strstr (m.strings a hay b needle) a b = some (a + k) := by
      rcases hrun' with ⟨j, hj, hp'⟩ | ⟨hno, -⟩
      · rw [hp', IsLeast.unique hj hk]
      · exact absurd hk.1 (hno k)
    refine ⟨a + k, hp, hsame, ?_, ?_⟩
    · constructor
      · intro h
        omega
      · intro hno
        exact absurd hk.1 (hno k)
    · intro i hi
      rw [IsLeast.unique hk hi]
  · have hsame : strstr (m.strings a hay b needle) a b = some 0 := by
      rcases hrun' with ⟨j, hj, -⟩ | ⟨-, hp'⟩
      · exact absurd hj.1 (hno j)
      · exact hp'
    refine ⟨0, hp, hsame, by simp [hno], ?_⟩
    intro i hi
    exact absurd hi.1 (hno i)

/-- The strings `aab` and `ab`. -/
def needleMemory : Memory :=
  fun x => ([0, 97, 97, 98, 0, 97, 98, 0] : List UInt8)[x]?

theorem needle_least : ∃ p, strstr needleMemory 1 5 = some p ∧
    strstr (needleMemory.strings 1 [97, 97, 98] 5 [97, 98]) 1 5 = some p ∧
    (p = 0 ↔ ∀ i, ¬ [97, 98] <+: ([97, 97, 98] : List UInt8).drop i) ∧
    ∀ i, IsLeast {i | [97, 98] <+: ([97, 97, 98] : List UInt8).drop i} i → p = 1 + i :=
  strstr_least (by decide) (by simp [StringAt, needleMemory]) (by simp [StringAt, needleMemory])
    (by decide) (by decide) (by decide)

end CourseProjects.Strings

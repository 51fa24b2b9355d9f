import CourseProjects.Lib.CText

/-!
# `strncmp`

The difference of the first two bytes that differ, with plain `char`s. The library
compares the same two bytes as `unsigned char`s.
-/

namespace CourseProjects.Strings

open CText

/-- A byte as a `char` of the x86 compilers. -/
def signed (b : UInt8) : Int :=
  if b.toNat < 128 then b.toNat else (b.toNat : Int) - 256

/-- The loop reads `*s1` before it looks at `n`. -/
def strncmp (m : Memory) (s1 s2 : Nat) : Nat → Option Int
  | 0 => do
    let _ ← m s1
    return 0
  | n + 1 => do
    let a ← m s1
    let b ← m s2
    let val := signed a - signed b
    if a = 0 then return val
    if val ≠ 0 then return val
    strncmp m (s1 + 1) (s2 + 1) n

/-- The first two bytes that differ among the first `n` of two strings, their
terminators included. -/
def firstDiff : List UInt8 → List UInt8 → Nat → Option (UInt8 × UInt8)
  | _, _, 0 => none
  | [], [], _ + 1 => none
  | [], b :: _, _ + 1 => some (0, b)
  | a :: _, [], _ + 1 => some (a, 0)
  | a :: s, b :: t, n + 1 => if a = b then firstDiff s t n else some (a, b)

/-- The difference with `conv` for the value of a byte. -/
def diffBy (conv : UInt8 → Int) (s t : List UInt8) (n : Nat) : Int :=
  match firstDiff s t n with
  | none => 0
  | some (a, b) => conv a - conv b

/-- What the C library gives, up to its sign. -/
def libStrncmp (s t : List UInt8) (n : Nat) : Int :=
  diffBy (fun b => b.toNat) s t n

variable {m : Memory} {a b n : Nat} {s t : List UInt8} {x y : UInt8}

theorem signed_inj (h : signed x = signed y) : x = y := by
  have hx := x.toNat_lt
  have hy := y.toNat_lt
  apply UInt8.toNat_inj.mp
  unfold signed at h
  split_ifs at h <;> omega

theorem firstDiff_ne (h : firstDiff s t n = some (x, y)) (hs : ∀ c ∈ s, c ≠ 0)
    (ht : ∀ c ∈ t, c ≠ 0) : x ≠ y := by
  induction s, t, n using firstDiff.induct with
  | case1 s t => simp [firstDiff] at h
  | case2 n => cases h
  | case3 b =>
    cases h
    exact (ht _ List.mem_cons_self).symm
  | case4 a =>
    cases h
    exact hs _ List.mem_cons_self
  | case5 s a t n ih =>
    rw [firstDiff, if_pos rfl] at h
    exact ih h (fun c hc => hs c (List.mem_cons_of_mem a hc))
      fun c hc => ht c (List.mem_cons_of_mem a hc)
  | case6 a s b t n hab =>
    rw [firstDiff, if_neg hab] at h
    cases h
    exact hab

theorem strncmp_eq (hs : StringAt m a s) (ht : StringAt m b t) (n : Nat) :
    strncmp m a b n = some (diffBy signed s t n) := by
  induction s, t, n using firstDiff.induct generalizing a b with
  | case1 s t =>
    have hbyte : m (a + ([] : List UInt8).length) = some (s.headD 0) := StringAt.byte hs
    have hread : m a = some (s.headD 0) := hbyte
    simp [strncmp, diffBy, firstDiff, hread]
  | case2 n =>
    have ha : m a = some 0 := hs
    have hb : m b = some 0 := ht
    simp [strncmp, diffBy, firstDiff, ha, hb]
  | case3 y t n =>
    have ha : m a = some 0 := hs
    simp [strncmp, diffBy, firstDiff, ha, ht.2.1]
  | case4 x s n =>
    have hb : m b = some 0 := ht
    have hne : signed x - signed 0 ≠ 0 := fun h => hs.1 (signed_inj (by omega))
    simp [strncmp, diffBy, firstDiff, hb, hs.1, hs.2.1, hne]
  | case5 s x t n ih =>
    have hrest := ih hs.2.2 ht.2.2
    simp [strncmp, diffBy, firstDiff, hs.1, hs.2.1, ht.2.1, hrest]
  | case6 x s y t n hxy =>
    have hne : signed x - signed y ≠ 0 := fun h => hxy (signed_inj (by omega))
    simp [strncmp, diffBy, firstDiff, hs.1, hs.2.1, ht.2.1, hne, hxy]

/-- The two ways to compare two bytes agree when both are ASCII or none is. -/
theorem sign_signed_iff (hne : x ≠ y) :
    (signed x - signed y).sign = ((x.toNat : Int) - y.toNat).sign ↔
      (x.toNat < 128 ↔ y.toNat < 128) := by
  have hx := x.toNat_lt
  have hy := y.toNat_lt
  have hne' : x.toNat ≠ y.toNat := fun h => hne (UInt8.toNat_inj.mp h)
  unfold signed
  by_cases hx' : x.toNat < 128
  · by_cases hy' : y.toNat < 128
    · simp [hx', hy']
    · rw [if_pos hx', if_neg hy', Int.sign_eq_one_of_pos (by omega),
        Int.sign_eq_neg_one_of_neg (by omega)]
      simp [hx', hy']
  · by_cases hy' : y.toNat < 128
    · rw [if_neg hx', if_pos hy', Int.sign_eq_one_of_pos (by omega : 0 < (x.toNat : Int) - y.toNat),
        Int.sign_eq_neg_one_of_neg (by omega)]
      simp [hx', hy']
    · have hsub : ((x.toNat : Int) - 256) - (y.toNat - 256) = x.toNat - y.toNat := by omega
      rw [if_neg hx', if_neg hy', hsub]
      simp [hx', hy']

/-- **`strncmp` has the sign of the library's** if and only if the first two bytes that
differ are both below 128 or both not. -/
theorem strncmp_sign_iff (hs : StringAt m a s) (ht : StringAt m b t) (n : Nat) :
    ∃ v, strncmp m a b n = some v ∧ (v.sign = (libStrncmp s t n).sign ↔
      ∀ x y, firstDiff s t n = some (x, y) → (x.toNat < 128 ↔ y.toNat < 128)) := by
  refine ⟨_, strncmp_eq hs ht n, ?_⟩
  unfold libStrncmp diffBy
  cases h : firstDiff s t n with
  | none => simp
  | some r =>
    obtain ⟨x, y⟩ := r
    have hne : x ≠ y := firstDiff_ne h hs.ne_zero ht.ne_zero
    have hbytes := sign_signed_iff hne
    constructor
    · intro hsign x' y' heq
      cases heq
      exact hbytes.mp hsign
    · intro hall
      exact hbytes.mpr (hall x y rfl)

/-- The strings `é` in Latin 1 and `z`. -/
def latinMemory : Memory :=
  fun x => ([0, 233, 0, 122, 0] : List UInt8)[x]?

theorem latin_sign_iff : ∃ v, strncmp latinMemory 1 3 1 = some v ∧
    (v.sign = (libStrncmp [233] [122] 1).sign ↔
      ∀ x y, firstDiff [233] [122] 1 = some (x, y) → (x.toNat < 128 ↔ y.toNat < 128)) :=
  strncmp_sign_iff (by simp [StringAt, latinMemory]) (by simp [StringAt, latinMemory]) 1

/-- `é` is behind `z` for the library, and before it here. -/
theorem latin_sign_differs : strncmp latinMemory 1 3 1 = some (-145) ∧
    libStrncmp [233] [122] 1 = 111 := by
  decide

end CourseProjects.Strings

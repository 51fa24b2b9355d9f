import Mathlib.Algebra.Group.Int.Defs
import Mathlib.Algebra.Group.Nat.Defs
import CourseProjects.Lib.Text

/-!
# Formatted input

The conversions of `scanf` on what is left of a stream. Each skips white space, and one that
fails leaves the stream where it found the first character that does not match.
-/

namespace CourseProjects.Scan

open Text

/-- `%s`; at the end of the stream there is none. -/
def word (s : List Char) : Option (List Char × List Char) :=
  match s.dropWhile isspace with
  | [] => none
  | c :: s => some (c :: s.takeWhile fun b => !isspace b, s.dropWhile fun b => !isspace b)

/-- A sign is taken from the stream even if no digit follows. -/
def sign : List Char → Bool × List Char
  | '-' :: s => (true, s)
  | '+' :: s => (false, s)
  | s => (false, s)

def integer (s : List Char) : Option Int × List Char :=
  let (negative, s) := sign (s.dropWhile isspace)
  let digits := s.takeWhile Char.isDigit
  if digits = [] then (none, s)
  else
    let n := Nat.ofDigitChars 10 digits 0
    (some (if negative then -n else n), s.dropWhile Char.isDigit)

/-- `%d`, without a value after a failure; a number that is no `int` is undefined. -/
def int (s : List Char) : Option (Option Int × List Char) :=
  match integer s with
  | (none, rest) => some (none, rest)
  | (some n, rest) => if -2 ^ 31 ≤ n ∧ n < 2 ^ 31 then some (some n, rest) else none

/-- `%u`; a negative number is taken as `strtoul` does. -/
def unsigned (s : List Char) : Option (Option Nat × List Char) :=
  match integer s with
  | (none, rest) => some (none, rest)
  | (some n, rest) =>
    if -2 ^ 32 < n ∧ n < 2 ^ 32 then some (some (n % 2 ^ 32).toNat, rest) else none

/-- How a number is written. -/
def numeral (n : Int) : List Char :=
  if n < 0 then '-' :: Nat.toDigits 10 n.natAbs else Nat.toDigits 10 n.natAbs

variable {s v w rest : List Char} {ws : List (List Char)} {n : Int}

/-- The first word stands behind white space, and has white space or nothing behind it. -/
theorem exists_of_words (h : words isspace s = w :: ws) :
    ∃ v, s.dropWhile isspace = w ++ v ∧ words isspace v = ws ∧ w ≠ [] ∧
      (∀ c ∈ w, isspace c = false) ∧ ∀ c ∈ v.head?, isspace c = true := by
  cases hnext : nextWord isspace s with
  | none =>
    rw [words_of_none hnext] at h
    cases h
  | some r =>
    obtain ⟨u, rest⟩ := r
    rw [words_of_some hnext] at h
    obtain ⟨rfl, rfl⟩ := List.cons.inj h
    obtain ⟨v, hs, rfl, hne, hword, hv⟩ := nextWord_eq_some hnext
    have hdrop : s.dropWhile isspace = u ++ v := by
      rw [List.append_assoc] at hs
      have hsplit := List.takeWhile_append_dropWhile (p := isspace) (l := s)
      exact List.append_cancel_left (hsplit.trans hs)
    refine ⟨v, hdrop, ?_, hne, fun c hc => ?_, hv⟩
    · cases v with
      | nil => rfl
      | cons c v => rw [words_cons_of_pos (hv c rfl), List.tail_cons]
    · rw [← hword] at hc
      simpa using List.mem_takeWhile_imp hc

theorem takeWhile_word {p : Char → Bool} (hw : ∀ c ∈ w, p c = true)
    (hv : ∀ c ∈ v.head?, p c = false) :
    (w ++ v).takeWhile p = w ∧ (w ++ v).dropWhile p = v := by
  rw [List.takeWhile_append_of_pos hw, List.dropWhile_append_of_pos hw]
  cases v with
  | nil => exact ⟨List.append_nil w, rfl⟩
  | cons c v =>
    have hc : ¬ p c = true := by simp [hv c rfl]
    rw [List.takeWhile_cons_of_neg hc, List.dropWhile_cons_of_neg hc]
    exact ⟨List.append_nil w, rfl⟩

theorem word_none (h : words isspace s = []) : word s = none := by
  have hdrop : words isspace (s.dropWhile isspace) = [] := words_dropWhile.trans h
  unfold word
  split
  · rfl
  · next c t hs =>
    rw [hs, words_cons_of_neg (not_of_dropWhile hs)] at hdrop
    cases hdrop

theorem word_some (h : words isspace s = w :: ws) :
    ∃ rest, word s = some (w, rest) ∧ words isspace rest = ws := by
  obtain ⟨v, hs, hws, hne, hw, hv⟩ := exists_of_words h
  obtain ⟨c, u, rfl⟩ := List.exists_cons_of_ne_nil hne
  obtain ⟨htake, hdrop⟩ := takeWhile_word (p := fun b => !isspace b) (w := u) (v := v)
    (fun d hd => by simpa using hw d (List.mem_cons_of_mem c hd)) (fun d hd => by simpa using hv d hd)
  refine ⟨v, ?_, hws⟩
  rw [word, hs, List.cons_append]
  simp only [htake, hdrop]

/-! ## Numbers -/

theorem isDigit_toDigits {k : Nat} {c : Char} (hc : c ∈ Nat.toDigits 10 k) : c.isDigit = true :=
  Nat.isDigit_of_mem_toDigits (by decide) (by decide) hc

theorem not_isDigit_of_isspace {c : Char} (h : isspace c = true) : c.isDigit = false := by
  by_contra hc
  have hlo : 48 ≤ c.toNat := (Char.isDigit_iff_toNat.mp (by simpa using hc)).1
  rcases of_decide_eq_true h with rfl | ⟨-, hhi⟩
  · exact absurd hlo (by decide)
  · omega

theorem sign_of_isDigit {c : Char} (h : c.isDigit = true) : sign (c :: s) = (false, c :: s) := by
  unfold sign
  split
  · next heq =>
    cases heq
    cases h
  · next heq =>
    cases heq
    cases h
  · rfl

theorem integer_numeral (h : words isspace s = numeral n :: ws) :
    ∃ rest, integer s = (some n, rest) ∧ words isspace rest = ws ∧
      ∀ c ∈ rest.head?, isspace c = true := by
  obtain ⟨v, hs, hws, -, -, hv⟩ := exists_of_words h
  obtain ⟨htake, hdrop⟩ := takeWhile_word (p := Char.isDigit) (w := Nat.toDigits 10 n.natAbs) (v := v)
    (fun c hc => isDigit_toDigits hc) (fun c hc => not_isDigit_of_isspace (hv c hc))
  have hne : Nat.toDigits 10 n.natAbs ≠ [] := Nat.toDigits_ne_nil
  have hvalue : Nat.ofDigitChars 10 (Nat.toDigits 10 n.natAbs) 0 = n.natAbs :=
    Nat.ofDigitChars_toDigits (by decide) (by decide)
  refine ⟨v, ?_, hws, hv⟩
  have hsign : sign (s.dropWhile isspace) = (decide (n < 0), Nat.toDigits 10 n.natAbs ++ v) := by
    rw [hs, numeral]
    split
    · next hneg =>
      rw [decide_eq_true hneg]
      rfl
    · next hneg =>
      obtain ⟨c, u, hcons⟩ := List.exists_cons_of_ne_nil hne
      have hc : c.isDigit = true := isDigit_toDigits (hcons ▸ List.mem_cons_self)
      rw [decide_eq_false hneg, hcons, List.cons_append, sign_of_isDigit hc]
  have hn : (if decide (n < 0) = true then -(n.natAbs : Int) else n.natAbs) = n := by
    split <;> rename_i hneg <;> simp only [decide_eq_true_eq] at hneg <;> omega
  unfold integer
  simp only [hsign, htake, hdrop, if_neg hne, hvalue, hn]

theorem int_numeral (hlo : -2 ^ 31 ≤ n) (hhi : n < 2 ^ 31) (h : words isspace s = numeral n :: ws) :
    ∃ rest, int s = some (some n, rest) ∧ words isspace rest = ws := by
  obtain ⟨rest, hint, hws, -⟩ := integer_numeral h
  refine ⟨rest, ?_, hws⟩
  rw [int, hint]
  exact if_pos ⟨hlo, hhi⟩

theorem unsigned_numeral {n : Nat} (hn : n < 2 ^ 32) (h : words isspace s = numeral n :: ws) :
    ∃ rest, unsigned s = some (some n, rest) ∧ words isspace rest = ws ∧
      ∀ c ∈ rest.head?, isspace c = true := by
  obtain ⟨rest, hint, hws, hhead⟩ := integer_numeral h
  refine ⟨rest, ?_, hws, hhead⟩
  rw [unsigned, hint]
  have hmod : ((n : Int) % 2 ^ 32).toNat = n := by omega
  simp only [hmod]
  exact if_pos ⟨by omega, by omega⟩

/-! ## What a conversion can give -/

theorem int_bounds (h : int s = some (some n, rest)) : -2 ^ 31 ≤ n ∧ n < 2 ^ 31 := by
  unfold int at h
  split at h
  · cases h
  · split at h
    · next hn =>
      cases h
      exact hn
    · cases h

theorem unsigned_lt {n : Nat} (h : unsigned s = some (some n, rest)) : n < 2 ^ 32 := by
  unfold unsigned at h
  split at h
  · cases h
  · split at h
    · cases h
      omega
    · cases h

end CourseProjects.Scan

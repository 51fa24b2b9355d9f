import Mathlib.Data.List.Basic
import Mathlib.Data.List.TakeWhile
import Mathlib.Order.Bounds.Basic

/-!
# Text

White space and the words between separators.
-/

namespace CourseProjects.Text

/-- The white space of the C locale. -/
def isspace (c : Char) : Bool :=
  c = ' ' ∨ 9 ≤ c.toNat ∧ c.toNat ≤ 13

variable {α : Type} {p q : α → Bool} {a : α} {s : List α}

/-- The longest runs without a separator. -/
def words (p : α → Bool) (s : List α) : List (List α) :=
  (s.splitOnP p).filter fun w => !w.isEmpty

@[simp] theorem words_nil : words p [] = [] :=
  rfl

@[simp] theorem words_cons_of_pos (h : p a = true) : words p (a :: s) = words p s := by
  simp [words, List.splitOnP_cons_eq_if_modifyHead, h]

theorem words_cons_of_neg (h : ¬ p a = true) :
    words p (a :: s) =
      (a :: s.takeWhile fun b => !p b) :: words p (s.dropWhile fun b => !p b) := by
  induction s generalizing a with
  | nil => simp [words, List.splitOnP_cons_eq_if_modifyHead, h]
  | cons b s ih =>
    by_cases hb : p b = true
    · simp [words, List.splitOnP_cons_eq_if_modifyHead, h, hb]
    · have hrest := ih hb
      obtain ⟨w, ws, hsplit⟩ := List.exists_cons_of_ne_nil (List.splitOnP_ne_nil p s)
      simp only [words, List.splitOnP_cons_eq_if_modifyHead, hb, hsplit, Bool.false_eq_true, ↓reduceIte,
        List.modifyHead_cons, List.isEmpty_cons, Bool.not_false, List.filter_cons_of_pos,
        List.cons.injEq, true_and] at hrest
      simp [words, List.splitOnP_cons_eq_if_modifyHead, h, hb, hsplit, hrest.1, hrest.2]

theorem ne_nil_of_mem_words {w : List α} (h : w ∈ words p s) : w ≠ [] := by
  have := (List.mem_filter.mp h).2
  simpa using this

/-- There are no more words than letters. -/
theorem words_length_le : (words p s).length ≤ s.length := by
  induction hn : s.length using Nat.strong_induction_on generalizing s with
  | _ n ih =>
    cases s with
    | nil => exact Nat.zero_le n
    | cons a s =>
      by_cases h : p a = true
      · rw [words_cons_of_pos h]
        rw [List.length_cons] at hn
        have hrest := ih s.length (by omega) rfl
        omega
      · rw [words_cons_of_neg h, List.length_cons]
        have hdrop : (s.dropWhile fun b => !p b).length ≤ s.length :=
          (List.dropWhile_suffix fun b => !p b).length_le
        rw [List.length_cons] at hn
        have hrest := ih (s.dropWhile fun b => !p b).length (by omega) rfl
        omega

/-- Other separators in the same places give the same words. -/
theorem words_map {f : α → α} (hq : ∀ a ∈ s, q (f a) = p a)
    (hf : ∀ a ∈ s, ¬ p a = true → f a = a) : words q (s.map f) = words p s := by
  have hsplit : (s.map f).splitOnP q = s.splitOnP p := by
    induction s with
    | nil => rfl
    | cons a s ih =>
      have hrest := ih (fun b hb => hq b (List.mem_cons_of_mem a hb))
        (fun b hb => hf b (List.mem_cons_of_mem a hb))
      rw [List.map_cons, List.splitOnP_cons_eq_if_modifyHead,
        List.splitOnP_cons_eq_if_modifyHead, hq a List.mem_cons_self, hrest]
      by_cases ha : p a = true
      · rw [if_pos ha, if_pos ha]
      · rw [if_neg ha, if_neg ha, hf a List.mem_cons_self ha]
  rw [words, hsplit, words]

/-- `takeWhile` is the longest prefix without an exception. -/
theorem isGreatest_takeWhile (p : α → Bool) (s : List α) :
    IsGreatest {k | k ≤ s.length ∧ ∀ a ∈ s.take k, p a = true} (s.takeWhile p).length := by
  constructor
  · refine ⟨(List.takeWhile_prefix p).length_le, ?_⟩
    intro a ha
    have htake : s.take (s.takeWhile p).length = s.takeWhile p :=
      List.prefix_iff_eq_take.mp (List.takeWhile_prefix p) |>.symm
    rw [htake] at ha
    exact List.mem_takeWhile_imp ha
  · intro k hk
    obtain ⟨hle, hall⟩ := hk
    have hprefix : s.take k <+: s.takeWhile p := by
      have hself : (s.take k).takeWhile p = s.take k := List.takeWhile_eq_self_iff.mpr hall
      rw [← hself, ← List.take_takeWhile]
      exact List.take_prefix k _
    have hlen := hprefix.length_le
    rwa [List.length_take, Nat.min_eq_left hle] at hlen

/-! ## One word after another -/

/-- The first word, and what is left behind the separator that ends it. -/
def nextWord (p : α → Bool) (s : List α) : Option (List α × List α) :=
  match s.dropWhile p with
  | [] => none
  | a :: t => some (a :: t.takeWhile fun b => !p b, (t.dropWhile fun b => !p b).tail)

/-- The words of a text that begins at place `k`, with their own places, when the separators
change from one word to the next. -/
def wordsBy : Nat → List α → List (α → Bool) → List (Option (Nat × List α))
  | _, _, [] => []
  | k, s, p :: ps =>
    match nextWord p s with
    | none => none :: wordsBy (k + s.length) [] ps
    | some (w, rest) =>
      let start := k + (s.takeWhile p).length
      some (start, w) :: wordsBy (start + w.length + 1) rest ps

theorem words_dropWhile : words p (s.dropWhile p) = words p s := by
  induction s with
  | nil => rfl
  | cons a s ih =>
    by_cases ha : p a = true
    · rw [List.dropWhile_cons_of_pos ha, words_cons_of_pos ha, ih]
    · rw [List.dropWhile_cons_of_neg ha]

/-- Behind a word there is a separator or nothing. -/
theorem words_tail : words p (s.dropWhile fun b => !p b).tail = words p (s.dropWhile fun b => !p b) := by
  induction s with
  | nil => rfl
  | cons a s ih =>
    by_cases ha : p a = true
    · rw [List.dropWhile_cons_of_neg (by simp [ha]), List.tail_cons, words_cons_of_pos ha]
    · rw [List.dropWhile_cons_of_pos (by simp [ha]), ih]

/-- Behind the separators there is none. -/
theorem not_of_dropWhile {a : α} {t : List α} (hs : s.dropWhile p = a :: t) : ¬ p a = true := by
  have hhead := List.head?_dropWhile_not p s
  rw [hs] at hhead
  simpa using hhead

/-- Where the next word stands: behind the separators, with a separator or nothing behind it. -/
theorem nextWord_eq_some {w rest : List α} (h : nextWord p s = some (w, rest)) :
    ∃ v, s = s.takeWhile p ++ w ++ v ∧ rest = v.tail ∧ w ≠ [] ∧
      ((s.dropWhile p).takeWhile fun b => !p b) = w ∧ ∀ b ∈ v.head?, p b = true := by
  unfold nextWord at h
  split at h
  · cases h
  · next a t hs =>
    cases h
    have ha := not_of_dropWhile hs
    refine ⟨t.dropWhile fun b => !p b, ?_, rfl, List.cons_ne_nil a _, ?_, ?_⟩
    · rw [List.append_assoc, List.cons_append, List.takeWhile_append_dropWhile, ← hs,
        List.takeWhile_append_dropWhile]
    · rw [hs, List.takeWhile_cons_of_pos (by simpa using ha)]
    · intro b hb
      have hhead := List.head?_dropWhile_not (fun b => !p b) t
      rw [Option.mem_def.mp hb] at hhead
      simpa using hhead

theorem nextWord_eq_none : nextWord p s = none ↔ s.dropWhile p = [] := by
  unfold nextWord
  split
  · next hs => simp [hs]
  · next hs => simp [hs]

theorem words_of_none (h : nextWord p s = none) : words p s = [] := by
  rw [← words_dropWhile, nextWord_eq_none.mp h, words_nil]

theorem words_of_some {w rest : List α} (h : nextWord p s = some (w, rest)) :
    words p s = w :: words p rest := by
  unfold nextWord at h
  split at h
  · cases h
  · next a t hs =>
    cases h
    have ha := not_of_dropWhile hs
    rw [← words_dropWhile, hs, words_cons_of_neg ha, words_tail]

theorem wordsBy_nil (k : Nat) (ps : List (α → Bool)) :
    wordsBy k [] ps = List.replicate ps.length none := by
  induction ps generalizing k with
  | nil => rfl
  | cons p ps ih =>
    rw [wordsBy, List.length_cons, List.replicate_succ, ← ih]
    rfl

/-- With the same separators all the time, these are the words of the text. -/
theorem wordsBy_replicate (k n : Nat) :
    (wordsBy k s (List.replicate n p)).map (Option.map Prod.snd) =
      ((words p s).take n).map some ++ List.replicate (n - (words p s).length) none := by
  induction n generalizing k s with
  | zero => simp [wordsBy]
  | succ n ih =>
    rw [List.replicate_succ, wordsBy]
    cases h : nextWord p s with
    | none => simp [words_of_none h, wordsBy_nil, List.replicate_succ]
    | some r => simp [words_of_some h, ih]

end CourseProjects.Text

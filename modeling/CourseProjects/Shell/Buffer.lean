import CourseProjects.Shell.Parse
import Mathlib.Data.List.TakeWhile

/-!
# Strings in the buffer

Once the white space is null, the tokens of the line are the C strings of the
buffer, and `find_next` walks from one to the next. Behind the last of them it
stops one place after the end of the line.
-/

namespace CourseProjects.Shell

open Text

variable {str u r : List Char} {len c fuel k : Nat} {t : List Char} {ts : List (List Char)}

/-! ## Reading behind a position -/

theorem getElem?_of_drop {a : Char} (h : str.drop c = a :: r) : str[c]? = some a := by
  rw [← List.head?_drop, h]
  rfl

theorem drop_succ {a : Char} (h : str.drop c = a :: r) : str.drop (c + 1) = r := by
  rw [← List.tail_drop, h]
  rfl

theorem skipString_spec (h : str.drop c = u ++ nul :: r) (hu : nul ∉ u)
    (hlen : c + u.length ≤ len + 1) (hfuel : u.length < fuel) :
    skipString str len fuel c = some (c + u.length) := by
  induction u generalizing c fuel with
  | nil =>
    obtain ⟨n, rfl⟩ : ∃ n, fuel = n + 1 := ⟨fuel - 1, by omega⟩
    have hread : str[c]? = some nul := getElem?_of_drop h
    simp [skipString, hread]
  | cons a u ih =>
    obtain ⟨n, rfl⟩ : ∃ n, fuel = n + 1 := ⟨fuel - 1, by omega⟩
    simp only [List.mem_cons, not_or, List.length_cons] at hu hlen hfuel
    have hread : str[c]? = some a := getElem?_of_drop h
    have hrest := ih (drop_succ h) hu.2 (by omega) (Nat.lt_of_succ_lt_succ hfuel)
    have hle : c ≤ len := by omega
    have ha : a ≠ nul := Ne.symm hu.1
    simp only [skipString, hle, ↓reduceIte, hread, Option.bind_eq_bind, Option.bind_some, ne_eq,
      ha, not_false_eq_true, hrest, List.length_cons]
    congr 1
    omega

theorem skipNulls_spec {a : Char} (h : str.drop c = List.replicate k nul ++ a :: r)
    (ha : a = nul → c + k = len + 1) (hlen : c + k ≤ len + 1) (hfuel : k < fuel) :
    skipNulls str len fuel c = some (c + k) := by
  induction k generalizing c fuel with
  | zero =>
    obtain ⟨n, rfl⟩ : ∃ n, fuel = n + 1 := ⟨fuel - 1, by omega⟩
    have hread : str[c]? = some a := getElem?_of_drop h
    have hstop : ¬ (a = nul ∧ c ≤ len) := fun hc => by
      have := ha hc.1
      omega
    simp [skipNulls, hread, hstop]
  | succ k ih =>
    obtain ⟨n, rfl⟩ : ∃ n, fuel = n + 1 := ⟨fuel - 1, by omega⟩
    have hread : str[c]? = some nul := getElem?_of_drop h
    have hrest := ih (drop_succ h) (fun hn => by have := ha hn; omega) (by omega)
      (Nat.lt_of_succ_lt_succ hfuel)
    have hle : c ≤ len := by omega
    simp only [skipNulls, hread, Option.bind_eq_bind, Option.bind_some, hle, and_self, ↓reduceIte,
      hrest]
    congr 1
    omega

theorem cstring_spec (h : str.drop c = u ++ nul :: r) (hu : nul ∉ u) : cstring str c = some u := by
  have htake : (u ++ nul :: r).takeWhile (· ≠ nul) = u := by
    rw [List.takeWhile_append_of_pos fun a ha => decide_eq_true (ne_of_mem_of_not_mem ha hu)]
    simp
  have hmem : nul ∈ u ++ nul :: r := List.mem_append_right u List.mem_cons_self
  rw [cstring, h]
  simp only [hmem, ↓reduceIte, htake]

/-! ## The strings from a position on -/

/-- The buffer from `c` on holds the strings `ts` up to the end of the line. -/
inductive Strings (len : Nat) : Nat → List Char → List (List Char) → Prop
  | done (r : List Char) : Strings len (len + 1) (nul :: r) []
  | string (c k : Nat) (t r : List Char) (ts : List (List Char)) : t ≠ [] → nul ∉ t →
      Strings len (c + t.length + (k + 1)) r ts →
      Strings len c (t ++ (List.replicate (k + 1) nul ++ r)) (t :: ts)

theorem Strings.length_le (h : Strings len c r ts) : c + ts.length ≤ len + 1 := by
  induction h with
  | done r => exact Nat.le_refl _
  | string c k t r ts hne _ _ ih =>
    have := List.length_pos_of_ne_nil hne
    simp only [List.length_cons]
    omega

/-- Short of the end there is a string at the position. -/
theorem Strings.first (h : Strings len c r ts) :
    ∃ a r', r = a :: r' ∧ (a = nul → c = len + 1) := by
  cases h with
  | done r => exact ⟨nul, r, rfl, fun _ => rfl⟩
  | string _ k t r ts hne hnul _ =>
    obtain ⟨a, t, rfl⟩ := List.exists_cons_of_ne_nil hne
    exact ⟨a, _, rfl, fun ha => absurd (ha ▸ List.mem_cons_self) hnul⟩

/-- The position of the strings `ts` in the buffer. -/
def At (str : List Char) (len c : Nat) (ts : List (List Char)) : Prop :=
  Strings len c (str.drop c) ts

theorem At.nil (h : At str len c []) : c = len + 1 ∧ ∃ r, str.drop c = nul :: r := by
  unfold At at h
  generalize hd : str.drop c = s at h
  cases h with
  | done r => exact ⟨rfl, r, rfl⟩

theorem At.cons (h : At str len c (t :: ts)) :
    ∃ k r, str.drop c = t ++ (List.replicate (k + 1) nul ++ r) ∧ t ≠ [] ∧ nul ∉ t ∧
      Strings len (c + t.length + (k + 1)) r ts := by
  unfold At at h
  generalize hd : str.drop c = s at h
  cases h with
  | string _ k t r ts hne hnul hrest => exact ⟨k, r, rfl, hne, hnul, hrest⟩

theorem At.read_nil (h : At str len c []) : str[c]? = some nul := by
  obtain ⟨-, r, hd⟩ := h.nil
  exact getElem?_of_drop hd

theorem At.read_cons (h : At str len c (t :: ts)) : ∃ a, str[c]? = some a ∧ a ≠ nul := by
  obtain ⟨k, r, hd, hne, hnul, -⟩ := h.cons
  obtain ⟨a, t, rfl⟩ := List.exists_cons_of_ne_nil hne
  exact ⟨a, getElem?_of_drop hd, fun ha => hnul (ha ▸ List.mem_cons_self)⟩

theorem At.cstring_nil (h : At str len c []) : cstring str c = some [] := by
  obtain ⟨-, r, hd⟩ := h.nil
  exact cstring_spec hd List.not_mem_nil

theorem At.cstring_cons (h : At str len c (t :: ts)) : cstring str c = some t := by
  obtain ⟨k, r, hd, -, hnul, -⟩ := h.cons
  exact cstring_spec hd hnul

theorem At.findNext_nil (h : At str len c []) (hfuel : 0 < fuel) :
    findNext fuel str c len = some c := by
  obtain ⟨rfl, r, hd⟩ := h.nil
  have hstring : skipString str len fuel (len + 1) = some (len + 1) :=
    skipString_spec hd List.not_mem_nil (Nat.le_refl _) hfuel
  have hnulls : skipNulls str len fuel (len + 1) = some (len + 1) :=
    skipNulls_spec (k := 0) hd (fun _ => rfl) (Nat.le_refl _) hfuel
  simp [findNext, hstring, hnulls]

theorem At.findNext_cons (h : At str len c (t :: ts)) (hfuel : len + 1 < fuel) :
    ∃ c', findNext fuel str c len = some c' ∧ At str len c' ts := by
  obtain ⟨k, r, hd, -, hnul, hrest⟩ := h.cons
  have hle := hrest.length_le
  obtain ⟨a, r', rfl, ha⟩ := hrest.first
  have hend : str.drop (c + t.length) = List.replicate (k + 1) nul ++ a :: r' := by
    rw [← List.drop_drop, hd, List.drop_left]
  have hstring : skipString str len fuel c = some (c + t.length) :=
    skipString_spec hd hnul (by omega) (by omega)
  have hnulls : skipNulls str len fuel (c + t.length) = some (c + t.length + (k + 1)) :=
    skipNulls_spec hend ha (by omega) (by omega)
  refine ⟨c + t.length + (k + 1), by simp [findNext, hstring, hnulls], ?_⟩
  unfold At
  rwa [← List.drop_drop, hend, List.drop_left' (List.length_replicate)]

/-! ## The strings of a line -/

/-- A word ends at the first null. -/
theorem behind_word (u r : List Char) :
    ∃ w, (u.dropWhile fun b => !decide (b = nul)) ++ nul :: r = nul :: w := by
  have hhead := List.head?_dropWhile_not (fun b => !decide (b = nul)) u
  cases hv : u.dropWhile fun b => !decide (b = nul) with
  | nil => exact ⟨r, rfl⟩
  | cons b v =>
    have hb : b = nul := by simpa [hv] using hhead
    exact ⟨v ++ nul :: r, by rw [hb, List.cons_append]⟩

/-- A line that ends at `len` starts with some nulls and then holds its words. -/
theorem strings_of_text (u r : List Char) (h : c + u.length = len) :
    ∃ k s, u ++ nul :: nul :: r = List.replicate k nul ++ s ∧
      Strings len (c + k) s (words (· = nul) u) := by
  induction hn : u.length using Nat.strongRecOn generalizing u c with
  | _ n ih =>
    cases u with
    | nil => exact ⟨1, nul :: r, rfl, by simpa [← h] using Strings.done r⟩
    | cons a u =>
      subst hn
      by_cases ha : a = nul
      · subst ha
        obtain ⟨k, s, hs, hstrings⟩ :=
          ih u.length (Nat.lt_succ_self _) u (c := c + 1) (by simp at h; omega) rfl
        refine ⟨k + 1, s, by rw [List.cons_append, hs]; rfl, ?_⟩
        rw [words_cons_of_pos (by simp)]
        rwa [Nat.add_right_comm, Nat.add_assoc] at hstrings
      · let t := a :: u.takeWhile fun b => !decide (b = nul)
        let v := u.dropWhile fun b => !decide (b = nul)
        have hcut : a :: u = t ++ v := by simp [t, v]
        have hlen : t.length + v.length = u.length + 1 := by
          rw [← List.length_append, ← hcut, List.length_cons]
        have hpos : 0 < t.length := Nat.succ_pos _
        obtain ⟨k, s, hs, hstrings⟩ :=
          ih v.length (by simp; omega) v (c := c + t.length) (by simp at h; omega) rfl
        obtain ⟨k, rfl⟩ : ∃ j, k = j + 1 := by
          cases k with
          | succ j => exact ⟨j, rfl⟩
          | zero =>
            obtain ⟨b, r', rfl, hb⟩ := hstrings.first
            obtain ⟨w, hw⟩ := behind_word u (nul :: r)
            have hnull : nul = b := (List.cons.inj (hw.symm.trans hs)).1
            have := hb hnull.symm
            simp at h
            omega
        refine ⟨0, a :: u ++ nul :: nul :: r, rfl, ?_⟩
        rw [words_cons_of_neg (by simpa using ha), hcut, List.append_assoc, hs]
        refine Strings.string c k t s _ (List.cons_ne_nil _ _) (fun hmem => ?_) hstrings
        rcases List.mem_cons.mp hmem with hmem | hmem
        · exact ha hmem.symm
        · have := List.mem_takeWhile_imp hmem
          simp at this

/-! ## The first loop -/

/-- The line when its white space is null. -/
def nulled (line : List Char) : List Char :=
  line.map fun a => if isspace a then nul else a

/-- The words that start in a text; with `flip` the text starts inside a word. -/
def starts (flip : Bool) (s : List Char) : Nat :=
  if flip then (words isspace (s.dropWhile fun b => !isspace b)).length
  else (words isspace s).length

theorem words_nulled {line : List Char} (h : nul ∉ line) :
    words (· = nul) (nulled line) = words isspace line := by
  refine words_map (fun a ha => ?_) fun a _ hsp => if_neg hsp
  have hne : a ≠ nul := ne_of_mem_of_not_mem ha h
  by_cases hsp : isspace a = true
  · simp [hsp]
  · simp [hsp, hne]

theorem starts_space {a : Char} {s : List Char} (flip : Bool) (h : isspace a = true) :
    starts flip (a :: s) = starts false s := by
  cases flip <;> simp [starts, h]

theorem starts_char {a : Char} {s : List Char} (flip : Bool) (h : ¬ isspace a = true) :
    starts flip (a :: s) = starts true s + if flip then 0 else 1 := by
  cases flip <;> simp [starts, h, words_cons_of_neg h]

/-- The state with a new buffer and `n` more arguments. -/
def Parsed.counted (st : Parsed) (str : List Char) (n : Nat) : Parsed :=
  { st with str := str, narg := st.narg + n }

theorem nullSpaces_spec (s : List Char) (st : Parsed) (i : Nat) (flip : Bool) (u : List Char)
    (hstr : st.str = u ++ (s ++ nul :: r)) (hi : u.length = i) (hs : nul ∉ s)
    (hfuel : s.length < fuel) :
    nullSpaces fuel st i flip =
      some (st.counted (u ++ (nulled s ++ nul :: r)) (starts flip s), i + s.length) := by
  induction s generalizing u st i flip fuel with
  | nil =>
    obtain ⟨n, rfl⟩ : ∃ n, fuel = n + 1 := ⟨fuel - 1, by omega⟩
    have hread : st.str[i]? = some nul := by
      rw [hstr, ← hi]
      simp
    have hzero : starts flip [] = 0 := by cases flip <;> rfl
    have hsame : st.counted (u ++ (nulled [] ++ nul :: r)) 0 = st := by
      rw [nulled, List.map_nil, Parsed.counted, ← hstr]
      simp
    rw [nullSpaces, hread, hzero, hsame]
    rfl
  | cons a s ih =>
    obtain ⟨n, rfl⟩ : ∃ n, fuel = n + 1 := ⟨fuel - 1, by omega⟩
    simp only [List.mem_cons, not_or, List.length_cons] at hs hfuel
    have hread : st.str[i]? = some a := by
      rw [hstr, ← hi]
      simp
    have hn : s.length < n := Nat.lt_of_succ_lt_succ hfuel
    have ha : a ≠ nul := Ne.symm hs.1
    have hlen : ∀ b : Char, (u ++ [b]).length = i + 1 := fun b => by simp [hi]
    rw [nullSpaces, hread]
    simp only [Option.bind_eq_bind, Option.bind_some, ha, ↓reduceIte]
    by_cases hsp : isspace a = true
    · have hset : st.str.set i nul = (u ++ [nul]) ++ (s ++ nul :: r) := by
        rw [hstr, ← hi]
        simp
      rw [if_pos hsp, ih { st with str := st.str.set i nul } (i + 1) false (u ++ [nul]) hset
        (hlen nul) hs.2 hn, starts_space flip hsp, nulled, nulled, List.map_cons, if_pos hsp]
      simp [Parsed.counted]
      omega
    · have hkeep : st.str = (u ++ [a]) ++ (s ++ nul :: r) := by
        rw [hstr]
        simp
      rw [if_neg hsp, starts_char flip hsp, nulled, List.map_cons, if_neg hsp]
      cases flip with
      | false =>
        have hrest := ih { st with narg := st.narg + 1 } (i + 1) true (u ++ [a]) hkeep (hlen a)
          hs.2 hn
        rw [if_pos rfl, hrest, nulled]
        simp [Parsed.counted]
        omega
      | true =>
        have hrest := ih st (i + 1) true (u ++ [a]) hkeep (hlen a) hs.2 hn
        rw [if_neg (by decide), hrest, nulled]
        simp [Parsed.counted]
        omega

/-- The search for the first string. -/
theorem first_string {line : List Char} (r : List Char) (hline : nul ∉ line)
    (hfuel : line.length + 1 < fuel) :
    ∃ c, skipNulls (nulled line ++ nul :: nul :: r) line.length fuel 0 = some c ∧
      At (nulled line ++ nul :: nul :: r) line.length c (words isspace line) := by
  have hlen : (nulled line).length = line.length := List.length_map _
  obtain ⟨k, s, hs, hstrings⟩ := strings_of_text (nulled line) r (by rw [Nat.zero_add, hlen])
  have hle := hstrings.length_le
  obtain ⟨a, s, rfl, ha⟩ := hstrings.first
  rw [words_nulled hline] at hstrings
  refine ⟨0 + k, skipNulls_spec hs ha (by omega) (by omega), ?_⟩
  unfold At
  rwa [Nat.zero_add, hs, List.drop_left' List.length_replicate, ← Nat.zero_add k]

/-- What the first loop and the search for the first string do. -/
theorem start_spec {line : List Char} (st : Parsed) (hline : nul ∉ line)
    (hstr : st.str = line ++ nul :: nul :: r) (hfuel : line.length + 1 < fuel) :
    ∃ str c, nullSpaces fuel st 0 false =
        some (st.counted str (words isspace line).length, line.length) ∧
      skipNulls str line.length fuel 0 = some c ∧
      At str line.length c (words isspace line) := by
  have hn : line.length < fuel := by omega
  have hloop := nullSpaces_spec line st 0 false [] hstr rfl hline hn
  rw [List.nil_append, Nat.zero_add] at hloop
  obtain ⟨c, hskip, hat⟩ := first_string r hline hfuel
  exact ⟨_, c, hloop, hskip, hat⟩

end CourseProjects.Shell

import Mathlib.Data.List.Basic

/-!
# Lines of a stream

A reader with a buffer takes a stream apart: each read ends behind the first
newline, or when the buffer is full. When no line is longer than the buffer the
reads are the lines.
-/

namespace CourseProjects.ByteStream

variable {α : Type} [DecidableEq α] {nl : α} {n : Nat} {s body rest : List α}

/-- The read with room for `n` symbols, and the rest of the stream. -/
def cut (nl : α) : Nat → List α → List α × List α
  | 0, s => ([], s)
  | _ + 1, [] => ([], [])
  | n + 1, a :: s => if a = nl then ([a], s) else (a :: (cut nl n s).1, (cut nl n s).2)

/-- The reads up to the end of the stream. -/
def cuts (nl : α) (n : Nat) : Nat → List α → List (List α)
  | 0, _ => []
  | _ + 1, [] => []
  | fuel + 1, a :: s => (cut nl n (a :: s)).1 :: cuts nl n fuel (cut nl n (a :: s)).2

/-- The lines, each with its newline; the last one may have none. -/
def lines (nl : α) : List α → List (List α)
  | [] => []
  | a :: s =>
    if a = nl then [a] :: lines nl s
    else
      match lines nl s with
      | [] => [[a]]
      | l :: ls => (a :: l) :: ls

theorem cut_line (h : nl ∉ body) (hn : body.length + 1 ≤ n) :
    cut nl n (body ++ nl :: rest) = (body ++ [nl], rest) := by
  induction body generalizing n with
  | nil =>
    obtain ⟨m, rfl⟩ : ∃ m, n = m + 1 := ⟨n - 1, by simp at hn; omega⟩
    simp [cut]
  | cons a body ih =>
    simp only [List.mem_cons, not_or, List.length_cons] at h hn
    obtain ⟨m, rfl⟩ : ∃ m, n = m + 1 := ⟨n - 1, by omega⟩
    have ha : a ≠ nl := Ne.symm h.1
    simp [cut, ha, ih h.2 (by omega : body.length + 1 ≤ m)]

theorem lines_line (h : nl ∉ body) :
    lines nl (body ++ nl :: rest) = (body ++ [nl]) :: lines nl rest := by
  induction body with
  | nil => simp [lines]
  | cons a body ih =>
    simp only [List.mem_cons, not_or] at h
    have ha : a ≠ nl := Ne.symm h.1
    simp [lines, ha, ih h.2]

theorem flatten_lines (nl : α) (s : List α) : (lines nl s).flatten = s := by
  induction s with
  | nil => rfl
  | cons a s ih =>
    by_cases ha : a = nl
    · simp [lines, ha, ih]
    · cases hl : lines nl s with
      | nil =>
        rw [hl] at ih
        simp only [List.flatten_nil] at ih
        simp [lines, ha, ← ih]
      | cons l ls =>
        rw [hl] at ih
        simp only [List.flatten_cons] at ih
        simp [lines, ha, hl, ih]

/-- A line has a newline at its end only. -/
theorem not_mem_dropLast_of_mem_lines {l : List α} (h : l ∈ lines nl s) : nl ∉ l.dropLast := by
  induction s generalizing l with
  | nil => cases h
  | cons a s ih =>
    by_cases ha : a = nl
    · rw [lines, if_pos ha] at h
      rcases List.mem_cons.mp h with rfl | h
      · exact List.not_mem_nil
      · exact ih h
    · rw [lines, if_neg ha] at h
      cases hl : lines nl s with
      | nil =>
        rw [hl] at h
        cases List.mem_singleton.mp h
        exact List.not_mem_nil
      | cons k ks =>
        rw [hl] at h
        rcases List.mem_cons.mp h with rfl | h
        · have hk : nl ∉ k.dropLast := ih (by rw [hl]; exact List.mem_cons_self)
          cases k with
          | nil => exact List.not_mem_nil
          | cons b k =>
            rw [List.dropLast_cons_cons]
            exact List.not_mem_cons_of_ne_of_not_mem (Ne.symm ha) hk
        · exact ih (by rw [hl]; exact List.mem_cons_of_mem _ h)

end CourseProjects.ByteStream

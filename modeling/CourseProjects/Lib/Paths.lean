import CourseProjects.Lib.Text
import Mathlib.Data.List.Induction

/-!
# Paths

A path is a text with separators between the names of directories.
-/

namespace CourseProjects.Paths

open Text

variable {α : Type} {sep : α} {u v name : List α} {dirs : List (List α)}

/-- A separator in front of each name. -/
def render (sep : α) (dirs : List (List α)) : List α :=
  dirs.flatMap fun name => sep :: name

theorem render_concat : render sep (dirs ++ [name]) = render sep dirs ++ sep :: name := by
  simp [render]

variable [DecidableEq α]

theorem words_append_sep (u v : List α) :
    words (· = sep) (u ++ sep :: v) = words (· = sep) u ++ words (· = sep) v := by
  have hsplit : (u ++ sep :: v).splitOnP (· = sep) = u.splitOnP (· = sep) ++ v.splitOnP (· = sep) :=
    List.splitOnP_append_cons u v (by simp)
  rw [words, hsplit, List.filter_append, words, words]

theorem words_name (hne : name ≠ []) (hsep : sep ∉ name) : words (· = sep) name = [name] := by
  have hsplit : name.splitOnP (· = sep) = [name] :=
    List.splitOnP_eq_singleton fun a ha => decide_eq_false (ne_of_mem_of_not_mem ha hsep)
  rw [words, hsplit]
  simp [hne]

theorem words_render (h : ∀ name ∈ dirs, name ≠ [] ∧ sep ∉ name) :
    words (· = sep) (render sep dirs) = dirs := by
  induction dirs using List.reverseRecOn with
  | nil => rfl
  | append_singleton dirs name ih =>
    obtain ⟨hne, hsep⟩ := h name (List.mem_append_right _ List.mem_cons_self)
    rw [render_concat, words_append_sep, words_name hne hsep,
      ih fun d hd => h d (List.mem_append_left _ hd)]

end CourseProjects.Paths

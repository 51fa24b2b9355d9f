import Mathlib.Algebra.Ring.Nat
import Mathlib.Data.List.Infix
import Mathlib.Order.Bounds.Basic
import Mathlib.Order.Interval.Finset.Nat

/-!
# High water marks

A fold that keeps the largest value that it has seen ends with the greatest value over the
prefixes of its input. What is kept apart in a range is no longer than the range, so a mark
of what is kept apart is bounded by the range.
-/

namespace CourseProjects.Peak

variable {σ α β : Type*} {next : σ → α → σ} {s : σ} {a : α} {as : List α}

/-- The values of the states that are met from `s` on. -/
def values (next : σ → α → σ) (value : σ → β) (s : σ) (as : List α) : Set β :=
  {n | ∃ pre, pre <+: as ∧ value (pre.foldl next s) = n}

variable {value : σ → β}

theorem values_nil : values next value s [] = {value s} := by
  ext n
  simp [values, eq_comm]

theorem values_cons :
    values next value s (a :: as) = insert (value s) (values next value (next s a) as) := by
  ext n
  constructor
  · rintro ⟨pre, hpre, rfl⟩
    rcases List.prefix_cons_iff.mp hpre with rfl | ⟨t, rfl, ht⟩
    · exact Or.inl rfl
    · exact Or.inr ⟨t, ht, rfl⟩
  · rintro (rfl | ⟨t, ht, rfl⟩)
    · exact ⟨[], List.nil_prefix, rfl⟩
    · exact ⟨a :: t, List.prefix_cons_inj a |>.mpr ht, rfl⟩

theorem value_mem : value s ∈ values next value s as :=
  ⟨[], List.nil_prefix, rfl⟩

/-- One step of the fold: the old mark, or the new value if it is larger. -/
theorem greatest_cons [LinearOrder β] {mark m : β} (hs : value s ≤ mark)
    (h : IsGreatest (insert (max mark (value (next s a))) (values next value (next s a) as)) m) :
    IsGreatest (insert mark (values next value s (a :: as))) m := by
  rw [values_cons]
  constructor
  · rcases h.1 with hm | hm
    · rw [hm]
      rcases max_choice mark (value (next s a)) with heq | heq <;> rw [heq]
      · exact Or.inl rfl
      · exact Or.inr (Or.inr value_mem)
    · exact Or.inr (Or.inr hm)
  · have hmark : mark ≤ m := (le_max_left _ _).trans (h.2 (Or.inl rfl))
    rintro n (rfl | rfl | hn)
    · exact hmark
    · exact hs.trans hmark
    · exact h.2 (Or.inr hn)

/-- Lengths of pieces of `[lo, hi)` that are apart. -/
theorem sum_le_of_apart {lo hi : ℕ} {ps : List (ℕ × ℕ)}
    (hin : ∀ p ∈ ps, lo ≤ p.1 ∧ p.1 + p.2 ≤ hi)
    (hap : ps.Pairwise fun p q => p.1 + p.2 ≤ q.1 ∨ q.1 + q.2 ≤ p.1) :
    (ps.map Prod.snd).sum ≤ hi - lo := by
  have hcover : ∃ S : Finset ℕ, S.card = (ps.map Prod.snd).sum ∧
      ∀ x ∈ S, ∃ p ∈ ps, p.1 ≤ x ∧ x < p.1 + p.2 := by
    clear hin
    induction ps with
    | nil => exact ⟨∅, rfl, by simp⟩
    | cons p ps ih =>
      obtain ⟨hp, hps⟩ := List.pairwise_cons.mp hap
      obtain ⟨S, hcard, hS⟩ := ih hps
      have hdisj : Disjoint (Finset.Ico p.1 (p.1 + p.2)) S := by
        rw [Finset.disjoint_left]
        intro x hx hxS
        obtain ⟨q, hq, hxq⟩ := hS x hxS
        have hpq := hp q hq
        have hx' := Finset.mem_Ico.mp hx
        omega
      refine ⟨Finset.Ico p.1 (p.1 + p.2) ∪ S, ?_, ?_⟩
      · rw [Finset.card_union_of_disjoint hdisj, Nat.card_Ico, hcard, List.map_cons, List.sum_cons]
        omega
      · intro x hx
        rcases Finset.mem_union.mp hx with hx | hx
        · exact ⟨p, List.mem_cons_self, Finset.mem_Ico.mp hx⟩
        · obtain ⟨q, hq, hxq⟩ := hS x hx
          exact ⟨q, List.mem_cons_of_mem _ hq, hxq⟩
  obtain ⟨S, hcard, hS⟩ := hcover
  have hsub : S ⊆ Finset.Ico lo hi := by
    intro x hx
    obtain ⟨p, hp, hxp⟩ := hS x hx
    have := hin p hp
    exact Finset.mem_Ico.mpr ⟨by omega, by omega⟩
  rw [← hcard, ← Nat.card_Ico]
  exact Finset.card_le_card hsub

end CourseProjects.Peak

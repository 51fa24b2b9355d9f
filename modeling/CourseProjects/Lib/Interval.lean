import Mathlib.Order.Interval.Set.Basic

/-!
# Closed intervals of a linear order

Two of them have a common point when an end of the first lies in the second, and also
when the first encloses the second.
-/

namespace CourseProjects.Interval

open Set

variable {α : Type*} [LinearOrder α] {a b c d : α}

theorem meet_Icc_iff (hab : a ≤ b) (hcd : c ≤ d) :
    (∃ x ∈ Icc a b, x ∈ Icc c d) ↔ c ≤ b ∧ a ≤ d := by
  constructor
  · rintro ⟨x, ⟨hax, hxb⟩, hcx, hxd⟩
    exact ⟨hcx.trans hxb, hax.trans hxd⟩
  · rintro ⟨hcb, had⟩
    have hmem : max a c ∈ Icc a b := ⟨le_max_left a c, max_le hab hcb⟩
    exact ⟨max a c, hmem, le_max_right a c, max_le had hcd⟩

/-- A look at the two ends of the first interval sees all but the second part. -/
theorem meet_Icc_iff_ends (hab : a ≤ b) (hcd : c ≤ d) :
    (∃ x ∈ Icc a b, x ∈ Icc c d) ↔ (a ∈ Icc c d ∨ b ∈ Icc c d) ∨ a < c ∧ d < b := by
  rw [meet_Icc_iff hab hcd]
  constructor
  · rintro ⟨hcb, had⟩
    by_cases hca : c ≤ a
    · exact Or.inl (Or.inl ⟨hca, had⟩)
    · by_cases hbd : b ≤ d
      · exact Or.inl (Or.inr ⟨hcb, hbd⟩)
      · exact Or.inr ⟨lt_of_not_ge hca, lt_of_not_ge hbd⟩
  · rintro ((ha | hb) | ⟨hac, hdb⟩)
    · exact ⟨ha.1.trans hab, ha.2⟩
    · exact ⟨hb.1, hab.trans hb.2⟩
    · exact ⟨hcd.trans hdb.le, hac.le.trans hcd⟩

end CourseProjects.Interval

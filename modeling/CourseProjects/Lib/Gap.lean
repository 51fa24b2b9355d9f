import Mathlib.Data.Set.Basic

/-!
# Maximal gaps of a set of naturals

`Gap A u n` says that the `n` numbers from `u` on are a maximal interval outside
`A`, with members of `A` on both sides. Two gaps with a common number are equal.
-/

namespace CourseProjects.Intervals

variable {A : Set Nat} {u v n m x : Nat}

structure Gap (A : Set Nat) (u n : Nat) : Prop where
  pos : 0 < n
  outside : ∀ x, u ≤ x → x < u + n → x ∉ A
  before : ∃ v ∈ A, v + 1 = u
  after : u + n ∈ A

/-- A gap that starts before another one ends does not end after it. -/
theorem Gap.stop_le (hu : Gap A u n) (hv : Gap A v m) (h : v < u + n) : v + m ≤ u + n := by
  by_contra hlt
  exact hv.outside (u + n) (by omega) (by omega) hu.after

theorem Gap.start_le (hu : Gap A u n) (hv : Gap A v m) (h : v < u + n) (h' : u < v + m) :
    v ≤ u := by
  by_contra hlt
  obtain ⟨w, hw, rfl⟩ := hv.before
  exact hu.outside w (by omega) (by omega) hw

theorem Gap.eq_of_mem (hu : Gap A u n) (hv : Gap A v m) (hxu : u ≤ x ∧ x < u + n)
    (hxv : v ≤ x ∧ x < v + m) : u = v ∧ n = m := by
  have h1 := hu.start_le hv (by omega) (by omega)
  have h2 := hv.start_le hu (by omega) (by omega)
  have h3 := hu.stop_le hv (by omega)
  have h4 := hv.stop_le hu (by omega)
  omega

end CourseProjects.Intervals

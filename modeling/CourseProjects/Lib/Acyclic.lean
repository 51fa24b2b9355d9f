import Mathlib.Data.Set.Card
import Mathlib.Logic.Relation

/-!
# Relations without cycles

On finitely many sources a relation without a cycle is well founded, so that
recursion along it ends; a recursion that ends has met no cycle.
-/

namespace CourseProjects.Acyclic

open Relation

variable {α : Type} {r : α → α → Prop} {a b : α}

/-- Nothing that is reached from `a` leads back to itself. -/
def NoCycle (r : α → α → Prop) (a : α) : Prop :=
  ∀ b, ReflTransGen r a b → ¬ TransGen r b b

theorem NoCycle.step (h : NoCycle r a) (hab : r a b) : NoCycle r b :=
  fun c hbc => h c (ReflTransGen.head hab hbc)

/-- The sources that are still reached decrease with every step. -/
theorem NoCycle.acc (hfin : {x | ∃ y, r x y}.Finite) (h : NoCycle r a) : Acc (flip r) a := by
  generalize hn : ({x | ReflTransGen r a x} ∩ {x | ∃ y, r x y}).ncard = n
  induction n using Nat.strong_induction_on generalizing a with
  | _ n ih =>
    refine Acc.intro a fun b hab => ih _ ?_ (h.step hab) rfl
    rw [← hn]
    refine Set.ncard_lt_ncard ⟨?_, ?_⟩ (hfin.subset Set.inter_subset_right)
    · exact fun x hx => ⟨ReflTransGen.head hab hx.1, hx.2⟩
    · intro hsub
      have hback : ReflTransGen r b a := (hsub ⟨ReflTransGen.refl, b, hab⟩).1
      exact h a ReflTransGen.refl (TransGen.head' hab hback)

theorem noCycle_of_acc (h : Acc (flip r) a) : NoCycle r a := by
  induction h with
  | intro a _ ih =>
    intro b hab hcycle
    rcases ReflTransGen.cases_head hab with rfl | ⟨c, hac, hcb⟩
    · obtain ⟨c, hac, hca⟩ := TransGen.head'_iff.mp hcycle
      exact ih c hac a hca hcycle
    · exact ih c hac b hcb hcycle

end CourseProjects.Acyclic

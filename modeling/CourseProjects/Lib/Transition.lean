import Mathlib.Logic.Relation

/-!
# Labelled transition systems

A system has initial states and labelled steps. `Reachable.rule` is the
invariant rule; `restrict` keeps the steps whose label a guard allows in the
state before the step, so a statement about the reachable states of a restricted
system is one about the runs all of whose steps meet the guard.
-/

namespace CourseProjects.Transition

structure System (σ ε : Type*) where
  init : σ → Prop
  step : σ → ε → σ → Prop

variable {σ ε : Type*} {S : System σ ε} {ok ok' : σ → ε → Prop} {I : σ → Prop} {s s' : σ} {e : ε}

namespace System

inductive Reachable (S : System σ ε) : σ → Prop
  | init {s : σ} : S.init s → S.Reachable s
  | step {s s' : σ} {e : ε} : S.Reachable s → S.step s e s' → S.Reachable s'

/-- An invariant holds at the start and is kept by every step. -/
structure Invariant (S : System σ ε) (I : σ → Prop) : Prop where
  init : ∀ s, S.init s → I s
  step : ∀ s e s', I s → S.step s e s' → I s'

theorem Reachable.rule (hI : S.Invariant I) (hs : S.Reachable s) : I s := by
  induction hs with
  | init h => exact hI.init _ h
  | step _ h ih => exact hI.step _ _ _ ih h

/-- The system with the steps that `ok` allows. -/
def restrict (S : System σ ε) (ok : σ → ε → Prop) : System σ ε where
  init := S.init
  step s e s' := ok s e ∧ S.step s e s'

theorem Reachable.allowed (hs : (S.restrict ok).Reachable s) (hstep : S.step s e s')
    (hok : ok s e) : (S.restrict ok).Reachable s' :=
  .step hs ⟨hok, hstep⟩

theorem Reachable.restrict_mono (hok : ∀ s e, ok s e → ok' s e)
    (hs : (S.restrict ok).Reachable s) : (S.restrict ok').Reachable s := by
  induction hs with
  | init h => exact .init h
  | step _ h ih => exact .step ih ⟨hok _ _ h.1, h.2⟩

theorem Reachable.of_restrict (hs : (S.restrict ok).Reachable s) : S.Reachable s := by
  induction hs with
  | init h => exact .init h
  | step _ h ih => exact .step ih h.2

/-- The state after a list of labels, when each of them can be followed. -/
def exec (act : σ → ε → Option σ) (s : σ) : List ε → Option σ
  | [] => some s
  | e :: es => (act s e).bind fun s' => exec act s' es

theorem Reachable.exec {act : σ → ε → Option σ} (hact : ∀ s e s', act s e = some s' → S.step s e s')
    {es : List ε} (hs : S.Reachable s) (h : exec act s es = some s') : S.Reachable s' := by
  induction es generalizing s with
  | nil =>
    cases h
    exact hs
  | cons e es ih =>
    obtain ⟨s₁, he, h⟩ := Option.bind_eq_some_iff.mp h
    exact ih (.step hs (hact _ _ _ he)) h

end System

end CourseProjects.Transition

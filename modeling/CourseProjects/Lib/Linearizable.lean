import Mathlib.Logic.Function.Basic

/-!
# Linearizable histories

A history lists the calls and returns of a family of threads in the order of
time. It is linearizable when every operation that has returned, and perhaps
some that have not, can be given a point between its call and its return, such
that the operations run one after another in the order of their points give the
results that were returned.
-/

namespace CourseProjects.History

variable {T C R M : Type*}

inductive Event (T C R : Type*)
  | call (t : T) (c : C)
  | ret (t : T) (r : R)

/-- An event, or the point at which the running call of a thread takes effect. -/
inductive Entry (T C R : Type*)
  | event (e : Event T C R)
  | point (t : T) (c : C) (r : R)

namespace Entry

def event? : Entry T C R → Option (Event T C R)
  | event e => some e
  | point _ _ _ => none

def effect? : Entry T C R → Option (C × R)
  | event _ => none
  | point _ c r => some (c, r)

end Entry

/-- What a thread is doing: `done` once its call has taken effect. -/
inductive Status (C R : Type*)
  | idle
  | called (c : C)
  | done (r : R)

section Placed

variable [DecidableEq T] {H : List (Entry T C R)} {st : T → Status C R} {t : T} {c : C} {r : R}

/-- Every thread calls, has one point for the call, and returns with the result
of that point. -/
inductive Placed : List (Entry T C R) → (T → Status C R) → Prop
  | nil : Placed [] fun _ => .idle
  | call {H : List (Entry T C R)} {st : T → Status C R} {t : T} (c : C) : Placed H st →
      st t = .idle → Placed (H ++ [.event (.call t c)]) (Function.update st t (.called c))
  | point {H : List (Entry T C R)} {st : T → Status C R} {t : T} {c : C} (r : R) : Placed H st →
      st t = .called c → Placed (H ++ [.point t c r]) (Function.update st t (.done r))
  | ret {H : List (Entry T C R)} {st : T → Status C R} {t : T} {r : R} : Placed H st →
      st t = .done r → Placed (H ++ [.event (.ret t r)]) (Function.update st t .idle)

end Placed

/-! ## Sequential runs -/

variable {spec : M → C → R × M} {m m' m₀ : M} {l : List (C × R)} {c : C} {r : R}

/-- The calls with their results, one after another, lead from `m` to `m'`. -/
def Sequential (spec : M → C → R × M) : M → List (C × R) → M → Prop
  | m, [], m' => m' = m
  | m, (c, r) :: l, m' => (spec m c).1 = r ∧ Sequential spec (spec m c).2 l m'

theorem Sequential.concat (h : Sequential spec m l m') :
    Sequential spec m (l ++ [(c, (spec m' c).1)]) (spec m' c).2 := by
  induction l generalizing m with
  | nil =>
    cases h
    exact ⟨rfl, rfl⟩
  | cons p l ih => exact ⟨h.1, ih h.2⟩

/-! ## Linearizations -/

variable [DecidableEq T] {h : List (Event T C R)} {st : T → Status C R} {t : T}

/-- The history with points in it that a sequential run from `m₀` to `m` explains,
`st` saying what each thread is doing at its end. -/
def Linearization (spec : M → C → R × M) (m₀ : M) (h : List (Event T C R))
    (st : T → Status C R) (m : M) : Prop :=
  ∃ H, Placed H st ∧ H.filterMap Entry.event? = h ∧
    Sequential spec m₀ (H.filterMap Entry.effect?) m

/-- The history can be explained by a sequential run from `m₀` to `m`. -/
def Linearizable (spec : M → C → R × M) (m₀ : M) (h : List (Event T C R)) (m : M) : Prop :=
  ∃ st, Linearization spec m₀ h st m

namespace Linearization

theorem nil : Linearization spec m [] (fun _ : T => .idle) m :=
  ⟨[], .nil, rfl, rfl⟩

theorem call (hl : Linearization spec m₀ h st m) (ht : st t = .idle) (c : C) :
    Linearization spec m₀ (h ++ [.call t c]) (Function.update st t (.called c)) m := by
  obtain ⟨H, hp, rfl, hs⟩ := hl
  refine ⟨_, hp.call c ht, ?_, ?_⟩
  · simp [Entry.event?]
  · simpa [List.filterMap_cons, Entry.effect?] using hs

theorem point (hl : Linearization spec m₀ h st m) (ht : st t = .called c) :
    Linearization spec m₀ h (Function.update st t (.done (spec m c).1)) (spec m c).2 := by
  obtain ⟨H, hp, rfl, hs⟩ := hl
  refine ⟨_, hp.point (spec m c).1 ht, ?_, ?_⟩
  · simp [Entry.event?]
  · have := hs.concat (c := c)
    simpa [List.filterMap_cons, Entry.effect?] using this

theorem ret (hl : Linearization spec m₀ h st m) (ht : st t = .done r) :
    Linearization spec m₀ (h ++ [.ret t r]) (Function.update st t .idle) m := by
  obtain ⟨H, hp, rfl, hs⟩ := hl
  refine ⟨_, hp.ret ht, ?_, ?_⟩
  · simp [Entry.event?]
  · simpa [List.filterMap_cons, Entry.effect?] using hs

end Linearization

end CourseProjects.History

import Mathlib.Data.List.Chain
import Mathlib.Data.List.Infix

/-!
# Walks with backtracking

A walk goes on to a place it has not been at, by a move from the place it is at, or
back to the place from which that one was first entered. Its dead ends are cut off by
a stack: going back takes the top off, going on puts a place on it.
-/

namespace CourseProjects.Backtrack

variable {V : Type*} {move R : V → V → Prop} {start x y : V} {l l' : List V}

/-- `x` stands in `l` for the first time right behind `y`. -/
def Entered (l : List V) (y x : V) : Prop :=
  ∃ u v, l = u ++ y :: x :: v ∧ x ∉ u ++ [y]

inductive Walk (move : V → V → Prop) (start : V) : List V → Prop
  | start : Walk move start [start]
  | enter {l : List V} {x y : V} : Walk move start l → l.getLast? = some y → move y x → x ∉ l →
      Walk move start (l ++ [x])
  | back {l : List V} {x y : V} : Walk move start l → l.getLast? = some x → Entered l y x →
      Walk move start (l ++ [y])

theorem Entered.mono (h : Entered l y x) (hp : l <+: l') : Entered l' y x := by
  obtain ⟨u, v, rfl, hx⟩ := h
  obtain ⟨w, rfl⟩ := hp
  exact ⟨u, v ++ w, by simp, hx⟩

theorem entered_last (h : l.getLast? = some y) (hx : x ∉ l) : Entered (l ++ [x]) y x := by
  obtain ⟨u, rfl⟩ := List.getLast?_eq_some_iff.mp h
  exact ⟨u, [], by simp, hx⟩

/-- A new entry at the end, or one that was there before. -/
theorem Entered.of_append {z : V} (h : Entered (l ++ [z]) y x) :
    (x = z ∧ l.getLast? = some y ∧ x ∉ l) ∨ Entered l y x := by
  obtain ⟨u, v, heq, hx⟩ := h
  rcases List.eq_nil_or_concat v with rfl | ⟨v, w, rfl⟩
  · left
    have hsplit : l ++ [z] = (u ++ [y]) ++ [x] := by simp [heq]
    obtain ⟨rfl, hzx⟩ := List.append_inj' hsplit rfl
    exact ⟨(List.cons.inj hzx).1.symm, List.getLast?_concat, hx⟩
  · right
    have hsplit : l ++ [z] = (u ++ y :: x :: v) ++ [w] := by simp [heq]
    obtain ⟨rfl, -⟩ := List.append_inj' hsplit rfl
    exact ⟨u, v, rfl, hx⟩

theorem Entered.mem (h : Entered l y x) : y ∈ l := by
  obtain ⟨u, v, rfl, -⟩ := h
  simp

theorem Walk.head? (h : Walk move start l) : l.head? = some start := by
  induction h with
  | start => rfl
  | enter _ _ _ _ ih => simp [ih]
  | back _ _ _ ih => simp [ih]

/-- A place is entered by a move. -/
theorem Walk.move_of_entered (h : Walk move start l) (he : Entered l y x) : move y x := by
  induction h with
  | start =>
    obtain ⟨u, v, heq, -⟩ := he
    have hlen := congrArg List.length heq
    simp only [List.length_append, List.length_cons, List.length_nil] at hlen
    omega
  | enter _ hlast hmove _ ih =>
    rcases he.of_append with ⟨rfl, hy, -⟩ | he
    · rw [hlast] at hy
      cases hy
      exact hmove
    · exact ih he
  | back _ _ hentered ih =>
    rcases he.of_append with ⟨rfl, -, hx⟩ | he
    · exact absurd hentered.mem hx
    · exact ih he

theorem isChain_concat (h : l.IsChain R) (hlast : l.getLast? = some x) (hR : R x y) :
    (l ++ [y]).IsChain R := by
  refine h.append (List.isChain_singleton y) ?_
  intro a ha b hb
  rw [hlast] at ha
  cases ha
  cases hb
  exact hR

theorem Walk.isChain (h : Walk move start l) (hR : ∀ x y, move x y → R x y ∧ R y x) :
    l.IsChain R := by
  induction h with
  | start => exact List.isChain_singleton _
  | enter _ hlast hmove _ ih => exact isChain_concat ih hlast (hR _ _ hmove).1
  | back hwalk hlast hentered ih =>
    exact isChain_concat ih hlast (hR _ _ (hwalk.move_of_entered hentered)).2

/-- Each place but the first is a new one behind an open move, or the one from which its
predecessor was first entered. -/
theorem Walk.forward_or_back (h : Walk move start l) {u v : List V}
    (heq : l = u ++ x :: y :: v) :
    (move x y ∧ y ∉ u ++ [x]) ∨ Entered (u ++ [x]) y x := by
  induction h generalizing v with
  | start =>
    have hlen := congrArg List.length heq
    simp only [List.length_append, List.length_cons, List.length_nil] at hlen
    omega
  | @enter l z w _ hlast hmove hz ih =>
    rcases List.eq_nil_or_concat v with rfl | ⟨v, t, rfl⟩
    · have hsplit : l ++ [z] = (u ++ [x]) ++ [y] := by simp [heq]
      obtain ⟨rfl, hzy⟩ := List.append_inj' hsplit rfl
      cases hzy
      rw [List.getLast?_concat] at hlast
      cases hlast
      exact Or.inl ⟨hmove, hz⟩
    · have hsplit : l ++ [z] = (u ++ x :: y :: v) ++ [t] := by simp [heq]
      exact ih (List.append_inj' hsplit rfl).1
  | @back l z w _ hlast hentered ih =>
    rcases List.eq_nil_or_concat v with rfl | ⟨v, t, rfl⟩
    · have hsplit : l ++ [w] = (u ++ [x]) ++ [y] := by simp [heq]
      obtain ⟨rfl, hwy⟩ := List.append_inj' hsplit rfl
      cases hwy
      rw [List.getLast?_concat] at hlast
      cases hlast
      exact Or.inr hentered
    · have hsplit : l ++ [w] = (u ++ x :: y :: v) ++ [t] := by simp [heq]
      exact ih (List.append_inj' hsplit rfl).1

/-! ## Dead ends -/

section Prune

variable [DecidableEq V] {s : List V}

/-- The stack, top first, after a walk has come to `z`. -/
def prune : List V → V → List V
  | x :: y :: s, z => if z = y then y :: s else z :: x :: y :: s
  | s, z => z :: s

/-- The walk without its dead ends. -/
def pruned (l : List V) : List V :=
  (l.foldl prune []).reverse

theorem prune_new (h : x ∉ s) : prune s x = x :: s := by
  match s with
  | [] => rfl
  | [_] => rfl
  | _ :: y :: s =>
    have hne : x ≠ y := fun heq => h (heq ▸ List.mem_cons_of_mem _ List.mem_cons_self)
    exact if_neg hne

theorem prune_back (x y : V) (s : List V) : prune (x :: y :: s) y = y :: s :=
  if_pos rfl

end Prune

end CourseProjects.Backtrack

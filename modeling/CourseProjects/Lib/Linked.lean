import Mathlib.Data.List.Nodup
import Mathlib.Logic.Function.Basic

/-!
# Doubly linked lists with open ends

`Linked next prev p l e` says that the nodes `l` are linked in both directions,
with `p` in front of the first and `e` behind the last.
-/

namespace CourseProjects.LinkedList

variable {α : Type} {next prev next' prev' : α → Option α} {p e v : Option α}
  {l m : List α} {a x : α}

def Linked (next prev : α → Option α) : Option α → List α → Option α → Prop
  | _, [], _ => True
  | p, a :: l, e => prev a = p ∧ next a = l.head?.or e ∧ Linked next prev (some a) l e

theorem Linked.congr (h : Linked next prev p l e)
    (hl : ∀ a ∈ l, next' a = next a ∧ prev' a = prev a) : Linked next' prev' p l e := by
  induction l generalizing p with
  | nil => trivial
  | cons a l ih =>
    obtain ⟨hn, hp⟩ := hl a List.mem_cons_self
    exact ⟨hp.trans h.1, hn.trans h.2.1, ih h.2.2 fun b hb => hl b (List.mem_cons_of_mem _ hb)⟩

theorem linked_append :
    Linked next prev p (l ++ m) e ↔
      Linked next prev p l (m.head?.or e) ∧ Linked next prev (l.getLast?.or p) m e := by
  induction l generalizing p with
  | nil => simp [Linked]
  | cons a l ih =>
    simp only [List.cons_append, Linked, ih]
    cases l with
    | nil => simp [Linked, and_assoc]
    | cons b l =>
      have hlast : (b :: l).getLast?.or (some a) = (a :: b :: l).getLast?.or p := by
        simp [List.getLast?_eq_some_getLast]
      simp only [List.cons_append, List.head?_cons, Option.some_or, hlast, and_assoc]

/-- What a node of a list knows about its place. -/
theorem Linked.fields (h : Linked next prev none (l ++ a :: m) none) :
    prev a = l.getLast? ∧ next a = m.head? := by
  obtain ⟨-, hp, hn, -⟩ := linked_append.mp h
  exact ⟨by simpa using hp, by simpa using hn⟩

variable [DecidableEq α]

/-- `*q = v` for a pointer `q` that may be `NULL`. -/
def assign (f : α → Option α) (q : Option α) (v : Option α) : α → Option α :=
  match q with
  | none => f
  | some a => Function.update f a v

theorem assign_of_ne {f : α → Option α} (hx : p ≠ some x) : assign f p v x = f x := by
  cases p with
  | none => rfl
  | some a =>
    have hne : x ≠ a := fun h => hx (congrArg some h.symm)
    exact Function.update_of_ne hne _ _

theorem Linked.assign_of_not_mem (h : Linked next prev p l e) {q r : Option α}
    (hq : ∀ a ∈ l, q ≠ some a) (hr : ∀ a ∈ l, r ≠ some a) {u : Option α} :
    Linked (assign next q u) (assign prev r v) p l e :=
  h.congr fun a ha => ⟨assign_of_ne (hq a ha), assign_of_ne (hr a ha)⟩

/-- Another end behind the last node. -/
theorem Linked.assign_end (h : Linked next prev p l e) (hnd : l.Nodup) (v : Option α) :
    Linked (assign next l.getLast? v) prev p l v := by
  induction l generalizing p with
  | nil => trivial
  | cons a l ih =>
    obtain ⟨hp, hn, hl⟩ := h
    obtain ⟨ha, hnd⟩ := List.nodup_cons.mp hnd
    cases l with
    | nil => exact ⟨hp, by simp [assign], trivial⟩
    | cons b l =>
      have hlast : (a :: b :: l).getLast? = (b :: l).getLast? := by simp
      rw [hlast]
      refine ⟨hp, ?_, ih hl hnd⟩
      rw [assign_of_ne, hn]
      · rfl
      · exact fun heq => ha (List.mem_of_getLast? heq)

/-- Another end in front of the first node. -/
theorem Linked.assign_start (h : Linked next prev p l e) (hnd : l.Nodup) (v : Option α) :
    Linked next (assign prev l.head? v) v l e := by
  cases l with
  | nil => trivial
  | cons a l =>
    obtain ⟨hp, hn, hl⟩ := h
    refine ⟨by simp [assign], hn, hl.congr fun b hb => ⟨rfl, ?_⟩⟩
    have hne : some a ≠ some b := by
      rintro heq
      cases heq
      exact (List.nodup_cons.mp hnd).1 hb
    exact assign_of_ne hne

/-- A node is taken out. -/
theorem Linked.unlink (h : Linked next prev none (l ++ a :: m) none) (hnd : (l ++ a :: m).Nodup) :
    Linked (assign next (prev a) (next a)) (assign prev (next a) (prev a)) none (l ++ m) none := by
  obtain ⟨hp, hn⟩ := h.fields
  obtain ⟨hl, -, -, hm⟩ := linked_append.mp h
  obtain ⟨hndl, hndm, hdisj⟩ := List.nodup_append.mp hnd
  obtain ⟨-, hndm⟩ := List.nodup_cons.mp hndm
  rw [hp, hn]
  have hlast : ∀ b ∈ m, l.getLast? ≠ some b := fun b hb heq =>
    hdisj b (List.mem_of_getLast? heq) b (List.mem_cons_of_mem _ hb) rfl
  have hhead : ∀ b ∈ l, m.head? ≠ some b := fun b hb heq =>
    hdisj b hb b (List.mem_cons_of_mem _ (List.mem_of_head? heq)) rfl
  refine linked_append.mpr ⟨?_, ?_⟩
  · have := hl.assign_end hndl (m.head?.or none)
    exact (this.congr fun b hb => ⟨by simp, assign_of_ne (hhead b hb)⟩)
  · have := hm.assign_start hndm (l.getLast?.or none)
    exact (this.congr fun b hb => ⟨assign_of_ne (hlast b hb), by simp⟩)

/-- A node is put in front. -/
theorem Linked.push (h : Linked next prev none l none) (hnd : l.Nodup) (ha : a ∉ l)
    (hp : prev a = none) :
    Linked (Function.update next a l.head?) (assign prev l.head? (some a)) none (a :: l) none := by
  have hne : ∀ b ∈ l, b ≠ a := fun b hb heq => ha (heq ▸ hb)
  refine ⟨?_, by simp, ?_⟩
  · rw [assign_of_ne, hp]
    exact fun heq => ha (List.mem_of_head? heq)
  · exact (h.assign_start hnd (some a)).congr fun b hb => ⟨Function.update_of_ne (hne b hb) _ _, rfl⟩

/-! ## Several lists -/

/-- Lists without a common node. -/
structure Family (next prev : α → Option α) (ls : List (List α)) : Prop where
  nodup : ls.flatten.Nodup
  linked : ∀ l ∈ ls, Linked next prev none l none

variable {ls ls' : List (List α)}

omit [DecidableEq α] in
theorem Family.perm (h : Family next prev ls) (hp : ls.Perm ls') : Family next prev ls' :=
  ⟨hp.flatten.nodup_iff.mp h.nodup, fun l hl => h.linked l (hp.mem_iff.mpr hl)⟩

omit [DecidableEq α] in
theorem Family.congr (h : Family next prev ls)
    (hl : ∀ a ∈ ls.flatten, next' a = next a ∧ prev' a = prev a) : Family next' prev' ls :=
  ⟨h.nodup, fun l hm => (h.linked l hm).congr fun a ha => hl a (List.mem_flatten.mpr ⟨l, hm, ha⟩)⟩

theorem Family.unlink (h : Family next prev ((l ++ a :: m) :: ls)) :
    Family (assign next (prev a) (next a)) (assign prev (next a) (prev a)) ((l ++ m) :: ls) := by
  have hnd := h.nodup
  rw [List.flatten_cons] at hnd
  obtain ⟨hndl, hndr, hdisj⟩ := List.nodup_append.mp hnd
  obtain ⟨hp, hn⟩ := (h.linked _ List.mem_cons_self).fields
  have hsub : (l ++ m).Sublist (l ++ a :: m) :=
    (List.Sublist.refl l).append (List.sublist_cons_self a m)
  refine ⟨?_, fun k hk => ?_⟩
  · rw [List.flatten_cons]
    exact hnd.sublist (hsub.append (List.Sublist.refl _))
  · rcases List.mem_cons.mp hk with rfl | hk
    · exact (h.linked _ List.mem_cons_self).unlink hndl
    · refine (h.linked k (List.mem_cons_of_mem _ hk)).assign_of_not_mem ?_ ?_
      · intro b hb heq
        have hbl : b ∈ l := List.mem_of_getLast? (hp ▸ heq)
        exact hdisj b (List.mem_append_left _ hbl) b (List.mem_flatten.mpr ⟨k, hk, hb⟩) rfl
      · intro b hb heq
        have hbm : b ∈ m := List.mem_of_head? (hn ▸ heq)
        exact hdisj b (List.mem_append_right _ (List.mem_cons_of_mem _ hbm)) b
          (List.mem_flatten.mpr ⟨k, hk, hb⟩) rfl

omit [DecidableEq α] in
theorem Family.mem_unlink (h : Family next prev ((l ++ a :: m) :: ls)) :
    x ∈ ((l ++ m) :: ls).flatten ↔ x ∈ ((l ++ a :: m) :: ls).flatten ∧ x ≠ a := by
  have hnd := h.nodup
  rw [List.flatten_cons] at hnd
  have hperm : ((l ++ a :: m) ++ ls.flatten).Perm (a :: ((l ++ m) ++ ls.flatten)) :=
    List.perm_middle.append_right _
  have ha : a ∉ (l ++ m) ++ ls.flatten := (List.nodup_cons.mp (hperm.nodup_iff.mp hnd)).1
  rw [List.flatten_cons, List.flatten_cons, hperm.mem_iff, List.mem_cons]
  constructor
  · intro hx
    refine ⟨.inr hx, ?_⟩
    rintro rfl
    exact ha hx
  · rintro ⟨rfl | hx, hne⟩
    · exact absurd rfl hne
    · exact hx

theorem Family.push (h : Family next prev (l :: ls)) (ha : a ∉ (l :: ls).flatten)
    (hp : prev a = none) :
    Family (Function.update next a l.head?) (assign prev l.head? (some a)) ((a :: l) :: ls) := by
  have hnd := h.nodup
  rw [List.flatten_cons] at hnd ha
  obtain ⟨hndl, -, hdisj⟩ := List.nodup_append.mp hnd
  refine ⟨?_, fun k hk => ?_⟩
  · rw [List.flatten_cons, List.cons_append]
    exact List.nodup_cons.mpr ⟨ha, hnd⟩
  · rcases List.mem_cons.mp hk with rfl | hk
    · exact (h.linked l List.mem_cons_self).push hndl (fun hm => ha (List.mem_append_left _ hm)) hp
    · have hmem : ∀ b ∈ k, b ∈ ls.flatten := fun b hb => List.mem_flatten.mpr ⟨k, hk, hb⟩
      refine (h.linked k (List.mem_cons_of_mem _ hk)).congr fun b hb => ⟨?_, ?_⟩
      · have hne : b ≠ a := by
          rintro rfl
          exact ha (List.mem_append_right _ (hmem b hb))
        exact Function.update_of_ne hne _ _
      · exact assign_of_ne fun heq => hdisj b (List.mem_of_head? heq) b (hmem b hb) rfl

end CourseProjects.LinkedList

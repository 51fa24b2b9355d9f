import Mathlib.Data.List.Cycle

/-!
# Circular doubly linked lists

A pair of functions `next` and `prev` threads a list of nodes when every node
and its cyclic successor point at each other (`Ring`). The two edits of such a
list change links at its ends only, after a rotation: `Ring.insert` puts a new
node before the first one and `Ring.remove` takes any node out. Both rest on
`IsChain.relink`: a chain survives any change to the forward link of its last
node and to the backward link of its first.
-/

namespace CourseProjects.CyclicList

variable {α : Type*} {next prev next' prev' : α → α} {a b x y : α} {l pre post : List α}

/-- `a` and `b` point at each other. -/
def Linked (next prev : α → α) (a b : α) : Prop := next a = b ∧ prev b = a

/-- The nodes of `l`, in cyclic order, are linked both ways. -/
def Ring (next prev : α → α) (l : List α) : Prop := Cycle.Chain (Linked next prev) (l : Cycle α)

theorem ring_nil : Ring next prev [] := Cycle.Chain.nil _

theorem ring_singleton : Ring next prev [a] ↔ next a = a ∧ prev a = a :=
  Cycle.chain_singleton _ _

/-- A ring is an open chain whose last node is linked to the first. -/
theorem ring_cons_iff : Ring next prev (x :: l) ↔
    Linked next prev ((x :: l).getLast (List.cons_ne_nil x l)) x ∧
      List.IsChain (Linked next prev) (x :: l) := by
  unfold Ring
  rw [Cycle.chain_ne_nil _ (List.cons_ne_nil x l), List.isChain_cons_cons]

theorem ring_rotate : Ring next prev (pre ++ post) ↔ Ring next prev (post ++ pre) := by
  unfold Ring
  rw [Cycle.coe_eq_coe.mpr (List.isRotated_append : (pre ++ post).IsRotated (post ++ pre))]

/-- Every node of a ring has both neighbours in it, and the links undo each other. -/
theorem Ring.neighbours (h : Ring next prev l) (ha : a ∈ l) :
    next a ∈ l ∧ prev a ∈ l ∧ prev (next a) = a ∧ next (prev a) = a := by
  obtain ⟨pre, post, rfl⟩ := List.append_of_mem ha
  have hr : Ring next prev (a :: (post ++ pre)) := by
    simpa using ring_rotate.mp h
  obtain ⟨⟨hlast, hprev⟩, hchain⟩ := ring_cons_iff.mp hr
  have hmem : ∀ c, c ∈ a :: (post ++ pre) → c ∈ pre ++ a :: post :=
    fun c => (List.perm_append_comm : (a :: post ++ pre).Perm (pre ++ a :: post)).mem_iff.mp
  have hp : prev a ∈ pre ++ a :: post := hmem _ (hprev ▸ List.getLast_mem _)
  rcases hq : post ++ pre with _ | ⟨z, t⟩
  · simp only [hq, List.getLast_singleton] at hlast hprev
    exact ⟨hlast.symm ▸ ha, hp, by rw [hlast, hprev], by rw [hprev, hlast]⟩
  · rw [hq, List.isChain_cons_cons] at hchain
    obtain ⟨⟨hz, hz'⟩, -⟩ := hchain
    have hzm : z ∈ pre ++ a :: post := hmem _ (by simp [hq])
    exact ⟨hz.symm ▸ hzm, hp, by rw [hz, hz'], by rw [hprev, hlast]⟩

/-- In a ring of at least two the neighbours of a node are other nodes. -/
theorem Ring.neighbours_mem (h : Ring next prev (pre ++ y :: post))
    (hne : pre ++ post ≠ []) : next y ∈ pre ++ post ∧ prev y ∈ pre ++ post := by
  have hr : Ring next prev (y :: (post ++ pre)) := by simpa using ring_rotate.mp h
  obtain ⟨⟨-, hlast⟩, hchain⟩ := ring_cons_iff.mp hr
  rcases hq : post ++ pre with _ | ⟨x, l⟩
  · simp_all
  · have hmem : ∀ c, c ∈ x :: l → c ∈ pre ++ post :=
      fun c hc => List.perm_append_comm.mem_iff.mp (hq ▸ hc)
    simp only [hq, List.getLast_cons_cons] at hlast hchain
    refine ⟨hmem _ ?_, hmem _ (hlast ▸ List.getLast_mem _)⟩
    rw [(List.isChain_cons_cons.mp hchain).1.1]
    exact List.mem_cons_self

/-- Links read at the nodes of a ring only. -/
theorem Ring.congr (h : Ring next prev l) (hn : ∀ c ∈ l, next' c = next c)
    (hp : ∀ c ∈ l, prev' c = prev c) : Ring next' prev' l := by
  cases l with
  | nil => exact ring_nil
  | cons x l =>
    obtain ⟨⟨h1, h2⟩, hchain⟩ := ring_cons_iff.mp h
    refine ring_cons_iff.mpr ⟨⟨?_, ?_⟩, ?_⟩
    · rw [hn _ (List.getLast_mem _), h1]
    · rw [hp x List.mem_cons_self, h2]
    · exact hchain.imp_of_mem_imp fun c d hc hd hcd =>
        ⟨(hn c hc).trans hcd.1, (hp d hd).trans hcd.2⟩

/-- The links of a ring give any relation that they give between its nodes. -/
theorem Ring.imp_mem {r : α → α → Prop} (h : Ring next prev l)
    (hr : ∀ a ∈ l, ∀ b ∈ l, Linked next prev a b → r a b) : Cycle.Chain r (l : Cycle α) := by
  cases l with
  | nil => exact Cycle.Chain.nil r
  | cons x l =>
    have hne := List.cons_ne_nil x l
    refine (Cycle.chain_ne_nil r hne).mpr ?_
    have hc := (Cycle.chain_ne_nil _ hne).mp h
    have hmem : ∀ c ∈ (x :: l).getLast hne :: x :: l, c ∈ x :: l := by
      intro c hc
      rcases List.mem_cons.mp hc with rfl | hc
      · exact List.getLast_mem hne
      · exact hc
    exact hc.imp_of_mem_imp fun c d hcm hdm hcd => hr c (hmem c hcm) d (hmem d hdm) hcd

/-- An open chain without repeats does not read the forward link of its last
node or the backward link of its first. -/
theorem isChain_relink (hl : (x :: l).Nodup)
    (hn : ∀ c ∈ x :: l, c ≠ (x :: l).getLast (List.cons_ne_nil x l) → next' c = next c)
    (hp : ∀ c ∈ l, prev' c = prev c) (h : List.IsChain (Linked next prev) (x :: l)) :
    List.IsChain (Linked next' prev') (x :: l) := by
  induction l generalizing x with
  | nil => exact List.isChain_singleton x
  | cons y l ih =>
    obtain ⟨⟨hxy, hyx⟩, hrest⟩ := List.isChain_cons_cons.mp h
    have hx : x ≠ (y :: l).getLast (List.cons_ne_nil y l) := by
      intro hx
      exact (List.nodup_cons.mp hl).1 (hx ▸ List.getLast_mem _)
    refine List.isChain_cons_cons.mpr ⟨⟨?_, ?_⟩, ?_⟩
    · rw [hn x List.mem_cons_self (by simpa using hx), hxy]
    · rw [hp y List.mem_cons_self, hyx]
    · refine ih (List.nodup_cons.mp hl).2 (fun c hc hne => ?_) (fun c hc => ?_) hrest
      · exact hn c (List.mem_cons_of_mem _ hc) (by simpa using hne)
      · exact hp c (List.mem_cons_of_mem _ hc)

/-- Put `a` before the first node `x`: four links are written. -/
theorem Ring.insert (h : Ring next prev (x :: l)) (hl : (x :: l).Nodup)
    (h1 : next' a = x) (h2 : prev' a = prev x) (h3 : next' (prev x) = a) (h4 : prev' x = a)
    (hn : ∀ c ∈ x :: l, c ≠ prev x → next' c = next c)
    (hp : ∀ c ∈ x :: l, c ≠ x → prev' c = prev c) : Ring next' prev' (a :: x :: l) := by
  obtain ⟨⟨-, hlast⟩, hchain⟩ := ring_cons_iff.mp h
  refine ring_cons_iff.mpr ⟨⟨?_, ?_⟩, List.isChain_cons_cons.mpr ⟨⟨h1, h4⟩, ?_⟩⟩
  · rw [List.getLast_cons_cons, ← hlast, h3]
  · rw [List.getLast_cons_cons, ← hlast, h2]
  · refine isChain_relink hl (fun c hc hne => hn c hc (hlast ▸ hne)) (fun c hc => ?_) hchain
    refine hp c (List.mem_cons_of_mem _ hc) ?_
    rintro rfl
    exact (List.nodup_cons.mp hl).1 hc

/-- Take the first node out of a ring of at least two: two links are written. -/
theorem Ring.remove_head (h : Ring next prev (y :: x :: l)) (hl : (y :: x :: l).Nodup)
    (h1 : next' (prev y) = x) (h2 : prev' x = prev y)
    (hn : ∀ c ∈ x :: l, c ≠ prev y → next' c = next c)
    (hp : ∀ c ∈ x :: l, c ≠ x → prev' c = prev c) : Ring next' prev' (x :: l) := by
  obtain ⟨⟨-, hlast⟩, hchain⟩ := ring_cons_iff.mp h
  rw [List.getLast_cons_cons] at hlast
  have hl' := (List.nodup_cons.mp hl).2
  refine ring_cons_iff.mpr ⟨⟨?_, ?_⟩, ?_⟩
  · rw [← hlast, h1]
  · rw [h2, hlast]
  · refine isChain_relink hl' (fun c hc hne => hn c hc (hlast ▸ hne)) (fun c hc => ?_)
      (List.isChain_cons_cons.mp hchain).2
    refine hp c (List.mem_cons_of_mem _ hc) ?_
    rintro rfl
    exact (List.nodup_cons.mp hl').1 hc

/-- Take any node out of a ring of at least two. -/
theorem Ring.remove (h : Ring next prev (pre ++ y :: post)) (hl : (pre ++ y :: post).Nodup)
    (h1 : next' (prev y) = next y) (h2 : prev' (next y) = prev y)
    (hn : ∀ c ∈ pre ++ post, c ≠ prev y → next' c = next c)
    (hp : ∀ c ∈ pre ++ post, c ≠ next y → prev' c = prev c) : Ring next' prev' (pre ++ post) := by
  have hr : Ring next prev (y :: (post ++ pre)) := by simpa using ring_rotate.mp h
  have hd : (y :: (post ++ pre)).Nodup := by
    have := List.nodup_append_comm.mp hl
    simpa using this
  rw [ring_rotate]
  rcases hq : post ++ pre with _ | ⟨x, l⟩
  · exact ring_nil
  · have hmem : ∀ c, c ∈ x :: l → c ∈ pre ++ post :=
      fun c hc => List.perm_append_comm.mem_iff.mp (hq ▸ hc)
    rw [hq] at hr hd
    have hx : next y = x := (List.isChain_cons_cons.mp (ring_cons_iff.mp hr).2).1.1
    exact hr.remove_head hd (hx ▸ h1) (hx ▸ h2) (fun c hc => hn c (hmem c hc))
      (fun c hc hcx => hp c (hmem c hc) (hx ▸ hcx))

end CourseProjects.CyclicList

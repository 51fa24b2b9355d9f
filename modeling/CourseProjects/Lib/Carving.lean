import Mathlib.Combinatorics.SimpleGraph.Acyclic

/-!
# Mazes carved by a depth-first walk

Every place has sides; a side is undecided, open or a wall. A walk enters new
places through sides that it opens, and copies the side of a place that it has
seen before. The open sides then are the edges of a tree: each place but the
first has the place from which it was entered as its parent, one level up.
-/

namespace CourseProjects.Carving

/-! ## Trees given by parents -/

section Parents

variable {V : Type*} {G : SimpleGraph V} {root : V} {par : V → Option V} {level : V → Nat}

/-- The edges of `G` lead from a place to its parent, one level up. -/
structure Parents (G : SimpleGraph V) (root : V) (par : V → Option V) (level : V → Nat) :
    Prop where
  adj : ∀ u v, G.Adj u v ↔ par v = some u ∨ par u = some v
  lower : ∀ u v, par v = some u → level u < level v
  rooted : ∀ v, v ≠ root → ∃ u, par v = some u
  root : par root = none

theorem Parents.reachable (h : Parents G root par level) (v : V) : G.Reachable root v := by
  induction hn : level v using Nat.strong_induction_on generalizing v with
  | _ n ih =>
    by_cases hv : v = root
    · rw [hv]
    · obtain ⟨u, hu⟩ := h.rooted v hv
      have hlt := h.lower u v hu
      exact (ih (level u) (hn ▸ hlt) u rfl).trans ((h.adj u v).mpr (Or.inl hu)).reachable

theorem Parents.isTree [Finite V] (h : Parents G root par level) : G.IsTree := by
  have hconn : G.Connected := by
    have : Nonempty V := ⟨root⟩
    exact ⟨fun u v => (h.reachable u).symm.trans (h.reachable v)⟩
  -- every edge belongs to the place below it
  let up : {v : V // v ≠ root} → V := fun v => (h.rooted v.1 v.2).choose
  have hup : ∀ v, par v.1 = some (up v) := fun v => (h.rooted v.1 v.2).choose_spec
  let edge : {v : V // v ≠ root} → G.edgeSet := fun v =>
    ⟨s(up v, v.1), (h.adj _ _).mpr (Or.inl (hup v))⟩
  have hinj : Function.Injective edge := by
    intro v w hvw
    have hedge : s(up v, v.1) = s(up w, w.1) := congrArg Subtype.val hvw
    rcases Sym2.eq_iff.mp hedge with ⟨-, h2⟩ | ⟨h1, h2⟩
    · exact Subtype.ext h2
    · have hv := h.lower _ _ (hup v)
      have hw := h.lower _ _ (hup w)
      rw [h1] at hv
      rw [← h2] at hw
      exact absurd hv (Nat.lt_asymm hw)
  have hsurj : Function.Surjective edge := by
    rintro ⟨e, he⟩
    induction e using Sym2.ind with
    | _ u v =>
      rcases (h.adj u v).mp he with hp | hp
      · have hv : v ≠ root := by
          rintro rfl
          rw [h.root] at hp
          cases hp
        have hu : up ⟨v, hv⟩ = u := Option.some_injective _ ((hup ⟨v, hv⟩).symm.trans hp)
        exact ⟨⟨v, hv⟩, Subtype.ext (by simp only [edge, hu])⟩
      · have hu : u ≠ root := by
          rintro rfl
          rw [h.root] at hp
          cases hp
        have hv : up ⟨u, hu⟩ = v := Option.some_injective _ ((hup ⟨u, hu⟩).symm.trans hp)
        exact ⟨⟨u, hu⟩, Subtype.ext (by simp only [edge, hv, Sym2.eq_swap])⟩
  have hcard : Nat.card {v : V // v ≠ root} = Nat.card G.edgeSet :=
    Nat.card_congr (Equiv.ofBijective edge ⟨hinj, hsurj⟩)
  have hone : Nat.card {v : V // v = root} = 1 := Nat.card_eq_one_iff_unique.mpr
    ⟨⟨fun a b => Subtype.ext (a.2.trans b.2.symm)⟩, ⟨⟨root, rfl⟩⟩⟩
  refine SimpleGraph.isTree_iff_connected_and_card.mpr ⟨hconn, ?_⟩
  classical
  have hsum := Nat.card_congr (Equiv.sumCompl fun v : V => v = root)
  rw [Nat.card_sum, hone, hcard] at hsum
  omega

/-- A list without repeats whose neighbors are adjacent is the path of a tree between its
ends. -/
theorem support_eq [DecidableEq V] (hG : G.IsAcyclic) {u v : V} {l : List V}
    (hhead : l.head? = some u) (hlast : l.getLast? = some v) (hnd : l.Nodup)
    (hadj : l.IsChain G.Adj) {w : G.Walk u v} (hw : w.IsPath) : w.support = l := by
  have hne : l ≠ [] := by
    rintro rfl
    cases hhead
  obtain rfl : l.head hne = u := Option.some_injective _ ((List.head?_eq_some_head hne).symm.trans hhead)
  obtain rfl : l.getLast hne = v :=
    Option.some_injective _ ((List.getLast?_eq_some_getLast hne).symm.trans hlast)
  let w' := SimpleGraph.Walk.ofSupport l hne hadj
  have hsupport : w'.support = l := SimpleGraph.Walk.support_ofSupport hne hadj
  have hw' : w'.IsPath := by
    rw [SimpleGraph.Walk.isPath_def, hsupport]
    exact hnd
  have hone := hG.subsingleton_path (l.head hne) (l.getLast hne)
  have hsame : (⟨w, hw⟩ : G.Path _ _) = ⟨w', hw'⟩ := Subsingleton.elim _ _
  rw [show w = w' from congrArg Subtype.val hsame, hsupport]

end Parents

/-! ## Carving -/

/-- Places with sides. `next u d v` says that `v` lies behind side `d` of `u`. -/
structure Sides (V D : Type*) where
  next : V → D → V → Prop
  opp : D → D
  back : ∀ u d v, next u d v → next v (opp d) u
  unique : ∀ u d v w, next u d v → next u d w → v = w
  loopless : ∀ u d v, next u d v → u ≠ v
  opp_opp : ∀ d, opp (opp d) = d

section Carved

variable {V D : Type*} {S : Sides V D} {root : V}
  {seen : V → Prop} {conn : V → D → Int} {par : V → Option V} {level : V → Nat} {u v : V} {d : D}
  {a : Int}

/-- The walk has carved the sides that are not `-1`, with `0` for an open side
and `1` for a wall. -/
structure Carved (S : Sides V D) (root : V) (seen : V → Prop) (conn : V → D → Int)
    (par : V → Option V) (level : V → Nat) : Prop where
  start : seen root
  range : ∀ u d, conn u d = -1 ∨ conn u d = 0 ∨ conn u d = 1
  fresh : ∀ u d, ¬ seen u → conn u d = -1
  border : ∀ u d, (∀ v, ¬ S.next u d v) → conn u d ≠ 0
  agree : ∀ u d v, S.next u d v → conn u d ≠ -1 → conn v (S.opp d) ≠ -1 →
    conn u d = conn v (S.opp d)
  ahead : ∀ u d v, S.next u d v → conn u d ≠ -1 → seen v
  opened : ∀ u d v, S.next u d v → conn u d = 0 → par v = some u ∨ par u = some v
  child : ∀ u v, par v = some u → ∃ d, S.next u d v ∧ conn u d = 0
  lower : ∀ u v, par v = some u → level u < level v
  rooted : ∀ v, seen v → v ≠ root → ∃ u, par v = some u
  root : par root = none

namespace Carved

theorem seen_of_ne (h : Carved S root seen conn par level) (hne : conn u d ≠ -1) : seen u := by
  by_contra hu
  exact hne (h.fresh u d hu)

/-- Nothing is carved yet. -/
theorem initial (S : Sides V D) (root : V) :
    Carved S root (fun v => v = root) (fun _ _ => -1) (fun _ => none) (fun _ => 0) := by
  refine ⟨rfl, fun _ _ => Or.inl rfl, fun _ _ _ => rfl, fun _ _ _ h => ?_, fun _ _ _ _ h => ?_,
    fun _ _ _ _ h => ?_, fun _ _ _ _ h => ?_, fun _ _ h => ?_, fun _ _ h => ?_,
    fun v h h' => absurd h h', rfl⟩
  · cases h
  · exact absurd rfl h
  · exact absurd rfl h
  · cases h
  · cases h
  · cases h

/-! ### The finished maze -/

theorem seen_all (h : Carved S root seen conn par level) (hdone : ∀ u d, seen u → conn u d ≠ -1)
    (hv : Relation.ReflTransGen (fun u v => ∃ d, S.next u d v) root v) : seen v := by
  induction hv with
  | refl => exact h.start
  | tail _ hstep ih =>
    obtain ⟨d, hd⟩ := hstep
    exact h.ahead _ d _ hd (hdone _ d ih)

/-- The open sides as the edges of a graph. -/
def openGraph (S : Sides V D) (conn : V → D → Int) : SimpleGraph V :=
  SimpleGraph.fromRel fun u v => ∃ d, S.next u d v ∧ conn u d = 0

theorem parents (h : Carved S root seen conn par level) (hall : ∀ v, seen v) :
    Parents (openGraph S conn) root par level := by
  refine ⟨fun u v => ?_, h.lower, fun v hv => h.rooted v (hall v) hv, h.root⟩
  rw [openGraph, SimpleGraph.fromRel_adj]
  constructor
  · rintro ⟨-, ⟨d, hd, h0⟩ | ⟨d, hd, h0⟩⟩
    · exact h.opened u d v hd h0
    · exact (h.opened v d u hd h0).symm
  · rintro (hp | hp)
    · exact ⟨fun huv => Nat.lt_irrefl _ (huv ▸ h.lower u v hp), Or.inl (h.child u v hp)⟩
    · exact ⟨fun huv => Nat.lt_irrefl _ (huv ▸ h.lower v u hp), Or.inr (h.child v u hp)⟩

theorem isTree [Finite V] (h : Carved S root seen conn par level) (hall : ∀ v, seen v) :
    (openGraph S conn).IsTree :=
  (h.parents hall).isTree

end Carved

/-! ### Deciding a side -/

variable [DecidableEq V] [DecidableEq D]

/-- The sides with one of them decided. -/
def setSide (conn : V → D → Int) (u : V) (d : D) (a : Int) : V → D → Int :=
  fun w e => if w = u ∧ e = d then a else conn w e

theorem setSide_self : setSide conn u d a u d = a := by
  simp [setSide]

theorem setSide_ne {w : V} {e : D} (h : ¬ (w = u ∧ e = d)) : setSide conn u d a w e = conn w e :=
  if_neg h

namespace Carved

theorem range_setSide (h : Carved S root seen conn par level) (ha : a = 0 ∨ a = 1) (w : V) (e : D) :
    setSide conn u d a w e = -1 ∨ setSide conn u d a w e = 0 ∨ setSide conn u d a w e = 1 := by
  unfold setSide
  split_ifs
  · exact Or.inr ha
  · exact h.range w e

theorem fresh_setSide {w : V} (h : Carved S root seen conn par level) (hu : seen u) (e : D)
    (hw : ¬ seen w) : setSide conn u d a w e = -1 := by
  rw [setSide_ne, h.fresh w e hw]
  rintro ⟨rfl, -⟩
  exact hw hu

/-- The other side of the one that is opened is not decided, so nothing disagrees with it. -/
theorem agree_enter (h : Carved S root seen conn par level) (hu : seen u) (hn : S.next u d v)
    (hv : ¬ seen v) (w : V) (e : D) (z : V) (hz : S.next w e z)
    (h1 : setSide conn u d 0 w e ≠ -1) (h2 : setSide conn u d 0 z (S.opp e) ≠ -1) :
    setSide conn u d 0 w e = setSide conn u d 0 z (S.opp e) := by
  by_cases hwe : w = u ∧ e = d
  · obtain ⟨rfl, rfl⟩ := hwe
    rw [S.unique _ _ _ _ hz hn] at h2
    exact absurd (h.fresh_setSide hu _ hv) h2
  · by_cases hze : z = u ∧ S.opp e = d
    · obtain ⟨rfl, rfl⟩ := hze
      rw [S.unique _ _ _ _ (S.back _ _ _ hz) hn] at h1
      exact absurd (h.fresh_setSide hu _ hv) h1
    · rw [setSide_ne hwe] at h1 ⊢
      rw [setSide_ne hze] at h2 ⊢
      exact h.agree w e z hz h1 h2

/-- A new place is entered through a side that is opened. -/
theorem enter (h : Carved S root seen conn par level) (hu : seen u) (hn : S.next u d v)
    (hv : ¬ seen v) :
    Carved S root (fun w => seen w ∨ w = v) (setSide conn u d 0)
      (fun w => if w = v then some u else par w)
      (fun w => if w = v then level u + 1 else level w) := by
  have huv : u ≠ v := S.loopless u d v hn
  have hvne : ∀ {w}, seen w → w ≠ v := fun hw h => hv (h ▸ hw)
  refine ⟨Or.inl h.start, h.range_setSide (Or.inl rfl), ?_, ?_, h.agree_enter hu hn hv, ?_, ?_, ?_,
    ?_, ?_, ?_⟩
  · intro w e hw
    exact h.fresh_setSide hu e (not_or.mp hw).1
  · intro w e hw
    by_cases hwe : w = u ∧ e = d
    · exact absurd hn (hwe.1 ▸ hwe.2 ▸ hw v)
    · rw [setSide_ne hwe]
      exact h.border w e hw
  · intro w e z hz h1
    by_cases hwe : w = u ∧ e = d
    · obtain ⟨rfl, rfl⟩ := hwe
      exact Or.inr (S.unique _ _ _ _ hz hn)
    · rw [setSide_ne hwe] at h1
      exact Or.inl (h.ahead w e z hz h1)
  · intro w e z hz h1
    by_cases hwe : w = u ∧ e = d
    · obtain ⟨rfl, rfl⟩ := hwe
      exact Or.inl (by rw [if_pos (S.unique _ _ _ _ hz hn)])
    · rw [setSide_ne hwe] at h1
      have hne : conn w e ≠ -1 := by simp [h1]
      rw [if_neg (hvne (h.ahead w e z hz hne)), if_neg (hvne (h.seen_of_ne hne))]
      exact h.opened w e z hz h1
  · intro w z hz
    by_cases hzv : z = v
    · subst hzv
      rw [if_pos rfl, Option.some_inj] at hz
      exact ⟨d, hz ▸ hn, hz ▸ setSide_self⟩
    · rw [if_neg hzv] at hz
      obtain ⟨e, he, h0⟩ := h.child w z hz
      refine ⟨e, he, ?_⟩
      unfold setSide
      split_ifs
      · rfl
      · exact h0
  · intro w z hz
    by_cases hzv : z = v
    · subst hzv
      rw [if_pos rfl, Option.some_inj] at hz
      subst hz
      rw [if_neg huv, if_pos rfl]
      exact Nat.lt_succ_self _
    · rw [if_neg hzv] at hz
      obtain ⟨e, he, h0⟩ := h.child w z hz
      have hw : seen w := h.seen_of_ne (d := e) (by simp [h0])
      rw [if_neg (hvne hw), if_neg hzv]
      exact h.lower w z hz
  · intro w hw hwr
    by_cases hwv : w = v
    · exact ⟨u, if_pos hwv⟩
    · rw [if_neg hwv]
      exact h.rooted w (hw.resolve_right hwv) hwr
  · rw [if_neg (hvne h.start)]
    exact h.root

/-- A side is decided that leads nowhere or to a place that was seen before. -/
theorem settle (h : Carved S root seen conn par level) (hu : seen u) (hd : conn u d = -1)
    (ha : a = 0 ∨ a = 1)
    (hnext : ∀ v, S.next u d v → seen v ∧ (conn v (S.opp d) = -1 ∨ conn v (S.opp d) = a))
    (hopen : a = 0 → ∃ v, S.next u d v ∧ conn v (S.opp d) = 0) :
    Carved S root seen (setSide conn u d a) par level := by
  refine ⟨h.start, h.range_setSide ha, fun w e => h.fresh_setSide hu e, ?_, ?_, ?_, ?_, ?_, h.lower,
    h.rooted, h.root⟩
  · intro w e hw
    by_cases hwe : w = u ∧ e = d
    · obtain ⟨rfl, rfl⟩ := hwe
      rw [setSide_self]
      intro h0
      obtain ⟨v, hv, -⟩ := hopen h0
      exact hw v hv
    · rw [setSide_ne hwe]
      exact h.border w e hw
  · intro w e z hz h1 h2
    have hwz := S.loopless w e z hz
    by_cases hwe : w = u ∧ e = d
    · obtain ⟨rfl, rfl⟩ := hwe
      rw [setSide_ne (fun h => hwz h.1.symm)] at h2 ⊢
      rw [setSide_self, (hnext z hz).2.resolve_left h2]
    · by_cases hze : z = u ∧ S.opp e = d
      · obtain ⟨rfl, rfl⟩ := hze
        have hb := (hnext w (S.back w e z hz)).2
        rw [S.opp_opp] at hb
        rw [setSide_ne hwe] at h1 ⊢
        rw [setSide_self, hb.resolve_left h1]
      · rw [setSide_ne hwe] at h1 ⊢
        rw [setSide_ne hze] at h2 ⊢
        exact h.agree w e z hz h1 h2
  · intro w e z hz h1
    by_cases hwe : w = u ∧ e = d
    · obtain ⟨rfl, rfl⟩ := hwe
      exact (hnext z hz).1
    · rw [setSide_ne hwe] at h1
      exact h.ahead w e z hz h1
  · intro w e z hz h1
    by_cases hwe : w = u ∧ e = d
    · obtain ⟨rfl, rfl⟩ := hwe
      rw [setSide_self] at h1
      obtain ⟨v, hv, h0⟩ := hopen h1
      rw [S.unique _ _ _ _ hz hv]
      exact (h.opened v _ w (S.back _ _ _ hv) h0).symm
    · rw [setSide_ne hwe] at h1
      exact h.opened w e z hz h1
  · intro w z hz
    obtain ⟨e, he, h0⟩ := h.child w z hz
    refine ⟨e, he, ?_⟩
    rw [setSide_ne, h0]
    rintro ⟨rfl, rfl⟩
    rw [h0] at hd
    cases hd

end Carved

end Carved

end CourseProjects.Carving

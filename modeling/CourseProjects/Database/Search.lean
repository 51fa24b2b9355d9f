import CourseProjects.Database.Remove
import Mathlib.Data.Finset.Card

/-!
# Searches and walks in a database that holds a tree

The fuel `db.fresh` is enough, since every loop goes down the tree.
-/

namespace CourseProjects.Database

open TreeHeap SearchTree SearchTree.Tree

variable {db db' : Db} {t l r : NTree} {a p d next : Addr} {x : CString} {n dn nn : Node}
  {pnext : Addr × Field} {L : List Addr}

theorem deref_of_mem (h : db.mem a = some n) : db.deref a = .ok n := by
  simp [Db.deref, h]

theorem ok_bind {α β : Type} (a : α) (f : α → Except Fault β) :
    ((.ok a : Except Fault α) >>= f) = f a :=
  rfl

/-! ## Searching -/

theorem search_null {fuel : Nat} (hn : db.mem p = some n) (h0 : n.toward x = 0) :
    db.search (fuel + 1) x p = .ok (0, p) := by
  rw [Db.search, deref_of_mem hn, ok_bind]
  simp only [h0, ↓reduceIte]
  rfl

theorem search_target {fuel : Nat} (hn : db.mem p = some n) (h0 : n.toward x ≠ 0)
    (hd : db.mem (n.toward x) = some dn) (hx : x = dn.name) :
    db.search (fuel + 1) x p = .ok (n.toward x, p) := by
  rw [Db.search, deref_of_mem hn, ok_bind]
  simp only [h0, ↓reduceIte]
  rw [deref_of_mem hd, ok_bind, if_pos (strcmp_eq_zero.mpr hx)]
  rfl

theorem search_next {fuel : Nat} (hn : db.mem p = some n) (h0 : n.toward x ≠ 0)
    (hd : db.mem (n.toward x) = some dn) (hx : x ≠ dn.name) :
    db.search (fuel + 1) x p = db.search fuel x (n.toward x) := by
  rw [Db.search, deref_of_mem hn, ok_bind]
  simp only [h0, ↓reduceIte]
  rw [deref_of_mem hd, ok_bind, if_neg (fun h => hx (strcmp_eq_zero.mp h))]

/-- What a search from a node of its trail returns. -/
inductive Found (db : Db) (t : NTree) (x : CString) : Addr × Addr → Prop
  | missing {p : Addr} {n : Node} : p ∈ (whole t).trail ↑x → db.mem p = some n →
      n.toward x = 0 → Found db t x (0, p)
  | found {p : Addr} {n dn : Node} : p ∈ (whole t).trail ↑x → db.mem p = some n →
      n.toward x ≠ 0 → db.mem (n.toward x) = some dn → x = dn.name → Found db t x (n.toward x, p)

theorem search_spec {fuel : Nat} {k : WithBot CString} {v : CString} (ht : Holds db t)
    (hp : p ∈ (whole t).trail ↑x) (hs : Sub (node l p k v r) (whole t))
    (hfuel : (node l p k v r).size ≤ fuel) :
    ∃ res, db.search fuel x p = .ok res ∧ Found db t x res := by
  induction fuel generalizing p l k v r with
  | zero => simp [size] at hfuel
  | succ fuel ih =>
    obtain ⟨-, -, -, -, n, -, hn, -⟩ := ht.node_at (trail_subset hp)
    by_cases h0 : n.toward x = 0
    · exact ⟨(0, p), search_null hn h0, .missing hp hn h0⟩
    · obtain ⟨l', k', v', r', ll, rr, dn, hs', htw, hsub, hdn, -, -⟩ := ht.child hp hn h0
      cases hs.unique ht.nodup hs'
      by_cases hx : x = dn.name
      · exact ⟨(n.toward x, p), search_target hn h0 hdn hx, .found hp hn h0 hdn hx⟩
      · have hlt := size_toward (x := (x : WithBot CString)) (l := l) (a := p) (k := k) (v := v)
          (r := r)
        rw [htw] at hlt
        obtain ⟨res, hres, hfound⟩ := ih (ht.trail_child hp hn hdn h0 hx)
          (Or.inr (Or.inr hsub)) (by omega)
        exact ⟨res, (search_next hn h0 hdn hx).trans hres, hfound⟩

/-! ## The walk to the successor -/

/-- The end of the `lchild` chain from a node. -/
inductive LeftEnd (db : Db) : Addr → Addr → Prop
  | here {a : Addr} {n : Node} : db.mem a = some n → n.lchild = 0 → LeftEnd db a a
  | left {a s : Addr} {n : Node} : db.mem a = some n → n.lchild ≠ 0 → LeftEnd db n.lchild s →
      LeftEnd db a s

theorem LeftEnd.unique {s s' : Addr} (h : LeftEnd db a s) (h' : LeftEnd db a s') : s = s' := by
  induction h with
  | here hn h0 =>
    cases h' with
    | here => rfl
    | left hn' h0' =>
      rw [hn] at hn'
      cases hn'
      exact absurd h0 h0'
  | left hn h0 _ ih =>
    cases h' with
    | here hn' h0' =>
      rw [hn] at hn'
      cases hn'
      exact absurd h0' h0
    | left hn' _ h' =>
      rw [hn] at hn'
      cases hn'
      exact ih h'

theorem smallest_end {fuel : Nat} (hn : db.mem next = some n) (h0 : n.lchild = 0) :
    db.smallest (fuel + 1) next pnext = .ok (next, pnext) := by
  rw [Db.smallest, deref_of_mem hn, ok_bind]
  simp only [h0, ne_eq, not_true_eq_false, ↓reduceIte]
  rfl

theorem smallest_left {fuel : Nat} (hn : db.mem next = some n) (h0 : n.lchild ≠ 0) :
    db.smallest (fuel + 1) next pnext = db.smallest fuel n.lchild (next, .lchild) := by
  rw [Db.smallest, deref_of_mem hn, ok_bind]
  simp only [h0, ne_eq, not_false_eq_true, ↓reduceIte]

theorem smallest_spec {fuel : Nat} {k : WithBot CString} {v : CString} (ht : Rep db.cells t)
    (hs : Sub (node l next k v r) t) (hfuel : (node l next k v r).size ≤ fuel)
    (hw : Walked db d next pnext L) :
    ∃ next' pnext' L' nn, db.smallest fuel next pnext = .ok (next', pnext') ∧
      Walked db d next' pnext' L' ∧ db.mem next' = some nn ∧ nn.lchild = 0 ∧
      LeftEnd db next next' := by
  induction fuel generalizing next l k v r pnext L with
  | zero => simp [size] at hfuel
  | succ fuel ih =>
    obtain ⟨-, hc, hl, -⟩ := ht.sub hs
    obtain ⟨n, hn, hcell⟩ := Option.map_eq_some_iff.mp hc
    have hleft : n.lchild = l.root := congrArg Cell.left hcell
    by_cases h0 : n.lchild = 0
    · exact ⟨next, pnext, L, n, smallest_end hn h0, hw, hn, h0, .here hn h0⟩
    · obtain ⟨ll, lk, lv, lr, hlnode⟩ := hl.eq_node (fun h => h0 (hleft.trans h))
      rw [← hleft] at hlnode
      subst hlnode
      simp only [size] at hfuel
      obtain ⟨next', pnext', L', nn, hres, hw', hnn, hnl, hend⟩ :=
        ih (hs.left (by simp)) (by simp only [size]; omega) (hw.step hn h0)
      exact ⟨next', pnext', L', nn, (smallest_left hn h0).trans hres, hw', hnn, hnl,
        .left hn h0 hend⟩

/-! ## Fuel -/

theorem size_le_fresh (hnd : (whole t).addrs.Nodup) (hlt : ∀ a ∈ (whole t).addrs, a < db.fresh) :
    (whole t).size ≤ db.fresh := by
  rw [size_eq, ← List.toFinset_card_of_nodup hnd, ← Finset.card_range db.fresh]
  refine Finset.card_le_card fun a ha => ?_
  exact Finset.mem_range.mpr (hlt a (List.mem_toFinset.mp ha))

end CourseProjects.Database

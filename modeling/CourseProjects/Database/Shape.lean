import CourseProjects.Database.Db

/-!
# The tree under the root node

The whole tree has `head` as its root. Its key is below every name: no search
compares `head` for equality, and every search leaves it on the right.
-/

namespace CourseProjects.Database

open TreeHeap SearchTree SearchTree.Tree

abbrev NTree := Tree Addr (WithBot CString) CString

def whole (t : NTree) : NTree :=
  node leaf head ⊥ [] t

def Node.cell (a : Addr) (n : Node) : Cell Addr (WithBot CString) CString where
  key := if a = head ∧ n.name = [] then ⊥ else n.name
  val := n.value
  left := n.lchild
  right := n.rchild

def Db.cells (db : Db) (a : Addr) : Option (Cell Addr (WithBot CString) CString) :=
  (db.mem a).map (Node.cell a)

/-- The memory holds a search tree under `head`. -/
structure Holds (db : Db) (t : NTree) : Prop where
  rep : Rep db.cells (whole t)
  nodup : (whole t).addrs.Nodup
  ordered : (whole t).Ordered

variable {db db' : Db} {t l r : NTree} {a p d next : Addr} {x : CString} {n dn : Node}

theorem cell_toward : (n.cell a).toward ↑x = n.toward x := by
  unfold Node.cell Cell.toward Node.toward
  by_cases h : a = head ∧ n.name = []
  · rw [if_pos h, if_neg not_lt_bot, h.2, if_neg]
    simp [strcmp_lt_zero]
  · rw [if_neg h]
    simp only [WithBot.coe_lt_coe, strcmp_lt_zero]

theorem cell_setToward : (n.setToward x d).cell a = (n.cell a).setToward ↑x d := by
  unfold Node.cell Cell.setToward Node.setToward
  by_cases h : a = head ∧ n.name = []
  · have hx : ¬ strcmp x n.name < 0 := by simp [strcmp_lt_zero, h.2]
    rw [if_neg hx, if_pos h, if_neg not_lt_bot]
  · rw [if_neg h]
    simp only [WithBot.coe_lt_coe, strcmp_lt_zero]
    by_cases hx : x < n.name
    · rw [if_pos hx, if_pos hx]
      simp only [h, ↓reduceIte]
    · rw [if_neg hx, if_neg hx]
      simp only [h, ↓reduceIte]

theorem cells_of_mem (h : db.mem a = some n) : db.cells a = some (n.cell a) := by
  simp [Db.cells, h]

theorem cells_congr (h : db'.mem a = db.mem a) : db'.cells a = db.cells a := by
  simp [Db.cells, h]

/-! ## The whole tree -/

theorem lookup_whole : (whole t).lookup ↑x = t.lookup ↑x := by
  simp [whole, lookup]

theorem put_whole {w : CString} : (whole t).put a ↑x w = whole (t.put a ↑x w) := by
  simp [whole, put]

theorem cut_whole : (whole t).cut ↑x = whole (t.cut ↑x) := by
  simp [whole, cut]

theorem head_mem_trail : head ∈ (whole t).trail ↑x :=
  root_mem_trail WithBot.coe_ne_bot

theorem head_mem : head ∈ (whole t).addrs := by
  simp [whole, addrs]

/-- The nodes with a child are not below themselves. -/
theorem ne_head_of_link {left : Bool} (hd : (whole t).addrs.Nodup) (h : Link (whole t) p left d) :
    d ≠ head :=
  h.ne_root hd

namespace Holds

/-- Every node of the tree is in memory. -/
theorem node_at (ht : Holds db t) (ha : a ∈ (whole t).addrs) :
    ∃ l k v r n, Sub (node l a k v r) (whole t) ∧ db.mem a = some n ∧
      n.cell a = ⟨k, v, l.root, r.root⟩ := by
  obtain ⟨-, l, k, v, r, hs, hc⟩ := ht.rep.cell ha
  obtain ⟨n, hn, hc⟩ := Option.map_eq_some_iff.mp hc
  exact ⟨l, k, v, r, n, hs, hn, hc⟩

/-- The node at a place of the search for `x`, with the subtree that the search
enters from there. -/
theorem at_trail (ht : Holds db t) (hp : p ∈ (whole t).trail ↑x) (hn : db.mem p = some n) :
    ∃ l k v r, Sub (node l p k v r) (whole t) ∧
      Rep db.cells ((node l p k v r).toward (x : WithBot CString)) ∧
      ((node l p k v r).toward (x : WithBot CString)).root = n.toward x := by
  obtain ⟨l, k, v, r, n', hs, -, -⟩ := ht.node_at (trail_subset hp)
  have hrep := ht.rep.sub hs
  refine ⟨l, k, v, r, hs, ?_, ?_⟩
  · obtain ⟨-, -, hl, hr⟩ := hrep
    simp only [Tree.toward]
    split_ifs
    · exact hl
    · exact hr
  · rw [← hrep.toward (cells_of_mem hn), cell_toward]

/-- A search that meets a null pointer misses. -/
theorem lookup_none (ht : Holds db t) (hp : p ∈ (whole t).trail ↑x) (hn : db.mem p = some n)
    (h0 : n.toward x = 0) : t.lookup ↑x = none := by
  obtain ⟨l, k, v, r, hs, hrep, hroot⟩ := ht.at_trail hp hn
  rw [← lookup_whole]
  exact lookup_of_toward ht.nodup hs hp (hrep.root_eq_zero.mp (hroot.trans h0))

/-- The next node of a search. -/
theorem child (ht : Holds db t) (hp : p ∈ (whole t).trail ↑x) (hn : db.mem p = some n)
    (h0 : n.toward x ≠ 0) : ∃ l k v r l' r' dn, Sub (node l p k v r) (whole t) ∧
      (node l p k v r).toward ↑x = node l' (n.toward x) ↑dn.name dn.value r' ∧
      Sub (node l' (n.toward x) ↑dn.name dn.value r') t ∧
      db.mem (n.toward x) = some dn ∧ l'.root = dn.lchild ∧ r'.root = dn.rchild := by
  obtain ⟨l, k, v, r, hs, hrep, hroot⟩ := ht.at_trail hp hn
  obtain ⟨l', k', v', r', heq⟩ := hrep.eq_node (hroot.trans_ne h0)
  rw [hroot] at heq
  have hlink : ∃ left, Link (whole t) p left (n.toward x) := by
    simp only [Tree.toward] at heq
    split_ifs at heq
    · exact ⟨true, l, k, v, r, hs, by simp [heq], by simp [heq, root]⟩
    · exact ⟨false, l, k, v, r, hs, by simp [heq], by simp [heq, root]⟩
  obtain ⟨left, hlink⟩ := hlink
  have hhead := ne_head_of_link ht.nodup hlink
  have hsub : Sub (node l' (n.toward x) k' v' r') t := by
    have hsub : Sub (node l' (n.toward x) k' v' r') (whole t) := by
      simp only [Tree.toward] at heq
      split_ifs at heq
      · exact heq ▸ hs.left (by simp [heq])
      · exact heq ▸ hs.right (by simp [heq])
    rcases hsub with hroot | hsub | hsub
    · simp only [node.injEq] at hroot
      exact absurd hroot.2.1 hhead
    · exact hsub.elim
    · exact hsub
  rw [heq] at hrep
  obtain ⟨dn, hdn, hcell⟩ := Option.map_eq_some_iff.mp hrep.2.1
  simp only [Node.cell, hhead, false_and, ↓reduceIte, Cell.mk.injEq] at hcell
  obtain ⟨rfl, rfl, hl, hr⟩ := hcell
  exact ⟨l, k, v, r, l', r', dn, hs, heq, hsub, hdn, hl.symm, hr.symm⟩

/-- A search goes on at a node with another name. -/
theorem trail_child (ht : Holds db t) (hp : p ∈ (whole t).trail ↑x) (hn : db.mem p = some n)
    (hd : db.mem (n.toward x) = some dn) (h0 : n.toward x ≠ 0) (hx : x ≠ dn.name) :
    n.toward x ∈ (whole t).trail ↑x := by
  obtain ⟨l, k, v, r, l', r', dn', hs, heq, -, hdn, -⟩ := ht.child hp hn h0
  rw [hd] at hdn
  cases hdn
  exact trail_toward ht.nodup hs hp heq fun h => hx (WithBot.coe_injective h)

/-- The value found is the one of the map. -/
theorem lookup_child (ht : Holds db t) (hp : p ∈ (whole t).trail ↑x) (hn : db.mem p = some n)
    (hd : db.mem (n.toward x) = some dn) (h0 : n.toward x ≠ 0) (hx : x = dn.name) :
    t.lookup ↑x = some dn.value := by
  obtain ⟨l, k, v, r, l', r', dn', -, -, hsub, hdn, -⟩ := ht.child hp hn h0
  rw [hd] at hdn
  cases hdn
  rw [hx]
  exact lookup_of_sub ht.ordered.2.1 hsub

/-! ## Edits -/

/-- A new node is linked in where a search ended. -/
theorem add {w : CString} {an : Node} (ht : Holds db t) (hp : p ∈ (whole t).trail ↑x)
    (hn : db.mem p = some n) (hnull : n.toward x = 0) (ha0 : a ≠ 0) (ha : a ∉ (whole t).addrs)
    (han : db'.mem a = some an) (hname : an.name = x) (hval : an.value = w)
    (hl : an.lchild = 0) (hr : an.rchild = 0) (hp' : db'.mem p = some (n.setToward x a))
    (hmem : ∀ b, b ≠ p → b ≠ a → db'.mem b = db.mem b) :
    Holds db' (t.put a ↑x w) ∧ (whole (t.put a ↑x w)).addrs.Perm (a :: (whole t).addrs) := by
  obtain ⟨l, k, v, r, hs, hrep, hroot⟩ := ht.at_trail hp hn
  have hleaf := hrep.root_eq_zero.mp (hroot.trans hnull)
  have hput := put_eq_graft (a := a) (w := w) ht.nodup hs hp hleaf
  have hhead : a ≠ head := fun h => ha (h ▸ head_mem)
  have hnew : Rep db'.cells (node leaf a ↑x w leaf) := by
    refine ⟨ha0, ?_, trivial, trivial⟩
    rw [cells_of_mem han]
    simp [Node.cell, hhead, hname, hval, hl, hr, root]
  have hperm : (whole (t.put a ↑x w)).addrs.Perm (a :: (whole t).addrs) := by
    have h := addrs_graft (node leaf a ↑x w leaf) ht.nodup hs hp hleaf
    rw [← hput, put_whole] at h
    simp only [addrs, List.nil_append, List.append_nil] at h
    exact h.trans List.perm_append_comm
  refine ⟨⟨?_, ?_, ?_⟩, hperm⟩
  · rw [← put_whole, hput]
    refine ht.rep.graft ht.nodup hs hp hleaf (cells_of_mem hn) hnew ?_ ?_
    · rw [cells_of_mem hp', cell_setToward, root]
    · intro b hb hbp _
      exact cells_congr (hmem b hbp fun h => ha (h ▸ hb))
  · rw [hperm.nodup_iff]
    exact List.nodup_cons.mpr ⟨ha, ht.nodup⟩
  · rw [← put_whole]
    exact ht.ordered.put

/-- The entry at the end of a search is deleted, the subtree there being
rebuilt already. -/
theorem graft_delRoot {l' r' : NTree} {v' : CString} {k : WithBot CString} {v : CString}
    (ht : Holds db t) (hp : p ∈ (whole t).trail ↑x) (hn : db.mem p = some n)
    (hs : Sub (node l p k v r) (whole t)) (heq : (node l p k v r).toward ↑x = node l' d ↑x v' r')
    (hdel : Rep db'.cells (node l' d ↑x v' r').delRoot)
    (hp' : db'.mem p = some (n.setToward x (node l' d ↑x v' r').delRoot.root))
    (hmem : ∀ b ∈ (whole t).addrs, b ≠ p → b ∉ (node l' d ↑x v' r').addrs →
      db'.mem b = db.mem b) :
    Holds db' (t.cut ↑x) ∧
      (whole t).addrs.Perm ((node l' d ↑x v' r').leaver ++ (whole (t.cut ↑x)).addrs) := by
  have hcut := cut_eq_graft ht.nodup hs hp heq
  have hperm : (whole t).addrs.Perm
      ((node l' d ↑x v' r').leaver ++ (whole (t.cut ↑x)).addrs) := by
    have h1 := List.perm_iff_count.mp
      (addrs_graft (node l' d ↑x v' r').delRoot ht.nodup hs hp heq)
    have h2 := List.perm_iff_count.mp (addrs_delRoot (t := node l' d ↑x v' r'))
    rw [← hcut, cut_whole] at h1
    rw [List.perm_iff_count]
    intro c
    have h1 := h1 c
    have h2 := h2 c
    simp only [List.count_append] at h1 h2 ⊢
    omega
  refine ⟨⟨?_, ?_, ?_⟩, hperm⟩
  · rw [← cut_whole, hcut]
    refine ht.rep.graft ht.nodup hs hp heq (cells_of_mem hn) hdel ?_ ?_
    · rw [cells_of_mem hp', cell_setToward]
    · exact fun b hb hbp hbs => cells_congr (hmem b hb hbp hbs)
  · exact (List.nodup_append.mp (hperm.nodup_iff.mp ht.nodup)).2.1
  · rw [← cut_whole]
    exact ht.ordered.cut

end Holds

end CourseProjects.Database

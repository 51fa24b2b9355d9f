import CourseProjects.Database.Shape
import Mathlib.Data.List.Chain

/-!
# The three shapes of a removal

`Walked` is what the loop in `db_remove` has established: it stands at `next`
with `pnext` the pointer to it, after the nodes of `L`.
-/

namespace CourseProjects.Database

open TreeHeap SearchTree SearchTree.Tree

inductive Walked (db : Db) (dnode : Addr) : Addr → Addr × Field → List Addr → Prop
  | start {d : Node} : db.mem dnode = some d → Walked db dnode d.rchild (dnode, .rchild) [d.rchild]
  | step {next : Addr} {pnext : Addr × Field} {L : List Addr} {n : Node} :
      Walked db dnode next pnext L → db.mem next = some n → n.lchild ≠ 0 →
      Walked db dnode n.lchild (next, .lchild) (L ++ [n.lchild])

variable {db db' : Db} {t l r : NTree} {a p d next : Addr} {x : CString} {n dn nn : Node}
  {pnext : Addr × Field} {L : List Addr}

namespace Walked

theorem getLast (h : Walked db d next pnext L) : L.getLast? = some next := by
  cases h with
  | start => rfl
  | step => exact List.getLast?_concat

theorem head (h : Walked db d next pnext L) (hd : db.mem d = some dn) :
    L.head? = some dn.rchild := by
  induction h with
  | start hd' =>
    rw [hd] at hd'
    cases hd'
    rfl
  | step _ _ _ ih =>
    rw [List.head?_append, ih]
    rfl

theorem chain (h : Walked db d next pnext L) :
    L.IsChain fun a b => ∃ c, db.cells a = some c ∧ c.left = b ∧ b ≠ 0 := by
  induction h with
  | start => exact List.isChain_singleton _
  | @step next pnext L n hw hn h0 ih =>
    refine List.isChain_append.mpr ⟨ih, List.isChain_singleton _, ?_⟩
    intro a ha b hb
    rw [Option.mem_def, hw.getLast] at ha
    cases ha
    cases hb
    exact ⟨_, cells_of_mem hn, rfl, h0⟩

/-- The pointer to the node that the walk has reached. -/
theorem pointer (h : Walked db d next pnext L) :
    (pnext = (d, .rchild) ∧ L = [next]) ∨
      ∃ q M, pnext = (q, .lchild) ∧ L = M ++ [q, next] := by
  cases h with
  | start => exact Or.inl ⟨rfl, rfl⟩
  | @step q pnext M n hw =>
    obtain ⟨M', hM⟩ := List.getLast?_eq_some_iff.mp hw.getLast
    exact Or.inr ⟨q, M', rfl, by rw [hM, List.append_assoc]; rfl⟩

theorem pointer_mem (h : Walked db d next pnext L) : ∃ m, db.mem pnext.1 = some m := by
  cases h with
  | start hd => exact ⟨_, hd⟩
  | step _ hn _ => exact ⟨_, hn⟩

theorem congr (h : Walked db d next pnext L) (hd : db'.mem d = db.mem d)
    (heq : ∀ b ∈ L, db'.mem b = db.mem b) : Walked db' d next pnext L := by
  induction h with
  | start hdn => exact .start (hd.trans hdn)
  | @step next pnext L n hw hn h0 ih =>
    have hnext : next ∈ L := List.mem_of_getLast? hw.getLast
    refine .step (ih fun b hb => heq b (List.mem_append_left _ hb)) ?_ h0
    rw [heq next (List.mem_append_left _ hnext), hn]

end Walked

/-! ## The edits -/

theorem cell_of_ne_head (ha : a ≠ head) :
    n.cell a = ⟨n.name, n.value, n.lchild, n.rchild⟩ := by
  simp [Node.cell, ha]

namespace Holds

theorem not_mem_toward {k : WithBot CString} {v : CString} (hd : (whole t).addrs.Nodup)
    (hs : Sub (node l p k v r) (whole t)) :
    p ∉ ((node l p k v r).toward (x : WithBot CString)).addrs := by
  obtain ⟨-, -, hl, hr, -⟩ := nodup_node (hs.nodup hd)
  intro h
  rcases List.mem_append.mp (toward_subset h) with h | h
  · exact hl h
  · exact hr h

theorem ne_child (ht : Holds db t) (hp : p ∈ (whole t).trail ↑x) (hn : db.mem p = some n)
    (h0 : n.toward x ≠ 0) : p ≠ n.toward x := by
  obtain ⟨l, k, v, r, l', r', dn, hs, heq, -⟩ := ht.child hp hn h0
  have hpt := not_mem_toward (x := x) ht.nodup hs
  rw [heq] at hpt
  exact fun h => hpt (by simp [addrs, ← h])

/-- A node with at most one child gives its place to that child. -/
theorem remove_one {c : Addr} (ht : Holds db t) (hp : p ∈ (whole t).trail ↑x)
    (hn : db.mem p = some n) (hd : db.mem (n.toward x) = some dn) (h0 : n.toward x ≠ 0)
    (hx : x = dn.name) (hc : dn.rchild = 0 ∧ c = dn.lchild ∨ dn.lchild = 0 ∧ c = dn.rchild)
    (hp' : db'.mem p = some (n.setToward x c))
    (hmem : ∀ b, b ≠ p → b ≠ n.toward x → db'.mem b = db.mem b) :
    Holds db' (t.cut ↑x) ∧
      (whole t).addrs.Perm (n.toward x :: (whole (t.cut ↑x)).addrs) := by
  obtain ⟨l, k, v, r, l', r', dn', hs, heq, hsub, hdn, hl, hr⟩ := ht.child hp hn h0
  rw [hd] at hdn
  cases hdn
  subst hx
  have hrep := ht.rep.sub (Or.inr (Or.inr hsub))
  obtain ⟨-, -, hrl, hrr⟩ := hrep
  have hnd := ht.nodup
  have hpt := not_mem_toward (x := dn.name) hnd hs
  rw [heq] at hpt
  have hsn : Sub (node l' (n.toward dn.name) ↑dn.name dn.value r') (whole t) :=
    Or.inr (Or.inr hsub)
  obtain ⟨-, -, hal, har, -⟩ := nodup_node (hsn.nodup hnd)
  have hcl : Rep db'.cells l' := hrl.congr fun b hb => cells_congr (hmem b
    (fun h => hpt (h ▸ by simp [addrs, hb])) fun h => hal (h ▸ hb))
  have hcr : Rep db'.cells r' := hrr.congr fun b hb => cells_congr (hmem b
    (fun h => hpt (h ▸ by simp [addrs, hb])) fun h => har (h ▸ hb))
  have hdel : Rep db'.cells (node l' (n.toward dn.name) ↑dn.name dn.value r').delRoot ∧
      (node l' (n.toward dn.name) ↑dn.name dn.value r').delRoot.root = c ∧
      (node l' (n.toward dn.name) (↑dn.name : WithBot CString) dn.value r').leaver =
        [n.toward dn.name] := by
    by_cases hrleaf : r' = leaf
    · subst hrleaf
      rw [delRoot_of_right]
      refine ⟨hcl, ?_, ?_⟩
      · rcases hc with ⟨-, rfl⟩ | ⟨h, rfl⟩
        · exact hl
        · rw [hl, h, ← hr]
          rfl
      · simp [leaver, isLeaf]
    · rcases hc with ⟨h, -⟩ | ⟨h, rfl⟩
      · exact absurd (hrr.root_eq_zero.mp (hr.trans h)) hrleaf
      · have hlleaf := hrl.root_eq_zero.mp (hl.trans h)
        subst hlleaf
        rw [delRoot_of_left hrleaf]
        exact ⟨hcr, hr, by simp [leaver, isLeaf]⟩
  obtain ⟨hdel, hroot, hleaver⟩ := hdel
  have := ht.graft_delRoot hp hn hs heq hdel (by rw [hroot, hp']) fun b _ hbp hbs =>
    hmem b hbp fun h => hbs (h ▸ by simp [addrs])
  rwa [hleaver] at this

theorem ne_head (ht : Holds db t) (ha : a ∈ t.addrs) : a ≠ CourseProjects.Database.head := by
  rintro rfl
  exact (nodup_node ht.nodup).2.2.2.1 ha

/-- Unlinking the node at the end of the walk removes the least entry from the
right subtree. -/
theorem delMin_of_walk {e : Node} (hr : Rep db.cells r) (hnd : r.addrs.Nodup) (hd : d ∉ r.addrs)
    (hhead : ∀ b ∈ r.addrs, b ≠ CourseProjects.Database.head) (hw : Walked db d next pnext L)
    (hL : L = r.spine) (hnn : db.mem next = some nn) (hroot : r.root = e.rchild)
    (hmem : ∀ b, b ≠ next → db'.mem b =
      ((db.set d (some e)).modify pnext.1 (Node.setField pnext.2 nn.rchild)).mem b) :
    Rep db'.cells r.delMin ∧ db'.mem d = some { e with rchild := r.delMin.root } := by
  have hsp : ∀ b ∈ r.spine, b ∈ r.addrs := fun b hb => spine_subset hb
  have hnext : next ∈ r.addrs := hsp next (hL ▸ List.mem_of_getLast? hw.getLast)
  have hdnext : d ≠ next := fun h => hd (h ▸ hnext)
  have hncell := cells_of_mem hnn
  rw [cell_of_ne_head (hhead next hnext)] at hncell
  have hback : ∀ b ∈ r.addrs, b ≠ next → b ≠ pnext.1 → db'.mem b = db.mem b := by
    intro b hb hbn hbp
    have hbd : b ≠ d := fun h => hd (h ▸ hb)
    rw [hmem b hbn, Db.modify_mem_ne _ _ hbp, Db.set_mem_ne _ _ hbd]
  rcases hw.pointer with ⟨rfl, hone⟩ | ⟨q, M, rfl, hmany⟩
  · -- the successor is the right child itself
    obtain ⟨rr, rfl, hrr, hrep⟩ := hr.root_of_spine (hL ▸ hone) hncell
    rw [delMin_of_leaf]
    refine ⟨hrep.congr fun b hb => cells_congr (hback b (by simp [addrs, hb]) ?_ ?_), ?_⟩
    · exact fun h => (nodup_node hnd).2.2.2.1 (h ▸ hb)
    · rintro rfl
      exact hd (by simp [addrs, hb])
    · rw [hmem _ hdnext, Db.modify_mem_self _ _ (Db.set_mem_self _ _ _), hrr]
      rfl
  · have hqr : q ∈ r.addrs := hsp q (by rw [← hL, hmany]; simp)
    have hqn : q ≠ next := by
      have hnd' := spine_nodup hnd
      rw [← hL, hmany] at hnd'
      intro h
      rw [h] at hnd'
      simp [List.nodup_append] at hnd'
    have hqd : q ≠ d := fun h => hd (h ▸ hqr)
    obtain ⟨-, ql, qk, qv, qr, -, hqc⟩ := hr.cell hqr
    obtain ⟨qn, hqm, -⟩ := Option.map_eq_some_iff.mp hqc
    have hqcell := cells_of_mem hqm
    have hq' : db'.mem q = some (qn.setField .lchild nn.rchild) := by
      rw [hmem q hqn, Db.modify_mem_self _ _ ((Db.set_mem_ne _ _ hqd).trans hqm)]
    have hqcell' : db'.cells q = some { qn.cell q with left := nn.rchild } := by
      rw [cells_of_mem hq']
      simp [cell_of_ne_head (hhead q hqr), Node.setField]
    obtain ⟨hrep, hroot'⟩ := hr.delMin hnd (hL ▸ hmany) hqcell hncell hqcell'
      fun b hb hbq hbn => cells_congr (hback b hb hbn hbq)
    refine ⟨hrep, ?_⟩
    rw [hmem _ hdnext, Db.modify_mem_ne _ _ (Ne.symm hqd), Db.set_mem_self, hroot', hroot]

/-- A node with two children takes over the entry of its successor, which is
unlinked from the pointer that the walk has kept. -/
theorem remove_two (ht : Holds db t) (hp : p ∈ (whole t).trail ↑x)
    (hn : db.mem p = some n) (hd : db.mem (n.toward x) = some dn) (h0 : n.toward x ≠ 0)
    (hx : x = dn.name) (hl0 : dn.lchild ≠ 0) (hr0 : dn.rchild ≠ 0)
    (hw : Walked db (n.toward x) next pnext L) (hnn : db.mem next = some nn)
    (hleft : nn.lchild = 0)
    (hmem : ∀ b, b ≠ next → db'.mem b =
      ((db.set (n.toward x) (some { dn with name := nn.name, value := nn.value })).modify
        pnext.1 (Node.setField pnext.2 nn.rchild)).mem b) :
    Holds db' (t.cut ↑x) ∧ (whole t).addrs.Perm (next :: (whole (t.cut ↑x)).addrs) := by
  obtain ⟨l, k, v, r, l', r', dn', hs, heq, hsub, hdn, hl, hr⟩ := ht.child hp hn h0
  rw [hd] at hdn
  cases hdn
  subst hx
  obtain ⟨-, -, hrl, hrr⟩ := ht.rep.sub (Or.inr (Or.inr hsub))
  have hsn : Sub (node l' (n.toward dn.name) ↑dn.name dn.value r') (whole t) :=
    Or.inr (Or.inr hsub)
  obtain ⟨-, hndr, hal, har, hlr⟩ := nodup_node (hsn.nodup ht.nodup)
  have hpt := not_mem_toward (x := dn.name) ht.nodup hs
  rw [heq] at hpt
  have hlne : l' ≠ leaf := fun h => hl0 (hl ▸ hrl.root_eq_zero.mpr h)
  have hrne : r' ≠ leaf := fun h => hr0 (hr ▸ hrr.root_eq_zero.mpr h)
  have hrt : ∀ b ∈ r'.addrs, b ≠ CourseProjects.Database.head := fun b hb =>
    ht.ne_head (hsub.addrs_subset (List.mem_append_right _ (List.mem_cons_of_mem _ hb)))
  have hspine : L = r'.spine := hrr.spine_of_walk (by rw [hw.head hd, hr]) hw.chain hw.getLast
    (cells_of_mem hnn) hleft hrne
  have hLr : ∀ b ∈ L, b ∈ r'.addrs := fun b hb => spine_subset (hspine ▸ hb)
  have hnext := hLr next (List.mem_of_getLast? hw.getLast)
  have hncell := cells_of_mem hnn
  rw [cell_of_ne_head (hrt _ hnext)] at hncell
  have hfirst := (hrr.first (hspine ▸ hw.getLast) hncell (↑dn.name, dn.value)).1
  obtain ⟨hright, hd'⟩ :=
    delMin_of_walk (e := { dn with name := nn.name, value := nn.value }) hrr hndr har hrt hw
      hspine hnn hr hmem
  -- the left subtree and the nodes outside are as before
  have hout : ∀ b, b ≠ n.toward dn.name → b ∉ r'.addrs → db'.mem b = db.mem b := by
    intro b hbd hbr
    have hbp : b ≠ pnext.1 := by
      rcases hw.pointer with ⟨rfl, -⟩ | ⟨q, M, rfl, hmany⟩
      · exact hbd
      · exact fun h => hbr (h ▸ hLr q (by simp [hmany]))
    rw [hmem b (fun h => hbr (h ▸ hnext)), Db.modify_mem_ne _ _ hbp, Db.set_mem_ne _ _ hbd]
  have hleftRep : Rep db'.cells l' := hrl.congr fun b hb => cells_congr
    (hout b (fun h => hal (h ▸ hb)) (hlr b hb))
  have hdel := delRoot_of_ne (a := n.toward dn.name) (k := (↑dn.name : WithBot CString))
    (v := dn.value) hlne hrne
  have hrep : Rep db'.cells (node l' (n.toward dn.name) ↑dn.name dn.value r').delRoot := by
    rw [hdel, hfirst]
    refine ⟨h0, ?_, hleftRep, hright⟩
    rw [cells_of_mem hd', cell_of_ne_head (ht.ne_head hsub.mem), hl]
  have hroot : (node l' (n.toward dn.name) (↑dn.name : WithBot CString) dn.value r').delRoot.root =
      n.toward dn.name := by
    rw [hdel]
    rfl
  have hpn : db'.mem p = some n := by
    rw [hout p (fun h => hpt (h ▸ by simp [addrs])) (fun h => hpt (by simp [addrs, h])), hn]
  have hleaver : (node l' (n.toward dn.name) (↑dn.name : WithBot CString) dn.value r').leaver =
      [next] := by
    simp only [leaver, isLeaf_false hlne, isLeaf_false hrne, Bool.or_self, Bool.false_eq_true,
      ↓reduceIte, ← hspine, hw.getLast, Option.toList_some]
  have := ht.graft_delRoot hp hn hs heq hrep
    (by rw [hroot, Node.setToward_self rfl, hpn]) fun b _ hbp hbs =>
      hout b (fun h => hbs (by simp [addrs, h])) fun h => hbs (by simp [addrs, h])
  rwa [hleaver] at this

end Holds

end CourseProjects.Database

import CourseProjects.Database.Threads

/-!
# Where a thread stands in the tree

`Place` says for each `Pc` which locks the thread holds, what it knows of the
nodes under them, and its path: the nodes that it may change without a lock,
because its walk has passed them or because they have left the tree. A step
that leaves all these nodes alone leaves the thread in its place.
-/

namespace CourseProjects.Database

open TreeHeap SearchTree SearchTree.Tree History

variable {db db' : Db} {t t' : NTree} {a b d p q next : Addr} {x name : CString} {n dn nn : Node}
  {pnext : Addr × Field} {L as : List Addr} {left : Bool}

/-! ## Links in memory -/

theorem Holds.link_left (ht : Holds db t) (hp : p ∈ (whole t).addrs) (hn : db.mem p = some n)
    (h0 : n.lchild ≠ 0) : Link (whole t) p true n.lchild := by
  obtain ⟨l, k, v, r, m, hs, hm, hcell⟩ := ht.node_at hp
  rw [hn] at hm
  cases hm
  have hl : n.lchild = l.root := congrArg Cell.left hcell
  refine ⟨l, k, v, r, hs, ?_, hl.symm⟩
  rintro rfl
  exact h0 hl

theorem Holds.link_right (ht : Holds db t) (hp : p ∈ (whole t).addrs) (hn : db.mem p = some n)
    (h0 : n.rchild ≠ 0) : Link (whole t) p false n.rchild := by
  obtain ⟨l, k, v, r, m, hs, hm, hcell⟩ := ht.node_at hp
  rw [hn] at hm
  cases hm
  have hr : n.rchild = r.root := congrArg Cell.right hcell
  refine ⟨l, k, v, r, hs, ?_, hr.symm⟩
  rintro rfl
  exact h0 hr

theorem Holds.link_toward (ht : Holds db t) (hp : p ∈ (whole t).addrs) (hn : db.mem p = some n)
    (h0 : n.toward x ≠ 0) : ∃ left, Link (whole t) p left (n.toward x) := by
  unfold Node.toward at h0 ⊢
  split_ifs at h0 ⊢
  · exact ⟨true, ht.link_left hp hn h0⟩
  · exact ⟨false, ht.link_right hp hn h0⟩

namespace Walked

/-- The nodes of a walk hang on `dnode` and on each other. -/
theorem link (hw : Walked db d next pnext L) (ht : Holds db t) (hd : d ∈ (whole t).addrs)
    (hdn : db.mem d = some dn) (h0 : dn.rchild ≠ 0) (hb : b ∈ L) :
    ∃ q left, Link (whole t) q left b ∧ (q = d ∧ b = dn.rchild ∨ q ∈ L) := by
  induction hw generalizing b with
  | start hd' =>
    rw [hdn] at hd'
    cases hd'
    rw [List.mem_singleton.mp hb]
    exact ⟨d, false, ht.link_right hd hdn h0, Or.inl ⟨rfl, rfl⟩⟩
  | @step next pnext L n hw hn hl ih =>
    rcases List.mem_append.mp hb with hb | hb
    · obtain ⟨q, left, hlink, hq⟩ := ih hb
      exact ⟨q, left, hlink, hq.imp_right (List.mem_append_left _)⟩
    · rw [List.mem_singleton.mp hb]
      have hnext : next ∈ L := List.mem_of_getLast? hw.getLast
      obtain ⟨q, left, hlink, -⟩ := ih hnext
      exact ⟨next, true, ht.link_left hlink.mem_child hn hl, Or.inr (List.mem_append_left _ hnext)⟩

theorem mem_tree (hw : Walked db d next pnext L) (ht : Holds db t) (hd : d ∈ (whole t).addrs)
    (hdn : db.mem d = some dn) (h0 : dn.rchild ≠ 0) (hb : b ∈ L) : b ∈ (whole t).addrs := by
  obtain ⟨q, left, hlink, -⟩ := hw.link ht hd hdn h0 hb
  exact hlink.mem_child

/-- A walk goes downwards. -/
theorem sizeAt_le (hw : Walked db d next pnext L) (ht : Holds db t) (hd : d ∈ (whole t).addrs)
    (hdn : db.mem d = some dn) (h0 : dn.rchild ≠ 0) (hb : b ∈ L) :
    (whole t).sizeAt b ≤ (whole t).sizeAt dn.rchild := by
  induction hw generalizing b with
  | start hd' =>
    rw [hdn] at hd'
    cases hd'
    rw [List.mem_singleton.mp hb]
  | @step next pnext L n hw hn hl ih =>
    rcases List.mem_append.mp hb with hb | hb
    · exact ih hb
    · have hnext : next ∈ L := List.mem_of_getLast? hw.getLast
      have hlink := ht.link_left (hw.mem_tree ht hd hdn h0 hnext) hn hl
      rw [List.mem_singleton.mp hb]
      exact le_trans (Nat.le_of_lt (hlink.sizeAt_lt ht.nodup)) (ih hnext)

/-- Of two walks that meet, one has come past the start of the other. -/
theorem meet {d' next' : Addr} {pnext' : Addr × Field} {L' : List Addr} {dn' : Node}
    (hw : Walked db d next pnext L) (hw' : Walked db d' next' pnext' L') (ht : Holds db t)
    (hd : d ∈ (whole t).addrs) (hdn : db.mem d = some dn) (h0 : dn.rchild ≠ 0)
    (hd' : d' ∈ (whole t).addrs) (hdn' : db.mem d' = some dn') (h0' : dn'.rchild ≠ 0)
    (hb : b ∈ L) (hb' : b ∈ L') : dn.rchild ∈ L' ∨ dn'.rchild ∈ L := by
  induction hw generalizing b with
  | start hd'' =>
    rw [hdn] at hd''
    cases hd''
    rw [List.mem_singleton.mp hb] at hb'
    exact Or.inl hb'
  | @step next pnext L n hw hn hl ih =>
    rcases List.mem_append.mp hb with hb | hb
    · exact (ih hb hb').imp_right (List.mem_append_left _)
    · have hnext : next ∈ L := List.mem_of_getLast? hw.getLast
      rw [List.mem_singleton.mp hb] at hb'
      obtain ⟨q, left, hlink, hq⟩ := hw'.link ht hd' hdn' h0' hb'
      have hchild := ht.link_left (hw.mem_tree ht hd hdn h0 hnext) hn hl
      rw [← (hchild.unique ht.nodup hlink).1] at hq
      rcases hq with ⟨-, heq⟩ | hq
      · exact Or.inr (List.mem_append_right _ (List.mem_singleton.mpr heq.symm))
      · exact (ih hnext hq).imp_right (List.mem_append_left _)

end Walked

/-! ## Places -/

/-- `dnode` is the node of the name, below `parent`, and has two children. -/
structure Target (db : Db) (t : NTree) (name : CString) (parent dnode : Addr) (n dn : Node) :
    Prop where
  trail : parent ∈ (whole t).trail ↑name
  parent : db.mem parent = some n
  toward : n.toward name = dnode
  ne_zero : dnode ≠ 0
  dnode : db.mem dnode = some dn
  name : name = dn.name
  left : dn.lchild ≠ 0
  right : dn.rchild ≠ 0

namespace Target

variable (h : Target db t name p d n dn)
include h

theorem link (ht : Holds db t) : ∃ left, Link (whole t) p left d := by
  obtain ⟨hp, hn, rfl, h0, -⟩ := h
  exact ht.link_toward (trail_subset hp) hn h0

theorem mem_tree (ht : Holds db t) : d ∈ (whole t).addrs := by
  obtain ⟨left, hlink⟩ := h.link ht
  exact hlink.mem_child

/-- The nodes of the walk lie below `dnode`, and that lies below `parent`. -/
theorem sizes (ht : Holds db t) (hw : Walked db d next pnext L) (hb : b ∈ L) :
    (whole t).sizeAt b < (whole t).sizeAt d ∧ (whole t).sizeAt d < (whole t).sizeAt p := by
  have hd := h.mem_tree ht
  obtain ⟨left, hlink⟩ := h.link ht
  have hright := (ht.link_right hd h.dnode h.right).sizeAt_lt ht.nodup
  exact ⟨lt_of_le_of_lt (hw.sizeAt_le ht hd h.dnode h.right hb) hright, hlink.sizeAt_lt ht.nodup⟩

/-- The right child lies below the two nodes. -/
theorem right_lt (ht : Holds db t) :
    ∀ b ∈ [p, d], (whole t).sizeAt dn.rchild < (whole t).sizeAt b := by
  have hlink := ht.link_right (h.mem_tree ht) h.dnode h.right
  have hlt := hlink.sizeAt_lt ht.nodup
  obtain ⟨left, hup⟩ := h.link ht
  intro b hb
  simp only [List.mem_cons, List.not_mem_nil, or_false] at hb
  rcases hb with rfl | rfl
  · exact lt_trans hlt (hup.sizeAt_lt ht.nodup)
  · exact hlt

/-- A left child that the walk comes to lies below all three. -/
theorem left_lt {nn : Node} (ht : Holds db t) (hw : Walked db d next pnext L)
    (hn : db.mem next = some nn) (h0 : nn.lchild ≠ 0) :
    ∀ b ∈ [p, d, dn.rchild], (whole t).sizeAt nn.lchild < (whole t).sizeAt b := by
  have hnext := List.mem_of_getLast? hw.getLast
  have hd := h.mem_tree ht
  have hlink := ht.link_left (hw.mem_tree ht hd h.dnode h.right hnext) hn h0
  have hlt := hlink.sizeAt_lt ht.nodup
  obtain ⟨hnd, hdp⟩ := h.sizes ht hw hnext
  intro b hb
  simp only [List.mem_cons, List.not_mem_nil, or_false] at hb
  rcases hb with rfl | rfl | rfl
  · exact lt_trans (lt_trans hlt hnd) hdp
  · exact lt_trans hlt hnd
  · exact lt_of_lt_of_le hlt (hw.sizeAt_le ht hd h.dnode h.right hnext)

theorem frame (hp : db'.mem p = db.mem p) (hd : db'.mem d = db.mem d)
    (htrail : p ∈ (whole t).trail ↑name → p ∈ (whole t').trail ↑name) :
    Target db' t' name p d n dn :=
  ⟨htrail h.trail, hp.trans h.parent, h.toward, h.ne_zero, hd.trans h.dnode, h.name, h.left,
    h.right⟩

end Target

/-- A thread at a `Pc` with the locks it holds, its path, and how far its call
is. -/
inductive Place (db : Db) (t : NTree) :
    Pc → List Addr → List Addr → Status Call Result → Prop
  | idle : Place db t .idle [] [] .idle
  | lockHead {c : Call} : c.Bounded → Place db t (.lockHead c) [] [] (.called c)
  | lockNext {c : Call} {parent : Addr} {n : Node} : c.Bounded → parent ∈ (whole t).trail ↑c.name →
      db.mem parent = some n → n.toward c.name ≠ 0 →
      Place db t (.lockNext c parent (n.toward c.name)) [parent] [] (.called c)
  | unlockParent {c : Call} {parent next : Addr} {n : Node} : c.Bounded →
      next ∈ (whole t).trail ↑c.name → parent ≠ next → db.mem parent = some n →
      Place db t (.unlockParent c parent next) [parent, next] [] (.called c)
  | readValue {name : CString} {len : Nat} {parent target : Addr} {n tn : Node} :
      parent ≠ target → db.mem parent = some n → db.mem target = some tn →
      Place db t (.readValue name len parent target) [parent, target] []
        (.done (.text (snprintf len tn.value)))
  | freeNode {name : CString} {parent dnode : Addr} {n dn : Node} : parent ≠ dnode →
      db.mem parent = some n → db.mem dnode = some dn → dnode ∉ (whole t).addrs →
      Place db t (.freeNode name parent dnode) [parent, dnode] [dnode] (.done (.int 1))
  | lockRight {name : CString} {parent dnode : Addr} {n dn : Node} :
      Target db t name parent dnode n dn →
      Place db t (.lockRight name parent dnode dn.rchild) [parent, dnode] []
        (.called (.remove name))
  | lockLeft {name : CString} {parent dnode next : Addr} {pnext : Addr × Field} {L : List Addr}
      {n dn nn : Node} : Target db t name parent dnode n dn → Walked db dnode next pnext L →
      db.mem next = some nn → nn.lchild ≠ 0 →
      Place db t (.lockLeft name parent dnode next nn.lchild) [parent, dnode, dn.rchild] L
        (.called (.remove name))
  | unlockLeft {name : CString} {parent dnode next : Addr} {pnext : Addr × Field} {L : List Addr}
      {n dn nn : Node} : Target db t name parent dnode n dn → Walked db dnode next pnext L →
      db.mem next = some nn → nn.lchild ≠ 0 →
      Place db t (.unlockLeft name parent dnode next nn.lchild)
        [parent, dnode, dn.rchild, nn.lchild] (L ++ [nn.lchild]) (.called (.remove name))
  | copyUp {name : CString} {parent dnode next : Addr} {pnext : Addr × Field} {L : List Addr}
      {n dn nn : Node} : Target db t name parent dnode n dn → Walked db dnode next pnext L →
      db.mem next = some nn → nn.lchild = 0 →
      Place db t (.copyUp name parent dnode next pnext dn.rchild) [parent, dnode, dn.rchild] L
        (.called (.remove name))
  | release {c : Call} {as : List Addr} {r : Result} : as.Nodup →
      (∀ a ∈ as, ∃ n, db.mem a = some n) → Place db t (.release c as r) as [] (.done r)

/-! ## Frames -/

/-- A thread stays in its place when its nodes are left alone. -/
theorem Place.frame {pc : Pc} {st : Status Call Result} (h : Place db t pc as L st)
    (hheld : ∀ a ∈ as, db'.mem a = db.mem a) (hpath : ∀ a ∈ L, db'.mem a = db.mem a)
    (htrail : ∀ a ∈ as, ∀ x : CString, a ∈ (whole t).trail ↑x → a ∈ (whole t').trail ↑x)
    (hout : ∀ a ∈ as, a ∉ (whole t).addrs → a ∉ (whole t').addrs) : Place db' t' pc as L st := by
  have hwalk : ∀ {d next : Addr} {pnext : Addr × Field} {L' : List Addr}, d ∈ as → L' ⊆ L →
      Walked db d next pnext L' → Walked db' d next pnext L' := fun hd hL hw =>
    hw.congr (hheld _ hd) fun b hb => hpath b (hL hb)
  cases h with
  | idle => exact .idle
  | lockHead hc => exact .lockHead hc
  | lockNext hc ht hn h0 =>
    exact .lockNext hc (htrail _ (by simp) _ ht) ((hheld _ (by simp)).trans hn) h0
  | unlockParent hc ht hne hn =>
    exact .unlockParent hc (htrail _ (by simp) _ ht) hne ((hheld _ (by simp)).trans hn)
  | readValue hne hn htn =>
    exact .readValue hne ((hheld _ (by simp)).trans hn) ((hheld _ (by simp)).trans htn)
  | freeNode hne hn hd hnot =>
    exact .freeNode hne ((hheld _ (by simp)).trans hn) ((hheld _ (by simp)).trans hd)
      (hout _ (by simp) hnot)
  | lockRight ht =>
    exact .lockRight (ht.frame (hheld _ (by simp)) (hheld _ (by simp)) (htrail _ (by simp) _))
  | lockLeft ht hw hn h0 =>
    refine .lockLeft (ht.frame (hheld _ (by simp)) (hheld _ (by simp)) (htrail _ (by simp) _))
      (hwalk (by simp) (fun _ h => h) hw) ?_ h0
    rw [hpath _ (List.mem_of_getLast? hw.getLast), hn]
  | unlockLeft ht hw hn h0 =>
    refine .unlockLeft (ht.frame (hheld _ (by simp)) (hheld _ (by simp)) (htrail _ (by simp) _))
      (hwalk (by simp) (List.subset_append_left _ _) hw) ?_ h0
    rw [hpath _ (List.mem_append_left _ (List.mem_of_getLast? hw.getLast)), hn]
  | copyUp ht hw hn h0 =>
    refine .copyUp (ht.frame (hheld _ (by simp)) (hheld _ (by simp)) (htrail _ (by simp) _))
      (hwalk (by simp) (fun _ h => h) hw) ?_ h0
    rw [hpath _ (List.mem_of_getLast? hw.getLast), hn]
  | release hnd hmem =>
    refine .release hnd fun a ha => ?_
    obtain ⟨n, hn⟩ := hmem a ha
    exact ⟨n, (hheld a ha).trans hn⟩

end CourseProjects.Database

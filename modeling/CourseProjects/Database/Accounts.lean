import CourseProjects.Database.Contents

/-!
# Accounting for the nodes

Every node that is constructed is in the tree until it is destroyed, and it is
destroyed once: by the removal that unlinks it or by the cleanup at the end.
-/

namespace CourseProjects.Database

open TreeHeap SearchTree SearchTree.Tree

variable {db db' : Db} {t : NTree} {a : Addr} {n : Node}

/-- The nodes that are reached from `head` through child pointers. -/
inductive Reached (db : Db) : Addr → Prop
  | head : Reached db head
  | lchild {a : Addr} {n : Node} : Reached db a → db.mem a = some n → n.lchild ≠ 0 →
      Reached db n.lchild
  | rchild {a : Addr} {n : Node} : Reached db a → db.mem a = some n → n.rchild ≠ 0 →
      Reached db n.rchild

/-- The nodes constructed and not yet destroyed are those reached from `head`;
no node is destroyed twice, and `head` never. -/
structure Balanced (db : Db) : Prop where
  built : db.built.Nodup
  freed : db.freed.Nodup
  only : ∀ a ∈ db.freed, a ∈ db.built ∧ a ≠ head
  reached : ∀ a, a ∈ db.built ∧ a ∉ db.freed ↔ Reached db a ∧ a ≠ head

/-- Every node that was ever constructed has been destroyed once, and `head` has
not. -/
structure CleanedUp (db db' : Db) : Prop where
  same : db'.built = db.built
  freed : db'.freed.Nodup
  all : ∀ a, a ∈ db'.freed ↔ a ∈ db'.built
  kept : head ∉ db'.freed

/-- The accounts are balanced on the way, and a cleanup at the end destroys
every node that is left. -/
def Accounted : Db → List Call → Prop
  | db, [] => Balanced db ∧ ∃ db', db.dbCleanup = .ok db' ∧ CleanedUp db db'
  | db, c :: cs => Balanced db ∧ ∃ r db', c.run db = .ok (r, db') ∧ Accounted db' cs

namespace Good

theorem reached_mem (hg : Good db t) (ha : Reached db a) : a ∈ (whole t).addrs := by
  have hchild : ∀ {a n}, a ∈ (whole t).addrs → db.mem a = some n →
      (n.lchild ≠ 0 → n.lchild ∈ (whole t).addrs) ∧
        (n.rchild ≠ 0 → n.rchild ∈ (whole t).addrs) := by
    intro a n ha hn
    obtain ⟨l, k, v, r, m, hs, hm, hcell⟩ := hg.holds.node_at ha
    rw [hn] at hm
    cases hm
    have hl : n.lchild = l.root := congrArg Cell.left hcell
    have hr : n.rchild = r.root := congrArg Cell.right hcell
    obtain ⟨-, -, hrl, hrr⟩ := hg.holds.rep.sub hs
    rw [hl, hr, Ne, Ne, hrl.root_eq_zero, hrr.root_eq_zero]
    exact ⟨fun h => (hs.left h).addrs_subset (root_mem h),
      fun h => (hs.right h).addrs_subset (root_mem h)⟩
  induction ha with
  | head => exact head_mem
  | lchild _ hn h0 ih => exact (hchild ih hn).1 h0
  | rchild _ hn h0 ih => exact (hchild ih hn).2 h0

theorem reached_of_mem {s : NTree} (hrep : Rep db.cells s) (hs : s ≠ leaf → Reached db s.root)
    (ha : a ∈ s.addrs) : Reached db a := by
  induction s with
  | leaf => cases ha
  | node l b k v r ihl ihr =>
    obtain ⟨-, hc, hl, hr⟩ := hrep
    obtain ⟨n, hn, hcell⟩ := Option.map_eq_some_iff.mp hc
    have hb : Reached db b := hs (by simp)
    simp only [addrs, List.mem_append, List.mem_cons] at ha
    rcases ha with ha | rfl | ha
    · refine ihl hl (fun hne => ?_) ha
      have hnl : n.lchild = l.root := congrArg Cell.left hcell
      rw [← hnl]
      exact .lchild hb hn (hnl ▸ fun h => hne (hl.root_eq_zero.mp h))
    · exact hb
    · refine ihr hr (fun hne => ?_) ha
      have hnr : n.rchild = r.root := congrArg Cell.right hcell
      rw [← hnr]
      exact .rchild hb hn (hnr ▸ fun h => hne (hr.root_eq_zero.mp h))

/-- What was built and not freed is the tree. -/
theorem mem_tree_iff (hg : Good db t) : a ∈ db.built ∧ a ∉ db.freed ↔ a ∈ t.addrs := by
  have hnd := List.nodup_append.mp (hg.account.nodup_iff.mpr hg.built_nodup)
  rw [← hg.account.mem_iff, List.mem_append]
  constructor
  · exact fun h => h.1.resolve_right h.2
  · exact fun h => ⟨Or.inl h, fun h' => hnd.2.2 a h a h' rfl⟩

theorem balanced (hg : Good db t) : Balanced db := by
  have hnd := List.nodup_append.mp (hg.account.nodup_iff.mpr hg.built_nodup)
  have honly : ∀ a ∈ db.freed, a ∈ db.built := fun a ha =>
    hg.account.mem_iff.mp (List.mem_append_right _ ha)
  refine ⟨hg.built_nodup, hnd.2.1, fun a ha => ⟨honly a ha, ?_⟩, fun a => ?_⟩
  · exact ne_of_gt (hg.built_lt a (honly a ha)).1
  · rw [hg.mem_tree_iff]
    constructor
    · intro ha
      refine ⟨reached_of_mem hg.holds.rep (fun _ => .head) ?_, hg.holds.ne_head ha⟩
      exact List.mem_cons_of_mem _ ha
    · rintro ⟨ha, hah⟩
      rcases List.mem_cons.mp (hg.reached_mem ha) with h | h
      · exact absurd h hah
      · exact h

end Good

/-! ## The cleanup -/

/-- The recursion destroys the nodes of a subtree, each once, and touches
nothing else. -/
theorem cleanupRecurs_spec {fuel : Nat} {s : NTree} (hrep : Rep db.cells s)
    (hnd : s.addrs.Nodup) (hfuel : s.size < fuel) :
    ∃ db' L, db.cleanupRecurs fuel s.root = .ok db' ∧ L.Perm s.addrs ∧
      db'.freed = db.freed ++ L ∧ db'.built = db.built ∧
      ∀ b ∉ s.addrs, db'.mem b = db.mem b := by
  induction s generalizing db fuel with
  | leaf =>
    obtain ⟨fuel, rfl⟩ := Nat.exists_eq_succ_of_ne_zero (Nat.ne_of_gt hfuel)
    exact ⟨db, [], rfl, List.Perm.refl _, by simp, rfl, fun _ _ => rfl⟩
  | node l a k v r ihl ihr =>
    obtain ⟨fuel, rfl⟩ := Nat.exists_eq_succ_of_ne_zero (Nat.ne_of_gt (Nat.zero_lt_of_lt hfuel))
    obtain ⟨hdl, hdr, hal, har, hlr⟩ := nodup_node hnd
    simp only [size] at hfuel
    obtain ⟨ha0, hc, hl, hr⟩ := hrep
    obtain ⟨n, hn, hcell⟩ := Option.map_eq_some_iff.mp hc
    have hnl : n.lchild = l.root := congrArg Cell.left hcell
    have hnr : n.rchild = r.root := congrArg Cell.right hcell
    have hfl : l.size < fuel := by omega
    have hfr : r.size < fuel := by omega
    obtain ⟨db1, L1, hrun1, hL1, hfreed1, hbuilt1, hmem1⟩ := ihl hl hdl hfl
    have hr1 : Rep db1.cells r := hr.congr fun b hb =>
      cells_congr (hmem1 b fun h => hlr b h hb)
    obtain ⟨db2, L2, hrun2, hL2, hfreed2, hbuilt2, hmem2⟩ := ihr hr1 hdr hfr
    have hn1 : db1.mem a = some n := (hmem1 a hal).trans hn
    have hn2 : db2.mem a = some n := (hmem2 a har).trans hn1
    refine ⟨db2.destroy a, L1 ++ L2 ++ [a], ?_, ?_, ?_, hbuilt2.trans hbuilt1, fun b hb => ?_⟩
    · rw [Db.cleanupRecurs, root, if_neg ha0, deref_of_mem hn, ok_bind, hnl, hrun1, ok_bind,
        deref_of_mem hn1, ok_bind, hnr, hrun2, ok_bind, Db.nodeDestructor, deref_of_mem hn2]
      rfl
    · refine (List.perm_append_singleton a _).trans (List.Perm.trans ?_ List.perm_middle.symm)
      exact (hL1.append hL2).cons a
    · simp [Db.destroy, Db.set, hfreed2, hfreed1]
    · simp only [addrs, List.mem_append, List.mem_cons, not_or] at hb
      rw [Db.destroy_mem_ne _ hb.2.1, hmem2 b hb.2.2, hmem1 b hb.1]

theorem Good.cleanup (hg : Good db t) : ∃ db', db.dbCleanup = .ok db' ∧ CleanedUp db db' := by
  obtain ⟨-, hc, -, hrep⟩ := hg.holds.rep
  obtain ⟨h, hh, hcell⟩ := Option.map_eq_some_iff.mp hc
  have hl : h.lchild = 0 := congrArg Cell.left hcell
  have hr : h.rchild = t.root := congrArg Cell.right hcell
  obtain ⟨-, hndt, -, hht, -⟩ := nodup_node hg.holds.nodup
  have hsize := size_le_fresh hg.holds.nodup hg.fresh
  simp only [whole, size] at hsize
  have hfuel : t.size < db.fresh + 1 := by omega
  obtain ⟨db', L, hrun, hL, hfreed, hbuilt, -⟩ := cleanupRecurs_spec hrep hndt hfuel
  have hperm : db'.freed.Perm db'.built := by
    rw [hfreed, hbuilt]
    exact (List.perm_append_comm.trans (hL.append_right _)).trans hg.account
  refine ⟨db', ?_, hbuilt, ?_, fun a => hperm.mem_iff, ?_⟩
  · rw [Db.dbCleanup, deref_of_mem hh, ok_bind, hl]
    rw [Db.cleanupRecurs, if_pos rfl]
    change (do
      let h ← db.deref head
      Db.cleanupRecurs (db.fresh + 1) db h.rchild) = _
    rw [deref_of_mem hh, ok_bind, hr]
    exact hrun
  · rw [hperm.nodup_iff, hbuilt]
    exact hg.built_nodup
  · rw [hperm.mem_iff, hbuilt]
    exact fun hm => lt_irrefl _ (hg.built_lt head hm).1

theorem Good.accounted_iff {cs : List Call} (hg : Good db t) (hcs : ∀ c ∈ cs, c.Legal) :
    Accounted db cs ↔ FitsAll db cs := by
  refine Good.sequence (P := fun db _ cs => Accounted db cs)
    (fun db t hg => ⟨hg.balanced, hg.cleanup⟩) ?_ ?_ hg hcs
  · intro db db' t c cs hg hrun
    constructor
    · rintro ⟨-, r, db'', hrun', h⟩
      rw [hrun] at hrun'
      cases hrun'
      exact h
    · exact fun h => ⟨hg.balanced, _, db', hrun, h⟩
  · rintro db t c cs f hrun ⟨-, r, db', hrun', -⟩
    rw [hrun] at hrun'
    cases hrun'

/-- The nodes are accounted for exactly when the copies of the removals fit. -/
theorem calls_accounted_iff (cs : List Call) (hcs : ∀ c ∈ cs, c.Legal) :
    Accounted Db.init cs ↔ FitsAll Db.init cs :=
  good_init.accounted_iff hcs

theorem shortSuccessor_accounted_iff :
    Accounted Db.init shortSuccessor ↔ FitsAll Db.init shortSuccessor :=
  calls_accounted_iff _ (by decide)

theorem longSuccessor_not_accounted :
    (∀ c ∈ longSuccessor, c.Legal) ∧ ¬ Accounted Db.init longSuccessor :=
  ⟨by decide, fun h => longSuccessor_not_fits ((good_init.accounted_iff (by decide)).mp h)⟩

end CourseProjects.Database

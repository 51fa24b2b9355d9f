import CourseProjects.Database.Search

/-!
# What each operation does to the tree
-/

namespace CourseProjects.Database

open TreeHeap SearchTree SearchTree.Tree

variable {db db' : Db} {t : NTree} {a b p d next : Addr} {x w : CString} {n dn nn : Node}
  {pnext : Addr × Field} {L : List Addr}

/-- A node for texts that `node_constructor` accepts. -/
theorem nodeConstructor_spec (db : Db) (hx : x.length ≤ 255) (hw : w.length ≤ 255) :
    ∃ db1 an, db.nodeConstructor x w 0 0 = (db.fresh, db1) ∧ db1.mem db.fresh = some an ∧
      an.name = x ∧ an.value = w ∧ an.lchild = 0 ∧ an.rchild = 0 ∧ an.Ok ∧
      (∀ b, b ≠ db.fresh → db1.mem b = db.mem b) ∧ db1.fresh = db.fresh + 1 ∧
      db1.built = db.built ++ [db.fresh] ∧ db1.freed = db.freed := by
  have hlong : ¬ (x.length > maxLen ∨ w.length > maxLen) := by
    unfold maxLen
    omega
  refine ⟨⟨fun b => if b = db.fresh then some ⟨snprintf maxLen x, snprintf maxLen w, 0, 0,
    x.length + 1, w.length + 1⟩ else db.mem b, db.fresh + 1, db.built ++ [db.fresh], db.freed⟩, _,
    ?_, if_pos rfl, snprintf_of_length hx, snprintf_of_length hw, rfl, rfl, ?_,
    fun b hb => if_neg hb, rfl, rfl, rfl⟩
  · rw [Db.nodeConstructor, if_neg hlong]
  · refine ⟨⟨?_, ?_⟩, ?_, ?_⟩ <;> simp [snprintf_of_length, hx, hw]

/-- The memory between two calls: a tree under `head`, no other nodes, every
text in its buffer, and every constructed node either in the tree or destroyed
once. -/
structure Good (db : Db) (t : NTree) : Prop where
  holds : Holds db t
  mem_iff : ∀ a, db.mem a ≠ none ↔ a ∈ (whole t).addrs
  fresh : ∀ a ∈ (whole t).addrs, a < db.fresh
  ok : ∀ a n, db.mem a = some n → n.Ok
  account : (t.addrs ++ db.freed).Perm db.built
  built_nodup : db.built.Nodup
  built_lt : ∀ a ∈ db.built, head < a ∧ a < db.fresh

theorem good_init : Good Db.init leaf := by
  refine ⟨⟨⟨by decide, rfl, trivial, trivial⟩, by decide, ?_⟩, ?_, by decide, ?_, .nil, .nil,
    fun a ha => absurd ha List.not_mem_nil⟩
  · exact ⟨trivial, trivial, fun _ h => absurd h List.not_mem_nil, fun _ h => absurd h List.not_mem_nil⟩
  · intro a
    simp [Db.init, whole, addrs]
  · intro a n hn
    simp only [Db.init, Option.ite_none_right_eq_some, Option.some.injEq] at hn
    rw [← hn.2]
    exact ⟨by decide, by decide, by decide⟩

/-- The nodes other than `a` are still there, and their texts in their buffers. -/
structure Others (db db' : Db) (a : Addr) : Prop where
  kept : ∀ b, b ≠ a → ∀ m, db.mem b = some m → ∃ m', db'.mem b = some m' ∧ m'.Ok
  absent : ∀ b, b ≠ a → db.mem b = none → db'.mem b = none

theorem Others.mem_iff (h : Others db db' a) (hb : b ≠ a) : db'.mem b ≠ none ↔ db.mem b ≠ none := by
  cases hm : db.mem b with
  | none => simp [h.absent b hb hm]
  | some m =>
    obtain ⟨m', hm', -⟩ := h.kept b hb m hm
    simp [hm']

theorem Others.ok {m : Node} (h : Others db db' a) (hb : b ≠ a) (hm : db'.mem b = some m) :
    m.Ok := by
  cases hm0 : db.mem b with
  | none =>
    rw [h.absent b hb hm0] at hm
    cases hm
  | some m0 =>
    obtain ⟨m', hm', hok⟩ := h.kept b hb m0 hm0
    rw [hm'] at hm
    cases hm
    exact hok

namespace Good

theorem search (hg : Good db t) (x : CString) :
    ∃ res, db.search db.fresh x head = .ok res ∧ Found db t x res :=
  search_spec hg.holds head_mem_trail (Or.inl rfl)
    (size_le_fresh hg.holds.nodup hg.fresh)

/-! ## `db_query` -/

theorem dbQuery (hg : Good db t) (x : CString) (len : Nat) :
    db.dbQuery x len = .ok (snprintf len ((t.lookup ↑x).getD Db.dbQuery.notFound)) := by
  obtain ⟨res, hres, hfound⟩ := hg.search x
  rw [Db.dbQuery, hres, ok_bind]
  cases hfound with
  | missing hp hn h0 =>
    rw [hg.holds.lookup_none hp hn h0]
    rfl
  | found hp hn h0 hd hx =>
    rw [hg.holds.lookup_child hp hn hd h0 hx]
    simp only [h0, ↓reduceIte]
    rw [deref_of_mem hd]
    rfl

/-! ## `db_add` -/

theorem dbAdd_present (hg : Good db t) (hx : t.lookup ↑x ≠ none) : db.dbAdd x w = .ok (0, db) := by
  obtain ⟨res, hres, hfound⟩ := hg.search x
  rw [Db.dbAdd, hres, ok_bind]
  cases hfound with
  | missing hp hn h0 => exact absurd (hg.holds.lookup_none hp hn h0) hx
  | found hp hn h0 hd =>
    simp only [ne_eq, h0, not_false_eq_true, ↓reduceIte]
    rfl

/-- One node enters the memory with the tree. -/
theorem enter {an : Node} (hg : Good db t) (hholds : Holds db' (t.put db.fresh ↑x w))
    (hperm : (whole (t.put db.fresh ↑x w)).addrs.Perm (db.fresh :: (whole t).addrs))
    (hnew : db'.mem db.fresh = some an) (hok : an.Ok) (hfresh : db'.fresh = db.fresh + 1)
    (hbuilt : db'.built = db.built ++ [db.fresh]) (hfreed : db'.freed = db.freed)
    (hothers : Others db db' db.fresh) : Good db' (t.put db.fresh ↑x w) := by
  refine ⟨hholds, ?_, ?_, ?_, ?_, ?_, ?_⟩
  · intro b
    rw [hperm.mem_iff, List.mem_cons, ← hg.mem_iff]
    by_cases hb : b = db.fresh
    · simp [hb, hnew]
    · rw [hothers.mem_iff hb, or_iff_right hb]
  · intro b hb
    rw [hfresh]
    rcases List.mem_cons.mp (hperm.mem_iff.mp hb) with rfl | hb
    · exact Nat.lt_succ_self _
    · exact Nat.lt_succ_of_lt (hg.fresh b hb)
  · intro b m hm
    by_cases hb : b = db.fresh
    · subst hb
      rw [hnew] at hm
      cases hm
      exact hok
    · exact hothers.ok hb hm
  · have hadd : (t.put db.fresh ↑x w).addrs.Perm (db.fresh :: t.addrs) :=
      (hperm.trans (List.Perm.swap head db.fresh t.addrs)).cons_inv
    rw [hbuilt, hfreed]
    exact ((hadd.append_right db.freed).trans (hg.account.cons _)).trans
      (List.perm_append_singleton db.fresh db.built).symm
  · rw [hbuilt]
    refine List.nodup_append.mpr ⟨hg.built_nodup, List.nodup_singleton _, ?_⟩
    rintro b hb c hc rfl
    have hlt := (hg.built_lt b hb).2
    rw [List.mem_singleton.mp hc] at hlt
    exact lt_irrefl _ hlt
  · rw [hbuilt, hfresh]
    intro b hb
    rcases List.mem_append.mp hb with hb | hb
    · exact ⟨(hg.built_lt b hb).1, Nat.lt_succ_of_lt (hg.built_lt b hb).2⟩
    · rw [List.mem_singleton.mp hb]
      exact ⟨hg.fresh head head_mem, Nat.lt_succ_self _⟩

theorem dbAdd_absent (hg : Good db t) (hx : t.lookup ↑x = none) (hxl : x.length ≤ 255)
    (hwl : w.length ≤ 255) :
    ∃ db', db.dbAdd x w = .ok (1, db') ∧ Good db' (t.put db.fresh ↑x w) := by
  obtain ⟨res, hres, hfound⟩ := hg.search x
  cases hfound with
  | found hp hn h0 hd hxd =>
    rw [hg.holds.lookup_child hp hn hd h0 hxd] at hx
    cases hx
  | @missing p n hp hn h0 =>
    have hpm := trail_subset hp
    have hpf : p ≠ db.fresh := ne_of_lt (hg.fresh p hpm)
    have hnotin : db.fresh ∉ (whole t).addrs := fun h => lt_irrefl _ (hg.fresh _ h)
    have hfresh0 : db.fresh ≠ 0 := Nat.ne_of_gt (lt_of_le_of_lt (Nat.zero_le _) (hg.fresh p hpm))
    obtain ⟨db1, an, hcons, hnew, hname, hval, hl, hr, hok, hold, hfresh, hbuilt, hfreed⟩ :=
      nodeConstructor_spec db hxl hwl
    have hn1 : db1.mem p = some n := (hold p hpf).trans hn
    have hmem : ∀ b, b ≠ p → b ≠ db.fresh →
        (db1.set p (some (n.setToward x db.fresh))).mem b = db.mem b := by
      intro b hbp hbf
      rw [Db.set_mem_ne _ _ hbp, hold b hbf]
    have hnew' : (db1.set p (some (n.setToward x db.fresh))).mem db.fresh = some an :=
      (Db.set_mem_ne _ _ (Ne.symm hpf)).trans hnew
    have hpn' := Db.set_mem_self db1 p (some (n.setToward x db.fresh))
    obtain ⟨hholds, hperm⟩ :=
      hg.holds.add hp hn h0 hfresh0 hnotin hnew' hname hval hl hr hpn' hmem
    have hothers : Others db (db1.set p (some (n.setToward x db.fresh))) db.fresh := by
      constructor
      · intro b hbf m hm
        by_cases hbp : b = p
        · subst hbp
          exact ⟨_, hpn', (hg.ok _ _ hn).setToward⟩
        · exact ⟨m, (hmem b hbp hbf).trans hm, hg.ok b m hm⟩
      · intro b hbf hb
        have hbp : b ≠ p := by
          rintro rfl
          rw [hn] at hb
          cases hb
        exact (hmem b hbp hbf).trans hb
    refine ⟨_, ?_, hg.enter hholds hperm hnew' hok hfresh hbuilt hfreed hothers⟩
    rw [Db.dbAdd, hres, ok_bind]
    simp only [ne_eq, not_true_eq_false, ↓reduceIte, hcons]
    rw [deref_of_mem hnew, ok_bind, Db.setToward, deref_of_mem hn1]
    rfl

/-! ## `db_remove` -/

theorem dbRemove_absent (hg : Good db t) (hx : t.lookup ↑x = none) : db.dbRemove x = .ok (0, db) := by
  obtain ⟨res, hres, hfound⟩ := hg.search x
  rw [Db.dbRemove, hres, ok_bind]
  cases hfound with
  | missing hp hn h0 => rfl
  | found hp hn h0 hd hxd =>
    rw [hg.holds.lookup_child hp hn hd h0 hxd] at hx
    cases hx

/-- One node leaves the memory with the tree. -/
theorem leave (hg : Good db t) (hholds : Holds db' (t.cut ↑x))
    (hperm : (whole t).addrs.Perm (a :: (whole (t.cut ↑x)).addrs)) (ha : db'.mem a = none)
    (hfresh : db'.fresh = db.fresh) (hbuilt : db'.built = db.built)
    (hfreed : db'.freed = db.freed ++ [a]) (hothers : Others db db' a) :
    Good db' (t.cut ↑x) := by
  have hnd := List.nodup_cons.mp (hperm.nodup_iff.mp hg.holds.nodup)
  refine ⟨hholds, ?_, ?_, ?_, ?_, hbuilt ▸ hg.built_nodup, ?_⟩
  · intro b
    by_cases hba : b = a
    · subst hba
      simp [ha, hnd.1]
    · rw [hothers.mem_iff hba, hg.mem_iff, hperm.mem_iff, List.mem_cons, or_iff_right hba]
  · intro b hb
    rw [hfresh]
    exact hg.fresh b (hperm.mem_iff.mpr (List.mem_cons_of_mem _ hb))
  · intro b m hm
    have hba : b ≠ a := by
      rintro rfl
      rw [ha] at hm
      cases hm
    exact hothers.ok hba hm
  · have hcut : t.addrs.Perm (a :: (t.cut ↑x).addrs) :=
      (hperm.trans (List.Perm.swap head a _)).cons_inv
    rw [hbuilt, hfreed, ← List.append_assoc]
    refine (List.perm_append_singleton a _).trans (List.Perm.trans ?_ hg.account)
    exact (hcut.append_right db.freed).symm
  · rw [hbuilt, hfresh]
    exact hg.built_lt

/-- The edit of a node with at most one child: `c` takes its place. -/
theorem remove_one {c : Addr} (hg : Good db t) (hp : p ∈ (whole t).trail ↑x)
    (hn : db.mem p = some n) (hd : db.mem (n.toward x) = some dn) (h0 : n.toward x ≠ 0)
    (hx : x = dn.name) (hc : dn.rchild = 0 ∧ c = dn.lchild ∨ dn.lchild = 0 ∧ c = dn.rchild) :
    Good ((db.set p (some (n.setToward x c))).destroy (n.toward x)) (t.cut ↑x) := by
  have hpd : p ≠ n.toward x := hg.holds.ne_child hp hn h0
  have hmem : ∀ b, b ≠ p → b ≠ n.toward x →
      ((db.set p (some (n.setToward x c))).destroy (n.toward x)).mem b = db.mem b := by
    intro b hbp hbd
    rw [Db.destroy_mem_ne _ hbd, Db.set_mem_ne _ _ hbp]
  have hp' : ((db.set p (some (n.setToward x c))).destroy (n.toward x)).mem p =
      some (n.setToward x c) := by
    rw [Db.destroy_mem_ne _ hpd, Db.set_mem_self]
  obtain ⟨hholds, hperm⟩ := hg.holds.remove_one hp hn hd h0 hx hc hp' hmem
  refine hg.leave hholds hperm (Db.destroy_mem_self _ _) rfl rfl rfl ⟨?_, ?_⟩
  · intro b hbd m hm
    by_cases hbp : b = p
    · subst hbp
      exact ⟨_, hp', (hg.ok _ _ hn).setToward⟩
    · exact ⟨m, (hmem b hbp hbd).trans hm, hg.ok b m hm⟩
  · intro b hbd hb
    by_cases hbp : b = p
    · subst hbp
      rw [hn] at hb
      cases hb
    · exact (hmem b hbp hbd).trans hb

end Good

/-- The copies of a removal fit: the entry of the successor is no longer than
the buffers of the node that takes it over. -/
def RemovalFits (db : Db) (name : CString) : Prop :=
  ∀ dnode d next n, dnode ≠ head → db.mem dnode = some d → d.name = name → d.lchild ≠ 0 →
    d.rchild ≠ 0 → LeftEnd db d.rchild next → db.mem next = some n →
    n.name.length + 1 ≤ d.nameCap ∧ n.value.length + 1 ≤ d.valueCap

namespace Good

/-- Every node but `head` is in the tree. -/
theorem sub_of_mem (hg : Good db t) (ha : db.mem a = some n) (hah : a ≠ head) :
    ∃ l r, Sub (node l a (n.name : WithBot CString) n.value r) t := by
  obtain ⟨l, k, v, r, m, hs, hm, hcell⟩ := hg.holds.node_at ((hg.mem_iff a).mp (by simp [ha]))
  rw [ha] at hm
  cases hm
  rw [cell_of_ne_head hah, Cell.mk.injEq] at hcell
  rw [← hcell.1, ← hcell.2.1] at hs
  rcases hs with hroot | hs | hs
  · simp only [node.injEq] at hroot
    exact absurd hroot.2.1 hah
  · exact hs.elim
  · exact ⟨l, r, hs⟩

theorem lookup_of_mem (hg : Good db t) (ha : db.mem a = some n) (hah : a ≠ head) :
    t.lookup ↑n.name = some n.value := by
  obtain ⟨l, r, hs⟩ := hg.sub_of_mem ha hah
  exact lookup_of_sub hg.holds.ordered.2.1 hs

/-- A name is stored in one node. -/
theorem unique (hg : Good db t) {b : Addr} {m : Node} (ha : db.mem a = some n)
    (hb : db.mem b = some m) (hah : a ≠ head) (hbh : b ≠ head) (heq : n.name = m.name) : a = b := by
  obtain ⟨l, r, hs⟩ := hg.sub_of_mem ha hah
  obtain ⟨l', r', hs'⟩ := hg.sub_of_mem hb hbh
  rw [heq] at hs
  have := hs.unique_key hg.holds.ordered.2.1 hs'
  simp only [node.injEq] at this
  exact this.2.1

/-- The memory after the entry of `next` is copied to `d`, unlinked at `pnext`
and destroyed. -/
def spliced (db : Db) (d : Addr) (dn nn : Node) (next : Addr) (pnext : Addr × Field) : Db :=
  ((db.set d (some { dn with name := nn.name, value := nn.value })).modify pnext.1
    (Node.setField pnext.2 nn.rchild)).destroy next

theorem spliced_mem (hb : b ≠ next) : (spliced db d dn nn next pnext).mem b =
    ((db.set d (some { dn with name := nn.name, value := nn.value })).modify pnext.1
      (Node.setField pnext.2 nn.rchild)).mem b :=
  Db.destroy_mem_ne _ hb

/-- The other nodes stay in memory, with their texts in their buffers. -/
theorem spliced_some (hok : ∀ a n, db.mem a = some n → n.Ok) (hnn : db.mem next = some nn)
    (hfit : nn.name.length + 1 ≤ dn.nameCap ∧ nn.value.length + 1 ≤ dn.valueCap)
    (hb : b ≠ next) (hm : db.mem b = some n) :
    ∃ m, (spliced db d dn nn next pnext).mem b = some m ∧ m.Ok := by
  have hnok := hok _ _ hnn
  have hcopy : ({ dn with name := nn.name, value := nn.value } : Node).Ok :=
    ⟨hfit, hnok.name, hnok.value⟩
  have hset : ∃ m, (db.set d (some { dn with name := nn.name, value := nn.value })).mem b = some m ∧
      m.Ok := by
    by_cases hbd : b = d
    · subst hbd
      exact ⟨_, Db.set_mem_self _ _ _, hcopy⟩
    · exact ⟨n, (Db.set_mem_ne _ _ hbd).trans hm, hok b n hm⟩
  obtain ⟨m, hm, hmok⟩ := hset
  rw [spliced_mem hb, Db.modify_mem, hm]
  split_ifs
  · exact ⟨_, rfl, hmok.setField⟩
  · exact ⟨m, rfl, hmok⟩

theorem spliced_none (hd : db.mem d = some dn) (hb : b ≠ next) (hm : db.mem b = none) :
    (spliced db d dn nn next pnext).mem b = none := by
  have hbd : b ≠ d := by
    rintro rfl
    rw [hd] at hm
    cases hm
  rw [spliced_mem hb, Db.modify_mem, Db.set_mem_ne _ _ hbd, hm]
  split_ifs <;> rfl

theorem remove_two (hg : Good db t) (hp : p ∈ (whole t).trail ↑x)
    (hn : db.mem p = some n) (hd : db.mem (n.toward x) = some dn) (h0 : n.toward x ≠ 0)
    (hx : x = dn.name) (hl0 : dn.lchild ≠ 0) (hr0 : dn.rchild ≠ 0)
    (hw : Walked db (n.toward x) next pnext L) (hnn : db.mem next = some nn)
    (hleft : nn.lchild = 0)
    (hfit : nn.name.length + 1 ≤ dn.nameCap ∧ nn.value.length + 1 ≤ dn.valueCap) :
    Good (spliced db (n.toward x) dn nn next pnext) (t.cut ↑x) := by
  obtain ⟨hholds, hperm⟩ := hg.holds.remove_two hp hn hd h0 hx hl0 hr0 hw hnn hleft
    fun b hb => spliced_mem hb
  have hothers : Others db (spliced db (n.toward x) dn nn next pnext) next :=
    ⟨fun b hb m hm => spliced_some hg.ok hnn hfit hb hm, fun b hb hm => spliced_none hd hb hm⟩
  exact hg.leave hholds hperm (Db.destroy_mem_self _ _) rfl rfl rfl hothers

/-- The statements after the walk, when the copies fit. -/
theorem splice_run {β : Type} {k : Db → Except Fault β} (hd : db.mem d = some dn)
    (hw : Walked db d next pnext L) (hnn : db.mem next = some nn) (hnok : nn.Ok)
    (hfit : nn.name.length + 1 ≤ dn.nameCap ∧ nn.value.length + 1 ≤ dn.valueCap) :
    (do
      let db ← db.writeName d nn.name
      let db ← db.writeValue d nn.value
      let db ← db.setField pnext nn.rchild
      let db ← db.nodeDestructor next
      k db) = k (spliced db d dn nn next pnext) := by
  have hname := snprintf_of_length hnok.name
  have hvalue := snprintf_of_length hnok.value
  have h1 : db.writeName d nn.name = .ok (db.set d (some { dn with name := nn.name })) := by
    rw [Db.writeName, deref_of_mem hd, ok_bind, hname, if_pos hfit.1]
    rfl
  have h2 : (db.set d (some { dn with name := nn.name })).writeValue d nn.value =
      .ok (db.set d (some { dn with name := nn.name, value := nn.value })) := by
    rw [Db.writeValue, deref_of_mem (Db.set_mem_self _ _ _), ok_bind, hvalue, if_pos hfit.2,
      Db.set_set]
    rfl
  have hkeep : ∀ b, db.mem b ≠ none →
      ∃ m, (db.set d (some { dn with name := nn.name, value := nn.value })).mem b = some m := by
    intro b hb
    by_cases hbd : b = d
    · subst hbd
      exact ⟨_, Db.set_mem_self _ _ _⟩
    · obtain ⟨m, hm⟩ := Option.ne_none_iff_exists'.mp hb
      exact ⟨m, (Db.set_mem_ne _ _ hbd).trans hm⟩
  obtain ⟨q, hq⟩ := hw.pointer_mem
  obtain ⟨m, hm⟩ := hkeep pnext.1 (by simp [hq])
  have h3 : (db.set d (some { dn with name := nn.name, value := nn.value })).setField pnext
      nn.rchild = .ok ((db.set d (some { dn with name := nn.name, value := nn.value })).modify
        pnext.1 (Node.setField pnext.2 nn.rchild)) := by
    rw [Db.setField, deref_of_mem hm, ok_bind, Db.modify, hm]
    rfl
  obtain ⟨m', hm'⟩ := hkeep next (by simp [hnn])
  have h4 : ∃ e, ((db.set d (some { dn with name := nn.name, value := nn.value })).modify
      pnext.1 (Node.setField pnext.2 nn.rchild)).mem next = some e := by
    rw [Db.modify_mem, hm']
    split_ifs
    · exact ⟨_, rfl⟩
    · exact ⟨_, rfl⟩
  obtain ⟨e, he⟩ := h4
  rw [h1, ok_bind, h2, ok_bind, h3, ok_bind, Db.nodeDestructor, deref_of_mem he]
  rfl

/-- The first copy that does not fit is where the removal goes wrong. -/
theorem splice_overflow {β : Type} {k : Db → Except Fault β} (hd : db.mem d = some dn)
    (hnok : nn.Ok)
    (hfit : ¬ (nn.name.length + 1 ≤ dn.nameCap ∧ nn.value.length + 1 ≤ dn.valueCap)) :
    (do
      let db ← db.writeName d nn.name
      let db ← db.writeValue d nn.value
      k db) = .error .overflow := by
  have hname := snprintf_of_length hnok.name
  have hvalue := snprintf_of_length hnok.value
  by_cases h1 : nn.name.length + 1 ≤ dn.nameCap
  · have h2 : ¬ nn.value.length + 1 ≤ dn.valueCap := fun h => hfit ⟨h1, h⟩
    have hw1 : db.writeName d nn.name = .ok (db.set d (some { dn with name := nn.name })) := by
      rw [Db.writeName, deref_of_mem hd, ok_bind, hname, if_pos h1]
      rfl
    rw [hw1, ok_bind, Db.writeValue, deref_of_mem (Db.set_mem_self _ _ _), ok_bind, hvalue,
      if_neg h2]
    rfl
  · rw [Db.writeName, deref_of_mem hd, ok_bind, hname, if_neg h1]
    rfl

/-- With two children the walk ends at the successor. -/
theorem walk (hg : Good db t) (hp : p ∈ (whole t).trail ↑x) (hn : db.mem p = some n)
    (hd : db.mem (n.toward x) = some dn) (h0 : n.toward x ≠ 0) (hr0 : dn.rchild ≠ 0) :
    ∃ next pnext L nn, db.smallest db.fresh dn.rchild (n.toward x, .rchild) = .ok (next, pnext) ∧
      Walked db (n.toward x) next pnext L ∧ db.mem next = some nn ∧ nn.lchild = 0 ∧
      LeftEnd db dn.rchild next := by
  obtain ⟨l, k, v, r, l', r', dn', -, -, hsub, hdn, -, hr⟩ := hg.holds.child hp hn h0
  rw [hd] at hdn
  cases hdn
  have hrep := (hg.holds.rep.sub (Or.inr (Or.inr hsub))).2.2.2
  obtain ⟨rl, rk, rv, rr, hrnode⟩ := hrep.eq_node (hr.trans_ne hr0)
  rw [hr] at hrnode
  have hsr : Sub (node rl dn.rchild rk rv rr) (whole t) := by
    have hsn : Sub (node l' (n.toward x) ↑dn.name dn.value r') (whole t) :=
      Or.inr (Or.inr hsub)
    rw [← hrnode]
    exact hsn.right (by simp [hrnode])
  exact smallest_spec hg.holds.rep hsr
    (le_trans hsr.size_le (size_le_fresh hg.holds.nodup hg.fresh)) (.start hd)

/-- A stored name is removed exactly when the copies fit. -/
theorem dbRemove_present (hg : Good db t) (hx : t.lookup ↑x ≠ none) :
    (RemovalFits db x → ∃ db', db.dbRemove x = .ok (1, db') ∧ Good db' (t.cut ↑x)) ∧
      (¬ RemovalFits db x → db.dbRemove x = .error .overflow) := by
  obtain ⟨res, hres, hfound⟩ := hg.search x
  rw [Db.dbRemove, hres, ok_bind]
  cases hfound with
  | missing hp hn h0 => exact absurd (hg.holds.lookup_none hp hn h0) hx
  | @found p n dn hp hn h0 hd hxd =>
    have hdh : n.toward x ≠ head := by
      obtain ⟨l, k, v, r, l', r', dn', -, -, hsub, -⟩ := hg.holds.child hp hn h0
      exact hg.holds.ne_head hsub.mem
    -- what `RemovalFits` says is about this node only
    have hfits : RemovalFits db x ↔ (dn.lchild ≠ 0 → dn.rchild ≠ 0 → ∀ next nn,
        LeftEnd db dn.rchild next → db.mem next = some nn →
        nn.name.length + 1 ≤ dn.nameCap ∧ nn.value.length + 1 ≤ dn.valueCap) := by
      constructor
      · intro h hl hr next nn hend hnn
        exact h _ dn next nn hdh hd hxd.symm hl hr hend hnn
      · intro h dnode d next nn hdn hdm hname hl hr hend hnn
        have heq := hg.unique hdm hd hdn hdh (hname.trans hxd)
        subst heq
        rw [hd] at hdm
        cases hdm
        exact h hl hr next nn hend hnn
    have hne : ∀ c, db.setToward dn.name p c = .ok (db.set p (some (n.setToward x c))) := by
      intro c
      rw [Db.setToward, deref_of_mem hn, ← hxd]
      rfl
    have hdel : ∀ c, (db.set p (some (n.setToward x c))).nodeDestructor (n.toward x) =
        .ok ((db.set p (some (n.setToward x c))).destroy (n.toward x)) := by
      intro c
      have hdp : n.toward x ≠ p := Ne.symm (hg.holds.ne_child hp hn h0)
      rw [Db.nodeDestructor, deref_of_mem ((Db.set_mem_ne _ _ hdp).trans hd)]
      rfl
    simp only [h0, ↓reduceIte]
    rw [deref_of_mem hd, ok_bind, hfits]
    by_cases hr0 : dn.rchild = 0
    · refine ⟨fun _ => ⟨_, ?_, hg.remove_one hp hn hd h0 hxd (Or.inl ⟨hr0, rfl⟩)⟩, fun h => ?_⟩
      · rw [if_pos hr0, hne, ok_bind, hdel]
        rfl
      · exact absurd (fun _ hr => absurd hr0 hr) h
    · by_cases hl0 : dn.lchild = 0
      · refine ⟨fun _ => ⟨_, ?_, hg.remove_one hp hn hd h0 hxd (Or.inr ⟨hl0, rfl⟩)⟩, fun h => ?_⟩
        · rw [if_neg hr0, if_pos hl0, hne, ok_bind, hdel]
          rfl
        · exact absurd (fun hl => absurd hl0 hl) h
      · obtain ⟨next, pnext, L, nn, hwalk, hw, hnn, hleft, hend⟩ := hg.walk hp hn hd h0 hr0
        rw [if_neg hr0, if_neg hl0, hwalk, ok_bind]
        simp only
        rw [deref_of_mem hnn, ok_bind]
        constructor
        · intro h
          have hfit := h hl0 hr0 next nn hend hnn
          exact ⟨_, splice_run hd hw hnn (hg.ok _ _ hnn) hfit,
            hg.remove_two hp hn hd h0 hxd hl0 hr0 hw hnn hleft hfit⟩
        · intro h
          refine splice_overflow hd (hg.ok _ _ hnn) fun hfit => h ?_
          intro _ _ next' nn' hend' hnn'
          cases hend.unique hend'
          rw [hnn] at hnn'
          cases hnn'
          exact hfit

end Good

end CourseProjects.Database

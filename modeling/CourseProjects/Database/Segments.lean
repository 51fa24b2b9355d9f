import CourseProjects.Database.Places

/-!
# The code between two lock operations

From every place the code runs without a fault to the next place. It changes
only nodes that the thread has locked for writing or that its walk has passed,
and the call takes effect on the map at most once, in the same piece of code in
which the tree changes.
-/

namespace CourseProjects.Database

open TreeHeap SearchTree SearchTree.Tree History

variable {db db' : Db} {t t' : NTree} {a b d p q next : Addr} {x name : CString} {n dn nn : Node}
  {pnext : Addr × Field} {L L' as as' : List Addr} {c : Call} {m m' : Contents} {r : Result}
  {pc pc' : Pc} {st st' : Status Call Result} {lt : LockType}

/-- The memory at a lock operation: it holds the tree, every node lies below the
next free address, and every text in its buffer. -/
structure Shared (db : Db) (t : NTree) : Prop where
  holds : Holds db t
  fresh : ∀ a n, db.mem a = some n → a < db.fresh
  ok : ∀ a n, db.mem a = some n → n.Ok

/-- The nodes outside `W` are as before, and so are the searches that stand
there. -/
structure Change (db : Db) (t : NTree) (db' : Db) (t' : NTree) (W : List Addr) : Prop where
  mem : ∀ a, db.mem a ≠ none → a ∉ W → db'.mem a = db.mem a
  trail : ∀ a, a ∉ W → ∀ x : CString, a ∈ (whole t).trail ↑x → a ∈ (whole t').trail ↑x
  out : ∀ a, db.mem a ≠ none → a ∉ W → a ∉ (whole t).addrs → a ∉ (whole t').addrs

theorem Change.refl : Change db t db t [] :=
  ⟨fun _ _ _ => rfl, fun _ _ _ h => h, fun _ _ _ h => h⟩

/-- A call takes effect on the map, or nothing happens to it. -/
inductive Effect (m : Contents) : Contents → Status Call Result → Status Call Result → Prop
  | still {st : Status Call Result} : Effect m m st st
  | point {c : Call} {m' : Contents} {r : Result} : c.spec m = (r, m') →
      Effect m m' (.called c) (.done r)

/-- The type with which a thread locks. -/
def Pc.lockType : Pc → LockType
  | lockHead c | lockNext c _ _ | unlockParent c _ _ | release c _ _ => c.lockType
  | readValue _ _ _ _ | idle | crashed _ => .read
  | freeNode _ _ _ | lockRight _ _ _ _ | lockLeft _ _ _ _ _ | unlockLeft _ _ _ _ _
  | copyUp _ _ _ _ _ _ => .write

/-- A thread that holds `as` and has walked along `L` comes to a new place. -/
structure Advance (db : Db) (t : NTree) (lt : LockType) (as L : List Addr)
    (st : Status Call Result) (pc : Pc) (db' : Db) (t' : NTree) (as' L' : List Addr)
    (st' : Status Call Result) : Prop where
  place : Place db' t' pc as' L' st'
  lockType : pc.lockType = lt
  held : ∀ a, a ∈ as' ↔ a ∈ as
  path : ∀ a ∈ L', a ∈ L ∨ lt = .write ∧ a ∈ as
  shared : Shared db' t'
  change : ∃ W, Change db t db' t' W ∧ ∀ a ∈ W, a ∈ L ∨ lt = .write ∧ a ∈ as
  effect : Effect (contents t) (contents t') st st'

def Advances (db : Db) (t : NTree) (lt : LockType) (as L : List Addr) (st : Status Call Result)
    (res : Except Fault (Pc × Db)) : Prop :=
  ∃ pc db' t' as' L' st', res = .ok (pc, db') ∧ Advance db t lt as L st pc db' t' as' L' st'

theorem Advances.congr {res : Except Fault (Pc × Db)} (h : Advances db t lt as L st res)
    (heq : ∀ a, a ∈ as ↔ a ∈ as') : Advances db t lt as' L st res := by
  obtain ⟨pc, db', t', as₁, L₁, st', hrun, hplace, htype, hheld, hpath, hs, ⟨W, hW, hown⟩, heff⟩ := h
  exact ⟨pc, db', t', as₁, L₁, st', hrun, hplace, htype, fun a => (hheld a).trans (heq a),
    fun a ha => (hpath a ha).imp_right fun h => ⟨h.1, (heq a).mp h.2⟩, hs,
    ⟨W, hW, fun a ha => (hown a ha).imp_right fun h => ⟨h.1, (heq a).mp h.2⟩⟩, heff⟩

/-- The code has only read. -/
theorem Shared.same (hs : Shared db t) (hplace : Place db t pc as' L' st')
    (htype : pc.lockType = lt) (hheld : ∀ a, a ∈ as' ↔ a ∈ as)
    (hpath : ∀ a ∈ L', a ∈ L ∨ lt = .write ∧ a ∈ as)
    (heffect : Effect (contents t) (contents t) st st') :
    Advances db t lt as L st (.ok (pc, db)) :=
  ⟨pc, db, t, as', L', st', rfl, hplace, htype, hheld, hpath, hs,
    ⟨[], Change.refl, fun _ h => absurd h List.not_mem_nil⟩, heffect⟩

/-! ## The three edits -/

theorem Shared.set (hs : Shared db t) (hn : db.mem a = some n) (hok : nn.Ok)
    (ht : Holds (db.set a (some nn)) t') : Shared (db.set a (some nn)) t' := by
  refine ⟨ht, fun b m hm => ?_, fun b m hm => ?_⟩
  · by_cases hb : b = a
    · subst hb
      exact hs.fresh b n hn
    · rw [Db.set_mem_ne _ _ hb] at hm
      exact hs.fresh b m hm
  · by_cases hb : b = a
    · subst hb
      rw [Db.set_mem_self] at hm
      cases hm
      exact hok
    · rw [Db.set_mem_ne _ _ hb] at hm
      exact hs.ok b m hm

/-- A node that has left the tree is destroyed. -/
theorem Shared.destroy (hs : Shared db t) (ha : a ∉ (whole t).addrs) : Shared (db.destroy a) t := by
  have hmem : ∀ b, b ≠ a → (db.destroy a).mem b = db.mem b := fun b hb => Db.destroy_mem_ne _ hb
  have hsome : ∀ b m, (db.destroy a).mem b = some m → db.mem b = some m := by
    intro b m hm
    by_cases hb : b = a
    · subst hb
      rw [Db.destroy_mem_self] at hm
      cases hm
    · rwa [hmem b hb] at hm
  refine ⟨⟨?_, hs.holds.nodup, hs.holds.ordered⟩, fun b m hm => hs.fresh b m (hsome b m hm),
    fun b m hm => hs.ok b m (hsome b m hm)⟩
  exact hs.holds.rep.congr fun b hb => cells_congr (hmem b fun h => ha (h ▸ hb))

theorem Shared.mem_ne (hs : Shared db t) (hn : db.mem a = some n) : a ≠ db.fresh :=
  ne_of_lt (hs.fresh a n hn)

theorem Shared.mem_of_tree (hs : Shared db t) (ha : a ∈ (whole t).addrs) :
    ∃ n, db.mem a = some n := by
  obtain ⟨-, -, -, -, n, -, hn, -⟩ := hs.holds.node_at ha
  exact ⟨n, hn⟩

theorem Shared.fresh_not_mem (hs : Shared db t) : db.fresh ∉ (whole t).addrs := by
  intro h
  obtain ⟨n, hn⟩ := hs.mem_of_tree h
  exact hs.mem_ne hn rfl

/-- A node is added where a search ended. -/
theorem Shared.add {w : CString} (hs : Shared db t) (hp : p ∈ (whole t).trail ↑x)
    (hn : db.mem p = some n) (h0 : n.toward x = 0) (hx : x.length ≤ 255) (hw : w.length ≤ 255) :
    ∃ db1 an, db.nodeConstructor x w 0 0 = (db.fresh, db1) ∧ db1.mem db.fresh = some an ∧
      db1.mem p = some n ∧
      Shared (db1.set p (some (n.setToward x db.fresh))) (t.put db.fresh ↑x w) ∧
      Change db t (db1.set p (some (n.setToward x db.fresh))) (t.put db.fresh ↑x w) [p] := by
  obtain ⟨db1, an, hcons, hnew, hname, hval, hl, hr, hok, hold, hfresh, -, -⟩ :=
    nodeConstructor_spec db hx hw
  have hpf : p ≠ db.fresh := hs.mem_ne hn
  have hn1 : db1.mem p = some n := (hold p hpf).trans hn
  have hfresh0 : db.fresh ≠ 0 := Nat.ne_of_gt (lt_of_le_of_lt (Nat.zero_le _) (hs.fresh p n hn))
  have hmem : ∀ b, b ≠ p → b ≠ db.fresh →
      (db1.set p (some (n.setToward x db.fresh))).mem b = db.mem b := fun b hbp hbf => by
    rw [Db.set_mem_ne _ _ hbp, hold b hbf]
  have hnew' : (db1.set p (some (n.setToward x db.fresh))).mem db.fresh = some an := by
    rw [Db.set_mem_ne _ _ (Ne.symm hpf), hnew]
  have hpn := Db.set_mem_self db1 p (some (n.setToward x db.fresh))
  obtain ⟨hholds, hperm⟩ := hs.holds.add hp hn h0 hfresh0 hs.fresh_not_mem hnew' hname hval hl hr
    hpn hmem
  refine ⟨db1, an, hcons, hnew, hn1, ⟨hholds, fun b m hm => ?_, fun b m hm => ?_⟩,
    fun b hb hbp => ?_, fun b _ y hy => ?_, fun b hb _ hbt hbt' => ?_⟩
  · have hfresh' : (db1.set p (some (n.setToward x db.fresh))).fresh = db.fresh + 1 := hfresh
    rw [hfresh']
    by_cases hbp : b = p
    · subst hbp
      exact Nat.lt_succ_of_lt (hs.fresh b n hn)
    · by_cases hbf : b = db.fresh
      · rw [hbf]
        exact Nat.lt_succ_self _
      · rw [hmem b hbp hbf] at hm
        exact Nat.lt_succ_of_lt (hs.fresh b m hm)
  · by_cases hbp : b = p
    · subst hbp
      rw [hpn] at hm
      cases hm
      exact (hs.ok _ _ hn).setToward
    · by_cases hbf : b = db.fresh
      · subst hbf
        rw [hnew'] at hm
        cases hm
        exact hok
      · rw [hmem b hbp hbf] at hm
        exact hs.ok b m hm
  · obtain ⟨k, hk⟩ := Option.ne_none_iff_exists'.mp hb
    exact hmem b (fun h => hbp (h ▸ List.mem_singleton_self p)) (hs.mem_ne hk)
  · rw [← put_whole]
    exact trail_put hy
  · obtain ⟨k, hk⟩ := Option.ne_none_iff_exists'.mp hb
    rcases List.mem_cons.mp (hperm.mem_iff.mp hbt') with h | h
    · exact hs.mem_ne hk h
    · exact hbt h

/-- Which searches survive the removal of the node that `x` is found at. -/
theorem Holds.trail_removed (ht : Holds db t) (hp : p ∈ (whole t).trail ↑x)
    (hn : db.mem p = some n) (hd : db.mem (n.toward x) = some dn) (h0 : n.toward x ≠ 0)
    (hx : x = dn.name) {y : CString} (hb : b ∈ (whole t).trail ↑y) (hbd : b ≠ n.toward x)
    (hsp : ∀ r : NTree, Rep db.cells r → r.root = dn.rchild → dn.lchild ≠ 0 → b ∉ r.spine) :
    b ∈ (whole (t.cut ↑x)).trail ↑y := by
  obtain ⟨l, k, v, r, l', r', dn', -, -, hsub, hdn, hl, hr⟩ := ht.child hp hn h0
  rw [hd] at hdn
  cases hdn
  obtain ⟨-, -, hrl, hrr⟩ := ht.rep.sub (Or.inr (Or.inr hsub))
  rw [← cut_whole]
  refine trail_cut ht.ordered hb fun l₁ a₁ v₁ r₁ hs₁ => ?_
  rw [hx] at hs₁
  have heq := hs₁.unique_key ht.ordered (Or.inr (Or.inr hsub))
  cases heq
  refine ⟨hbd, fun hne => hsp r' hrr hr fun h => hne ?_⟩
  exact hrl.root_eq_zero.mp (hl.trans h)

/-- A node with at most one child is unlinked. -/
theorem Shared.relink (hs : Shared db t) (hp : p ∈ (whole t).trail ↑x) (hn : db.mem p = some n)
    (hd : db.mem (n.toward x) = some dn) (h0 : n.toward x ≠ 0) (hx : x = dn.name)
    (hc : dn.rchild = 0 ∧ a = dn.lchild ∨ dn.lchild = 0 ∧ a = dn.rchild) :
    Shared (db.set p (some (n.setToward x a))) (t.cut ↑x) ∧
      n.toward x ∉ (whole (t.cut ↑x)).addrs ∧
      Change db t (db.set p (some (n.setToward x a))) (t.cut ↑x) [p, n.toward x] := by
  obtain ⟨hholds, hperm⟩ := hs.holds.remove_one hp hn hd h0 hx hc (Db.set_mem_self _ _ _)
    fun b hb _ => Db.set_mem_ne _ _ hb
  have hnd := List.nodup_cons.mp (hperm.nodup_iff.mp hs.holds.nodup)
  refine ⟨hs.set hn (hs.ok _ _ hn).setToward hholds, hnd.1, fun b _ hb => ?_,
    fun b hb y hy => ?_, fun b _ _ hbt hbt' => ?_⟩
  · exact Db.set_mem_ne _ _ fun h => hb (by simp [h])
  · refine hs.holds.trail_removed hp hn hd h0 hx hy (fun h => hb (by simp [h])) ?_
    rintro r hrep hroot hl
    rcases hc with ⟨hr, -⟩ | ⟨hl', -⟩
    · rw [hrep.root_eq_zero.mp (hroot.trans hr)]
      exact List.not_mem_nil
    · exact absurd hl' hl
  · exact hbt (hperm.mem_iff.mpr (List.mem_cons_of_mem _ hbt'))

/-- A node with two children takes over the entry of its successor. -/
theorem Shared.splice (hs : Shared db t) (htg : Target db t x p d n dn)
    (hw : Walked db d next pnext L) (hnn : db.mem next = some nn) (hleft : nn.lchild = 0)
    (hfit : nn.name.length + 1 ≤ dn.nameCap ∧ nn.value.length + 1 ≤ dn.valueCap) :
    Shared (Good.spliced db d dn nn next pnext) (t.cut ↑x) ∧
      Change db t (Good.spliced db d dn nn next pnext) (t.cut ↑x) (d :: L) := by
  obtain ⟨hp, hn, rfl, h0, hd, hx, hl0, hr0⟩ := htg
  obtain ⟨hholds, hperm⟩ := hs.holds.remove_two hp hn hd h0 hx hl0 hr0 hw hnn hleft
    fun b hb => Good.spliced_mem hb
  have hnext : next ∈ L := List.mem_of_getLast? hw.getLast
  have hpn : pnext.1 ∈ n.toward x :: L := by
    rcases hw.pointer with ⟨rfl, -⟩ | ⟨q, M, rfl, rfl⟩
    · exact List.mem_cons_self
    · simp
  have hsome : ∀ b m, (Good.spliced db (n.toward x) dn nn next pnext).mem b = some m →
      m.Ok ∧ ∃ m', db.mem b = some m' := by
    intro b m hm
    by_cases hb : b = next
    · subst hb
      rw [Good.spliced, Db.destroy_mem_self] at hm
      cases hm
    · cases hb' : db.mem b with
      | none =>
        rw [Good.spliced_none hd hb hb'] at hm
        cases hm
      | some m' =>
        obtain ⟨m'', hm'', hok⟩ : ∃ k, (Good.spliced db (n.toward x) dn nn next pnext).mem b =
            some k ∧ k.Ok := Good.spliced_some hs.ok hnn hfit hb hb'
        rw [hm] at hm''
        cases hm''
        exact ⟨hok, m', rfl⟩
  refine ⟨⟨hholds, fun b m hm => ?_, fun b m hm => (hsome b m hm).1⟩, fun b _ hb => ?_,
    fun b hb y hy => ?_, fun b _ _ hbt hbt' => ?_⟩
  · obtain ⟨-, m', hm'⟩ := hsome b m hm
    exact hs.fresh b m' hm'
  · have hbn : b ≠ next := fun h => hb (h ▸ List.mem_cons_of_mem _ hnext)
    have hbp : b ≠ pnext.1 := fun h => hb (h ▸ hpn)
    have hbd : b ≠ n.toward x := fun h => hb (h ▸ List.mem_cons_self)
    rw [Good.spliced_mem hbn, Db.modify_mem_ne _ _ hbp, Db.set_mem_ne _ _ hbd]
  · refine hs.holds.trail_removed hp hn hd h0 hx hy (fun h => hb (h ▸ List.mem_cons_self)) ?_
    rintro r hrep hroot -
    have hne : r ≠ leaf := fun h => hr0 (hroot ▸ hrep.root_eq_zero.mpr h)
    rw [← hrep.spine_of_walk (by rw [hw.head hd, hroot]) hw.chain hw.getLast (cells_of_mem hnn)
      hleft hne]
    exact fun h => hb (List.mem_cons_of_mem _ h)
  · exact hbt (hperm.mem_iff.mpr (List.mem_cons_of_mem _ hbt'))

/-! ## The end of a search -/

theorem Shared.missing (hs : Shared db t) (hc : c.Bounded) (hp : p ∈ (whole t).trail ↑c.name)
    (hn : db.mem p = some n) (h0 : n.toward c.name = 0) :
    Advances db t c.lockType [p] [] (.called c) (db.missing p c) := by
  have hlook : t.lookup ↑c.name = none := hs.holds.lookup_none hp hn h0
  have hone : ∀ a ∈ [p], ∃ n, db.mem a = some n := by
    rintro a ha
    rw [List.mem_singleton.mp ha]
    exact ⟨n, hn⟩
  cases c with
  | query name len =>
    refine hs.same (.release (List.nodup_singleton p) hone) rfl (fun _ => Iff.rfl) ?_ (.point ?_)
    · exact fun _ h => absurd h List.not_mem_nil
    · rw [Call.spec, show contents t name = none from hlook]
      rfl
  | add name value =>
    have hlook : t.lookup ↑name = none := hlook
    obtain ⟨db1, an, hcons, hnew, hn1, hs', hchange⟩ :=
      hs.add (x := name) (w := value) hp hn h0 hc.1 hc.2
    have hrun : db.missing p (.add name value) = .ok (.release (.add name value) [p] (.int 1),
        db1.set p (some (n.setToward name db.fresh))) := by
      rw [Db.missing, hcons]
      simp only
      rw [deref_of_mem hnew, ok_bind, Db.setToward, deref_of_mem hn1]
      rfl
    refine ⟨_, _, _, [p], [], _, hrun, .release (List.nodup_singleton p) ?_, rfl, fun _ => Iff.rfl,
      fun _ h => absurd h List.not_mem_nil, hs', ⟨[p], hchange, ?_⟩, .point ?_⟩
    · rintro a ha
      rw [List.mem_singleton.mp ha]
      exact ⟨_, Db.set_mem_self _ _ _⟩
    · exact fun a ha => Or.inr ⟨rfl, ha⟩
    · rw [Call.spec, if_pos hlook]
      congr 1
      funext y
      simp only [lookup_put hlook, Function.update_apply, WithBot.coe_inj]
  | remove name =>
    have hlook : t.lookup ↑name = none := hlook
    refine hs.same (.release (List.nodup_singleton p) hone) rfl (fun _ => Iff.rfl) ?_ (.point ?_)
    · exact fun _ h => absurd h List.not_mem_nil
    · rw [Call.spec, if_pos hlook]

theorem Shared.spec_remove (hs : Shared db t) (hlook : t.lookup ↑x ≠ none) :
    Call.spec (contents t) (.remove x) = (.int 1, contents (t.cut ↑x)) := by
  rw [Call.spec, if_neg hlook]
  congr 1
  funext y
  simp only [lookup_cut hs.holds.ordered.2.1, Function.update_apply, WithBot.coe_inj]

/-- `db_remove` unlinks the node at once, or goes on to its right child. -/
theorem Shared.removeFound (hs : Shared db t) (hp : p ∈ (whole t).trail ↑x)
    (hn : db.mem p = some n) (h0 : n.toward x ≠ 0) (hd : db.mem (n.toward x) = some dn)
    (hx : x = dn.name) :
    Advances db t .write [p, n.toward x] [] (.called (.remove x))
      (db.removeFound x p (n.toward x)) := by
  have hpd : p ≠ n.toward x := hs.holds.ne_child hp hn h0
  have hlook : t.lookup ↑x ≠ none := by simp [hs.holds.lookup_child hp hn hd h0 hx]
  have hrelink : ∀ a, dn.rchild = 0 ∧ a = dn.lchild ∨ dn.lchild = 0 ∧ a = dn.rchild →
      Advances db t .write [p, n.toward x] [] (.called (.remove x)) (do
        let db ← db.setToward dn.name p a
        return (.freeNode x p (n.toward x), db)) := by
    intro a ha
    obtain ⟨hs', hout, hchange⟩ := hs.relink hp hn hd h0 hx ha
    have hrun : db.setToward dn.name p a = .ok (db.set p (some (n.setToward x a))) := by
      rw [Db.setToward, deref_of_mem hn, ← hx]
      rfl
    have hd' : (db.set p (some (n.setToward x a))).mem (n.toward x) = some dn :=
      (Db.set_mem_ne _ _ (Ne.symm hpd)).trans hd
    rw [hrun]
    refine ⟨_, _, _, [p, n.toward x], [n.toward x], _, rfl,
      .freeNode hpd (Db.set_mem_self _ _ _) hd' hout, rfl, fun _ => Iff.rfl, fun a ha => ?_, hs',
      ⟨_, hchange, fun a ha => Or.inr ⟨rfl, ha⟩⟩, .point (hs.spec_remove hlook)⟩
    exact Or.inr ⟨rfl, List.mem_cons_of_mem _ ha⟩
  rw [Db.removeFound, deref_of_mem hd, ok_bind]
  split_ifs with hr hl
  · exact hrelink _ (Or.inl ⟨hr, rfl⟩)
  · exact hrelink _ (Or.inr ⟨hl, rfl⟩)
  · exact hs.same (.lockRight ⟨hp, hn, rfl, h0, hd, hx, hl, hr⟩) rfl (fun _ => Iff.rfl)
      (fun _ h => absurd h List.not_mem_nil) .still

theorem Shared.found (hs : Shared db t) (hp : p ∈ (whole t).trail ↑c.name)
    (hn : db.mem p = some n) (h0 : n.toward c.name ≠ 0)
    (hd : db.mem (n.toward c.name) = some dn) (hx : c.name = dn.name) :
    Advances db t c.lockType [p, n.toward c.name] [] (.called c)
      (db.found p (n.toward c.name) c) := by
  have hpd : p ≠ n.toward c.name := hs.holds.ne_child hp hn h0
  have hlook : t.lookup ↑c.name = some dn.value := hs.holds.lookup_child hp hn hd h0 hx
  cases c with
  | query name len =>
    refine hs.same (.readValue hpd hn hd) rfl (fun _ => Iff.rfl) ?_ (.point ?_)
    · exact fun _ h => absurd h List.not_mem_nil
    · rw [Call.spec, show contents t name = some dn.value from hlook]
      rfl
  | add name value =>
    have hne : t.lookup ↑name ≠ none := by
      rw [show t.lookup ↑name = some dn.value from hlook]
      simp
    refine hs.same (.release ?_ ?_) rfl ?_ ?_ (.point ?_)
    · simpa using Ne.symm hpd
    · rintro a ha
      simp only [List.mem_cons, List.not_mem_nil, or_false] at ha
      rcases ha with rfl | rfl
      · exact ⟨dn, hd⟩
      · exact ⟨n, hn⟩
    · exact fun a => List.Perm.mem_iff (List.Perm.swap _ _ _)
    · exact fun _ h => absurd h List.not_mem_nil
    · rw [Call.spec, if_neg hne]
  | remove name => exact hs.removeFound hp hn h0 hd hx

/-- The search looks one node further. -/
theorem Shared.searchFrom (hs : Shared db t) (hc : c.Bounded) (hp : p ∈ (whole t).trail ↑c.name) :
    Advances db t c.lockType [p] [] (.called c) (db.searchFrom c p) := by
  obtain ⟨n, hn⟩ := hs.mem_of_tree (trail_subset hp)
  rw [Db.searchFrom, deref_of_mem hn, ok_bind]
  by_cases h0 : n.toward c.name = 0
  · simp only [h0, ↓reduceIte]
    exact hs.missing hc hp hn h0
  · simp only [h0, ↓reduceIte]
    exact hs.same (.lockNext hc hp hn h0) rfl (fun _ => Iff.rfl)
      (fun _ h => absurd h List.not_mem_nil) .still

/-! ## The walk -/

/-- The loop test, with the walk at `next`. -/
theorem Shared.walkTest (hs : Shared db t) (htg : Target db t x p d n dn)
    (hw : Walked db d next pnext L) (hpath : ∀ a ∈ L, a ∈ L' ∨ a ∈ as)
    (hheld : ∀ a, a ∈ [p, d, dn.rchild] ↔ a ∈ as) :
    Advances db t .write as L' (.called (.remove x)) (db.walkTest x p d next pnext) := by
  have hnext : next ∈ L := List.mem_of_getLast? hw.getLast
  obtain ⟨nn, hnn⟩ := hs.mem_of_tree
    (hw.mem_tree hs.holds (htg.mem_tree hs.holds) htg.dnode htg.right hnext)
  have hpath' : ∀ a ∈ L, a ∈ L' ∨ LockType.write = .write ∧ a ∈ as :=
    fun a ha => (hpath a ha).imp_right fun h => ⟨rfl, h⟩
  rw [Db.walkTest, deref_of_mem hnn, ok_bind]
  by_cases h0 : nn.lchild = 0
  · rw [if_neg (not_not.mpr h0), deref_of_mem htg.dnode, ok_bind]
    exact hs.same (.copyUp htg hw hnn h0) rfl hheld hpath' .still
  · rw [if_pos h0]
    exact hs.same (.lockLeft htg hw hnn h0) rfl hheld hpath' .still

/-- The copies of a removal fit. -/
def Pc.CopyFits (db : Db) : Pc → Prop
  | copyUp _ _ dnode next _ _ => ∀ d n, db.mem dnode = some d → db.mem next = some n →
      n.name.length + 1 ≤ d.nameCap ∧ n.value.length + 1 ≤ d.valueCap
  | _ => True

/-- The entry of the successor is copied up and the successor destroyed. -/
theorem Shared.copyUp (hs : Shared db t) (htg : Target db t x p d n dn)
    (hw : Walked db d next pnext L) (hnn : db.mem next = some nn) (hleft : nn.lchild = 0)
    (hfit : nn.name.length + 1 ≤ dn.nameCap ∧ nn.value.length + 1 ≤ dn.valueCap)
    (hheld : ∀ a, a ∈ [d, p] ↔ a ∈ as) (right : Addr) :
    Advances db t .write as L (.called (.remove x))
      (Pc.after db (.copyUp x p d next pnext right)) := by
  obtain ⟨hs', hchange⟩ := hs.splice htg hw hnn hleft hfit
  obtain ⟨hnd, hdp⟩ := htg.sizes hs.holds hw (List.mem_of_getLast? hw.getLast)
  have hlook : t.lookup ↑x ≠ none := by
    obtain ⟨hp, hn, rfl, h0, hd, hx, -⟩ := htg
    simp [hs.holds.lookup_child hp hn hd h0 hx]
  have hrun : Pc.after db (.copyUp x p d next pnext right) =
      .ok (.release (.remove x) [d, p] (.int 1), Good.spliced db d dn nn next pnext) := by
    rw [Pc.after, deref_of_mem hnn, ok_bind]
    exact Good.splice_run htg.dnode hw hnn (hs.ok _ _ hnn) hfit
  have hkeep : ∀ b m, b ≠ next → db.mem b = some m →
      ∃ k, (Good.spliced db d dn nn next pnext).mem b = some k := by
    intro b m hb hm
    obtain ⟨k, hk, -⟩ := Good.spliced_some hs.ok hnn hfit hb hm
    exact ⟨k, hk⟩
  have hplace : Place (Good.spliced db d dn nn next pnext) (t.cut ↑x)
      (.release (.remove x) [d, p] (.int 1)) [d, p] [] (.done (.int 1)) := by
    refine .release ?_ fun a ha => ?_
    · have hne : d ≠ p := by
        rintro rfl
        exact lt_irrefl _ hdp
      simpa using hne
    · simp only [List.mem_cons, List.not_mem_nil, or_false] at ha
      rcases ha with rfl | rfl
      · refine hkeep a dn ?_ htg.dnode
        rintro rfl
        exact lt_irrefl _ hnd
      · refine hkeep a n ?_ htg.parent
        rintro rfl
        exact lt_irrefl _ (lt_trans hnd hdp)
  refine ⟨_, _, _, _, _, _, hrun, hplace, rfl, hheld, fun _ h => absurd h List.not_mem_nil, hs',
    ⟨_, hchange, fun a ha => ?_⟩, .point (hs.spec_remove hlook)⟩
  rcases List.mem_cons.mp ha with rfl | ha
  · exact Or.inr ⟨rfl, (hheld a).mp List.mem_cons_self⟩
  · exact Or.inl ha

/-! ## From place to place -/

/-- The locks that a thread holds after an operation. -/
def LockOp.held (as : List Addr) : LockOp → List Addr
  | lock _ a => a :: as
  | unlock a => as.filter (· ≠ a)

/-- What is left when a lock is released. -/
theorem LockOp.mem_unlock (ha : a ∉ as') (has : ∀ b, b ∈ as ↔ b ∈ a :: as') (b : Addr) :
    b ∈ as' ↔ b ∈ (unlock a).held as := by
  rw [held, List.mem_filter, has b, List.mem_cons, decide_eq_true_eq]
  constructor
  · intro hb
    refine ⟨Or.inr hb, ?_⟩
    rintro rfl
    exact ha hb
  · rintro ⟨rfl | hb, hne⟩
    · exact absurd rfl hne
    · exact hb

theorem not_mem_of_below (hlt : ∀ b ∈ as, (whole t).sizeAt a < (whole t).sizeAt b) : a ∉ as :=
  fun ha => lt_irrefl _ (hlt a ha)

/-- The node that is unlinked is freed. -/
theorem Shared.freeNode (hs : Shared db t) (hne : p ≠ d) (hn : db.mem p = some n)
    (hd : db.mem d = some dn) (hout : d ∉ (whole t).addrs) (x : CString) :
    Advances db t .write [p] [d] (.done (.int 1)) (Pc.after db (.freeNode x p d)) := by
  have hrun : Pc.after db (.freeNode x p d) =
      .ok (.release (.remove x) [p] (.int 1), db.destroy d) := by
    rw [Pc.after, Db.nodeDestructor, deref_of_mem hd]
    rfl
  have hmem : ∀ a ∈ [p], ∃ m, (db.destroy d).mem a = some m := by
    intro a ha
    rw [List.mem_singleton.mp ha]
    exact ⟨n, (Db.destroy_mem_ne _ hne).trans hn⟩
  have hchange : Change db t (db.destroy d) t [d] := by
    refine ⟨?_, fun _ _ _ h => h, fun _ _ _ h => h⟩
    intro a _ ha
    exact Db.destroy_mem_ne _ fun h => ha (List.mem_singleton.mpr h)
  exact ⟨_, _, t, [p], [], _, hrun, .release (List.nodup_singleton p) hmem, rfl, fun _ => Iff.rfl,
    fun _ h => absurd h List.not_mem_nil, hs.destroy hout, ⟨[d], hchange, fun a => Or.inl⟩, .still⟩

/-- From every place a thread comes to the next one. -/
theorem Place.after {op : LockOp} (h : Place db t pc as L st) (hs : Shared db t)
    (hop : pc.op = some op) (hfits : pc.CopyFits db) :
    Advances db t pc.lockType (op.held as) L st (pc.after db) := by
  cases h with
  | idle => cases hop
  | lockHead hc =>
    cases hop
    exact hs.searchFrom hc head_mem_trail
  | @lockNext c parent n hc ht hn h0 =>
    cases hop
    obtain ⟨-, -, -, -, -, -, dn, -, -, -, hd, -⟩ := hs.holds.child ht hn h0
    rw [Pc.after, deref_of_mem hd, ok_bind]
    split_ifs with hx
    · exact (hs.found ht hn h0 hd (strcmp_eq_zero.mp hx)).congr
        fun a => List.Perm.mem_iff (List.Perm.swap _ _ _)
    · have hne : c.name ≠ dn.name := fun h => hx (strcmp_eq_zero.mpr h)
      exact hs.same (.unlockParent hc (hs.holds.trail_child ht hn hd h0 hne)
        (hs.holds.ne_child ht hn h0) hn) rfl (fun a => List.Perm.mem_iff (List.Perm.swap _ _ _))
        (fun _ h => absurd h List.not_mem_nil) .still
  | unlockParent hc ht hne hn =>
    cases hop
    refine (hs.searchFrom hc ht).congr fun a => ?_
    simp [LockOp.held, Ne.symm hne]
  | readValue hne hn htn =>
    cases hop
    rw [Pc.after, deref_of_mem htn, ok_bind]
    refine hs.same (.release (List.nodup_singleton _) ?_) rfl ?_ ?_ .still
    · rintro a ha
      rw [List.mem_singleton.mp ha]
      exact ⟨_, htn⟩
    · simp [LockOp.held, Ne.symm hne]
    · exact fun _ h => absurd h List.not_mem_nil
  | @freeNode name parent dnode n dn hne hn hd hout =>
    cases hop
    exact (hs.freeNode hne hn hd hout name).congr
      (LockOp.mem_unlock (List.mem_singleton.not.mpr (Ne.symm hne))
        fun b => (List.perm_append_singleton dnode [parent]).mem_iff)
  | @lockRight name parent dnode n dn ht =>
    cases hop
    rw [Pc.after, deref_of_mem ht.dnode, ok_bind]
    refine hs.walkTest ht (.start ht.dnode) ?_ ?_
    · exact fun a ha => Or.inr (List.mem_cons.mpr (Or.inl (List.mem_singleton.mp ha)))
    · exact fun a => (List.perm_append_singleton dn.rchild [parent, dnode]).mem_iff
  | @lockLeft name parent dnode next pnext L n dn nn ht hw hn h0 =>
    cases hop
    rw [Pc.after, deref_of_mem hn, ok_bind]
    refine hs.same (.unlockLeft ht hw hn h0) rfl ?_ ?_ .still
    · exact fun a => (List.perm_append_singleton nn.lchild [parent, dnode, dn.rchild]).mem_iff
    · intro a ha
      rcases List.mem_append.mp ha with ha | ha
      · exact Or.inl ha
      · exact Or.inr ⟨rfl, List.mem_cons.mpr (Or.inl (List.mem_singleton.mp ha))⟩
  | @unlockLeft name parent dnode next pnext L n dn nn ht hw hn h0 =>
    cases hop
    rw [Pc.after]
    have hnot := not_mem_of_below (ht.left_lt hs.holds hw hn h0)
    refine hs.walkTest ht (hw.step hn h0) (fun a ha => Or.inl ha) (LockOp.mem_unlock hnot ?_)
    exact fun b => (List.perm_append_singleton nn.lchild [parent, dnode, dn.rchild]).mem_iff
  | @copyUp name parent dnode next pnext L n dn nn ht hw hn h0 =>
    cases hop
    have hnot := not_mem_of_below (ht.right_lt hs.holds)
    have hheld := LockOp.mem_unlock hnot
      fun b => (List.perm_append_singleton dn.rchild [parent, dnode]).mem_iff
    refine hs.copyUp ht hw hn h0 (hfits dn nn ht.dnode hn) (fun a => ?_) dn.rchild
    exact Iff.trans (List.Perm.swap parent dnode []).mem_iff (hheld a)
  | @release c as r hnd hmem =>
    cases as with
    | nil => cases hop
    | cons a as =>
      cases hop
      have hnd := List.nodup_cons.mp hnd
      exact hs.same (.release hnd.2 fun b hb => hmem b (List.mem_cons_of_mem _ hb)) rfl
        (LockOp.mem_unlock hnd.1 fun _ => Iff.rfl) (fun _ h => absurd h List.not_mem_nil) .still

end CourseProjects.Database

import CourseProjects.Database.Segments

/-!
# Every interleaving

The threads stay in their places while the others run: what one thread changes
is locked against the others or lies on its path, and no other thread can get
onto that path, since the one link to each of its nodes is on the path too or in
a node that is locked.
-/

namespace CourseProjects.Database

open TreeHeap SearchTree SearchTree.Tree History

/-! ## Locks -/

namespace RwLock

variable {lk lk' : RwLock} {i j : Tid} {lt : LockType}

/-- No thread reads twice. -/
def Simple : RwLock → Prop
  | readers ts => ts.Nodup
  | writer _ => True

theorem heldBy_lock (h : lk.lock i lt = some lk') :
    lk'.heldBy i = some lt ∧ ∀ j, j ≠ i → lk'.heldBy j = lk.heldBy j := by
  cases lk with
  | writer u => cases lt <;> cases h
  | readers ts =>
    cases lt with
    | read =>
      cases h
      refine ⟨by simp [heldBy], fun j hj => ?_⟩
      simp [heldBy, hj]
    | write =>
      cases ts with
      | cons u ts => cases h
      | nil =>
        cases h
        refine ⟨by simp [heldBy], fun j hj => ?_⟩
        simp [heldBy, Ne.symm hj]

/-- A thread that gets the lock finds no writer, and no reader if it writes. -/
theorem lock_excludes (h : lk.lock i lt = some lk') (j : Tid) :
    lk.heldBy j ≠ some .write ∧ (lt = .write → lk.heldBy j = none) := by
  cases lk with
  | writer u => cases lt <;> cases h
  | readers ts =>
    cases ts with
    | nil => simp [heldBy]
    | cons u ts =>
      cases lt with
      | read =>
        refine ⟨?_, fun h => absurd h (by simp)⟩
        simp only [heldBy]
        split_ifs <;> simp
      | write => cases h

theorem Simple.lock (hs : lk.Simple) (hi : lk.heldBy i = none) (h : lk.lock i lt = some lk') :
    lk'.Simple := by
  cases lk with
  | writer u => cases lt <;> cases h
  | readers ts =>
    have hni : i ∉ ts := by
      intro hm
      simp [heldBy, hm] at hi
    cases lt with
    | read =>
      cases h
      exact List.nodup_cons.mpr ⟨hni, hs⟩
    | write =>
      cases ts with
      | cons u ts => cases h
      | nil =>
        cases h
        trivial

theorem Simple.unlock (hs : lk.Simple) : (lk.unlock i).Simple := by
  cases lk with
  | readers ts => exact List.Nodup.erase i hs
  | writer u =>
    simp only [RwLock.unlock]
    split_ifs
    · exact List.nodup_nil
    · trivial

theorem heldBy_unlock (hs : lk.Simple) :
    (lk.unlock i).heldBy i = none ∧ ∀ j, j ≠ i → (lk.unlock i).heldBy j = lk.heldBy j := by
  cases lk with
  | readers ts =>
    refine ⟨?_, fun j hj => ?_⟩
    · have hni : i ∉ ts.erase i := fun h => (List.Nodup.mem_erase_iff hs).mp h |>.1 rfl
      simp [RwLock.unlock, heldBy, hni]
    · simp only [RwLock.unlock, heldBy, List.mem_erase_of_ne hj]
  | writer u =>
    by_cases hu : u = i
    · subst hu
      refine ⟨by simp [RwLock.unlock, heldBy, free], fun j hj => ?_⟩
      simp [RwLock.unlock, heldBy, free, Ne.symm hj]
    · refine ⟨by simp [RwLock.unlock, heldBy, hu], fun j _ => by simp [RwLock.unlock, hu]⟩

theorem writer_alone (h : lk.heldBy i = some .write) (hij : i ≠ j) : lk.heldBy j = none := by
  cases lk with
  | readers ts =>
    simp only [heldBy] at h
    split_ifs at h
    cases h
  | writer u =>
    simp only [heldBy] at h ⊢
    split_ifs at h with hu
    rw [hu, if_neg hij]

end RwLock

variable {db db' : Db} {t t' : NTree} {a b p d x : Addr} {L as : List Addr} {pc : Pc}
  {st : Status Call Result} {op : LockOp} {lt : LockType} {name : CString} {n dn : Node}

theorem Pc.type_of_lock (hop : pc.op = some (.lock lt a)) : lt = pc.lockType := by
  cases pc with
  | idle | crashed => cases hop
  | release c as r => cases as <;> cases hop
  | lockHead | lockNext | lockRight | lockLeft =>
    cases hop
    rfl
  | unlockParent | readValue | freeNode | unlockLeft | copyUp => cases hop

/-! ## What a place says about the nodes -/

theorem Target.right_mem (htg : Target db t name p d n dn) (hs : Shared db t) :
    ∃ m, db.mem dn.rchild = some m :=
  hs.mem_of_tree (hs.holds.link_right (htg.mem_tree hs.holds) htg.dnode htg.right).mem_child

theorem Target.held_mem (htg : Target db t name p d n dn) (hs : Shared db t)
    (ha : a ∈ [p, d, dn.rchild]) : ∃ m, db.mem a = some m := by
  simp only [List.mem_cons, List.not_mem_nil, or_false] at ha
  rcases ha with rfl | rfl | rfl
  · exact ⟨n, htg.parent⟩
  · exact ⟨dn, htg.dnode⟩
  · exact htg.right_mem hs

namespace Place

variable (h : Place db t pc as L st) (hs : Shared db t)
include h

theorem not_crashed (f : Fault) : pc ≠ .crashed f := by
  cases h <;> simp

include hs

/-- A path that is not locked is a walk from a locked node. -/
theorem walk (ha : a ∈ L) : pc.lockType = .write ∧ (a ∈ as ∨
    ∃ d next pnext dn, d ∈ as ∧ Walked db d next pnext L ∧ d ∈ (whole t).addrs ∧
      db.mem d = some dn ∧ dn.rchild ≠ 0 ∧ dn.rchild ∈ as) := by
  cases h with
  | idle | lockHead | lockNext | unlockParent | readValue | lockRight | release => cases ha
  | freeNode =>
    rw [List.mem_singleton.mp ha]
    exact ⟨rfl, Or.inl (by simp)⟩
  | lockLeft ht hw =>
    exact ⟨rfl, Or.inr ⟨_, _, _, _, by simp, hw, ht.mem_tree hs.holds, ht.dnode, ht.right, by simp⟩⟩
  | unlockLeft ht hw hn h0 =>
    exact ⟨rfl, Or.inr ⟨_, _, _, _, by simp, hw.step hn h0, ht.mem_tree hs.holds, ht.dnode, ht.right,
      by simp⟩⟩
  | copyUp ht hw =>
    exact ⟨rfl, Or.inr ⟨_, _, _, _, by simp, hw, ht.mem_tree hs.holds, ht.dnode, ht.right, by simp⟩⟩

/-- A locked node is in memory. -/
theorem held_mem (ha : a ∈ as) : ∃ m, db.mem a = some m := by
  cases h with
  | idle | lockHead => cases ha
  | lockNext _ _ hn =>
    rw [List.mem_singleton.mp ha]
    exact ⟨_, hn⟩
  | unlockParent _ ht _ hn =>
    simp only [List.mem_cons, List.not_mem_nil, or_false] at ha
    rcases ha with rfl | rfl
    · exact ⟨_, hn⟩
    · exact hs.mem_of_tree (trail_subset ht)
  | readValue _ hn hm | freeNode _ hn hm =>
    simp only [List.mem_cons, List.not_mem_nil, or_false] at ha
    rcases ha with rfl | rfl
    · exact ⟨_, hn⟩
    · exact ⟨_, hm⟩
  | lockRight ht => exact ht.held_mem hs (List.mem_of_mem_dropLast ha)
  | lockLeft ht | copyUp ht => exact ht.held_mem hs ha
  | unlockLeft ht hw hn h0 =>
    rw [List.mem_cons, List.mem_cons, List.mem_cons, List.mem_singleton] at ha
    have hnext := hw.mem_tree hs.holds (ht.mem_tree hs.holds) ht.dnode ht.right
      (List.mem_of_getLast? hw.getLast)
    rcases ha with ha | ha | ha | rfl
    · exact ht.held_mem hs (by simp [ha])
    · exact ht.held_mem hs (by simp [ha])
    · exact ht.held_mem hs (by simp [ha])
    · exact hs.mem_of_tree (hs.holds.link_left hnext hn h0).mem_child
  | release _ hm => exact hm _ ha

theorem path_mem (ha : a ∈ L) : ∃ m, db.mem a = some m := by
  obtain ⟨-, ha' | ⟨d, next, pnext, dn, -, hw, hd, hdn, h0, -⟩⟩ := h.walk hs ha
  · exact h.held_mem hs ha'
  · exact hs.mem_of_tree (hw.mem_tree hs.holds hd hdn h0 ha)

/-- A thread asks for `head`, or for a child of a node that is locked or on its
path; it asks for a node below all those that it has locked. -/
theorem request (hop : pc.op = some (.lock lt a)) :
    (a = head ∧ as = [] ∨ ∃ q left, Link (whole t) q left a ∧ (q ∈ as ∨ q ∈ L)) ∧
      ∀ b ∈ as, (whole t).sizeAt a < (whole t).sizeAt b := by
  cases h with
  | idle | unlockParent | readValue | freeNode | unlockLeft | copyUp => cases hop
  | @release c as r => cases as <;> cases hop
  | lockHead =>
    cases hop
    exact ⟨Or.inl ⟨rfl, rfl⟩, fun _ h => absurd h List.not_mem_nil⟩
  | lockNext _ ht hn h0 =>
    cases hop
    obtain ⟨left, hlink⟩ := hs.holds.link_toward (trail_subset ht) hn h0
    refine ⟨Or.inr ⟨_, left, hlink, Or.inl (by simp)⟩, fun b hb => ?_⟩
    rw [List.mem_singleton.mp hb]
    exact hlink.sizeAt_lt hs.holds.nodup
  | lockRight ht =>
    cases hop
    have hlink := hs.holds.link_right (ht.mem_tree hs.holds) ht.dnode ht.right
    exact ⟨Or.inr ⟨_, _, hlink, Or.inl (by simp)⟩, ht.right_lt hs.holds⟩
  | lockLeft ht hw hn h0 =>
    cases hop
    have hnext := List.mem_of_getLast? hw.getLast
    have hd := ht.mem_tree hs.holds
    have hlink := hs.holds.link_left (hw.mem_tree hs.holds hd ht.dnode ht.right hnext) hn h0
    exact ⟨Or.inr ⟨_, _, hlink, Or.inr hnext⟩, ht.left_lt hs.holds hw hn h0⟩

omit hs in
/-- A thread releases what it has locked. -/
theorem released (hop : pc.op = some (.unlock a)) : a ∈ as := by
  cases h with
  | idle | lockHead | lockNext | lockRight | lockLeft => cases hop
  | @release c as r =>
    cases as with
    | nil => cases hop
    | cons b as =>
      cases hop
      exact List.mem_cons_self
  | unlockParent | readValue | freeNode | unlockLeft | copyUp =>
    cases hop
    simp

/-- The node of a lock operation is in memory. -/
theorem op_mem (hop : pc.op = some op) : ∃ m, db.mem op.addr = some m := by
  cases op with
  | unlock a => exact h.held_mem hs (h.released hop)
  | lock lt a =>
    obtain ⟨⟨rfl, -⟩ | ⟨q, left, hlink, -⟩, -⟩ := h.request hs hop
    · exact hs.mem_of_tree head_mem
    · exact hs.mem_of_tree hlink.mem_child

end Place

theorem Effect.linear {m m' m₀ : Contents} {st : Tid → Status Call Result} {i : Tid}
    {st₁ st₂ : Status Call Result} {h : List (Event Tid Call Result)} (he : Effect m m' st₁ st₂)
    (hl : Linearization Call.spec m₀ h st m) (hst : st i = st₁) :
    Linearization Call.spec m₀ h (Function.update st i st₂) m' := by
  cases he with
  | still =>
    rw [← hst, Function.update_eq_self]
    exact hl
  | point hspec =>
    have := hl.point hst
    rwa [hspec] at this

/-! ## The invariant -/

/-- Every thread is in its place, holds the locks of its place, and keeps the
others off its path; the history so far is that of the map in the tree. -/
structure Inv (s : State) (t : NTree) (held path : Tid → List Addr)
    (st : Tid → Status Call Result) : Prop where
  shared : Shared s.db t
  place : ∀ i, Place s.db t (s.pc i) (held i) (path i) (st i)
  locks : ∀ i a, (s.lock a).heldBy i = if a ∈ held i then some (s.pc i).lockType else none
  simple : ∀ a, (s.lock a).Simple
  shut : ∀ i j, i ≠ j → ∀ a ∈ path i, a ∉ held j
  linear : Linearization Call.spec (fun _ => none) s.history st (contents t)

namespace Inv

variable {s s' : State} {held path : Tid → List Addr} {st : Tid → Status Call Result} {i j : Tid}
  {lk : RwLock} (hi : Inv s t held path st)
include hi

theorem locked (ha : a ∈ held i) : (s.lock a).heldBy i = some (s.pc i).lockType := by
  rw [hi.locks, if_pos ha]

theorem not_held (h : (s.lock a).heldBy i = none) : a ∉ held i := by
  intro ha
  rw [hi.locked ha] at h
  cases h

theorem exclusive (hij : i ≠ j) (hw : (s.pc i).lockType = .write) (ha : a ∈ held i) :
    a ∉ held j := by
  have hlock := hi.locked ha
  rw [hw] at hlock
  exact hi.not_held (RwLock.writer_alone hlock hij)

/-- Paths do not meet. -/
theorem apart (hij : i ≠ j) (ha : a ∈ path i) : a ∉ path j := by
  intro ha'
  obtain ⟨-, hai | ⟨d, next, pnext, dn, hd, hw, hdt, hdn, h0, hr⟩⟩ := (hi.place i).walk hi.shared ha
  · exact hi.shut j i (Ne.symm hij) a ha' hai
  · obtain ⟨-, haj | ⟨d', next', pnext', dn', hd', hw', hdt', hdn', h0', hr'⟩⟩ :=
      (hi.place j).walk hi.shared ha'
    · exact hi.shut i j hij a ha haj
    · rcases hw.meet hw' hi.shared.holds hdt hdn h0 hdt' hdn' h0' ha ha' with h | h
      · exact hi.shut j i (Ne.symm hij) _ h hr
      · exact hi.shut i j hij _ h hr'

/-- What a thread holds after its lock operation, when it writes, nobody else
holds. -/
theorem held_own {op : LockOp} (hop : (s.pc i).op = some op)
    (hlk : op.apply i (s.lock op.addr) = some lk) (hij : i ≠ j)
    (hw : (s.pc i).lockType = .write) (ha : a ∈ op.held (held i)) : a ∉ held j := by
  cases op with
  | unlock b => exact hi.exclusive hij hw (List.mem_filter.mp ha).1
  | lock lt b =>
    rcases List.mem_cons.mp ha with rfl | ha
    · exact hi.not_held ((RwLock.lock_excludes hlk j).2 ((Pc.type_of_lock hop).trans hw))
    · exact hi.exclusive hij hw ha

/-- No thread locks a node on the path of another. -/
theorem path_shut {op : LockOp} (hop : (s.pc i).op = some op)
    (hlk : op.apply i (s.lock op.addr) = some lk) (hij : i ≠ j) (ha : a ∈ path j) :
    a ∉ op.held (held i) := by
  cases op with
  | unlock b => exact fun h => hi.shut j i (Ne.symm hij) a ha (List.mem_filter.mp h).1
  | lock lt b =>
    intro h
    rcases List.mem_cons.mp h with rfl | h
    · obtain ⟨hwj, haj | ⟨d, next, pnext, dn, hd, hw, hdt, hdn, h0, hr⟩⟩ :=
        (hi.place j).walk hi.shared ha
      · -- the writer `j` holds the node, so that `i` cannot have got it
        have hlock := hi.locked haj
        rw [hwj] at hlock
        exact (RwLock.lock_excludes hlk j).1 hlock
      · obtain ⟨q, left, hlink, hq⟩ := hw.link hi.shared.holds hdt hdn h0 ha
        obtain ⟨⟨rfl, -⟩ | ⟨q', left', hlink', hq'⟩, -⟩ := (hi.place i).request hi.shared hop
        · exact hlink.ne_root hi.shared.holds.nodup rfl
        · rw [(hlink'.unique hi.shared.holds.nodup hlink).1] at hq'
          rcases hq with ⟨rfl, -⟩ | hqj
          · rcases hq' with hq' | hq'
            · exact hi.exclusive (Ne.symm hij) hwj hd hq'
            · exact hi.shut i j hij q hq' hd
          · rcases hq' with hq' | hq'
            · exact hi.shut j i (Ne.symm hij) q hqj hq'
            · exact hi.apart hij hq' hqj
    · exact hi.shut j i (Ne.symm hij) a ha h

/-- The locks after a thread has made its lock operation. -/
theorem locks_after {op : LockOp} (hop : (s.pc i).op = some op)
    (hlk : op.apply i (s.lock op.addr) = some lk) :
    lk.Simple ∧
      (∀ j a, (Function.update s.lock op.addr lk a).heldBy j =
        if a ∈ (if j = i then op.held (held i) else held j) then some (s.pc j).lockType else none) := by
  have hsimple := hi.simple op.addr
  have hself : lk.heldBy i = if op.addr ∈ op.held (held i) then some (s.pc i).lockType else none := by
    cases op with
    | lock lt a =>
      rw [(RwLock.heldBy_lock hlk).1, Pc.type_of_lock hop]
      simp [LockOp.held, LockOp.addr]
    | unlock a =>
      cases hlk
      rw [(RwLock.heldBy_unlock hsimple).1]
      simp [LockOp.held, LockOp.addr]
  have hother : ∀ j, j ≠ i → lk.heldBy j = (s.lock op.addr).heldBy j := by
    cases op with
    | lock lt a => exact (RwLock.heldBy_lock hlk).2
    | unlock a =>
      cases hlk
      exact (RwLock.heldBy_unlock hsimple).2
  have hkeep : ∀ b, b ≠ op.addr → (b ∈ op.held (held i) ↔ b ∈ held i) := by
    intro b hb
    cases op with
    | lock lt a => exact List.mem_cons.trans (or_iff_right hb)
    | unlock a =>
      simp only [LockOp.held, LockOp.addr] at hb ⊢
      simp [hb]
  refine ⟨?_, fun j b => ?_⟩
  · cases op with
    | lock lt a =>
      refine hsimple.lock ?_ hlk
      rw [hi.locks, if_neg]
      exact fun h => lt_irrefl _ (((hi.place i).request hi.shared hop).2 a h)
    | unlock a =>
      cases hlk
      exact hsimple.unlock
  · by_cases hb : b = op.addr
    · subst hb
      rw [Function.update_self]
      by_cases hj : j = i
      · subst hj
        rw [if_pos rfl, hself]
      · rw [if_neg hj, hother j hj, hi.locks]
    · rw [Function.update_of_ne hb, hi.locks]
      by_cases hj : j = i
      · subst hj
        simp only [↓reduceIte, hkeep b hb]
      · rw [if_neg hj]

/-- A thread goes from one lock operation to the next. -/
theorem perform {op : LockOp} (hop : (s.pc i).op = some op) (hfits : (s.pc i).CopyFits s.db)
    (hstep : s.perform i op = some s') :
    ∃ t' held' path' st', Inv s' t' held' path' st' := by
  obtain ⟨m, hm⟩ := (hi.place i).op_mem hi.shared hop
  obtain ⟨pc, db', t', as', L', st', hrun, hadv⟩ := (hi.place i).after hi.shared hop hfits
  rw [State.perform, hm] at hstep
  simp only at hstep
  cases hlk : op.apply i (s.lock op.addr) with
  | none =>
    rw [hlk] at hstep
    cases hstep
  | some lk =>
    rw [hlk, hrun] at hstep
    cases hstep
    obtain ⟨hplace, htype, hheld, hpath, hshared, ⟨W, hchange, hW⟩, heffect⟩ := hadv
    obtain ⟨hsimple, hlocks⟩ := hi.locks_after hop hlk
    refine ⟨t', Function.update held i as', Function.update path i L', Function.update st i st',
      hshared, fun j => ?_, fun j a => ?_, fun a => ?_, fun j k hjk a ha => ?_, ?_⟩
    · by_cases hj : j = i
      · subst hj
        simpa [State.setPc] using hplace
      · have hheldj : ∀ a ∈ held j, a ∉ W := fun a ha h => by
          rcases hW a h with h | ⟨hw, h⟩
          · exact hi.shut i j (Ne.symm hj) a h ha
          · exact hi.held_own hop hlk (Ne.symm hj) hw h ha
        have hpathj : ∀ a ∈ path j, a ∉ W := fun a ha h => by
          rcases hW a h with h | ⟨hw, h⟩
          · exact hi.apart hj ha h
          · exact hi.path_shut hop hlk (Ne.symm hj) ha h
        have hin : ∀ a ∈ held j, s.db.mem a ≠ none := fun a ha =>
          Option.ne_none_iff_exists'.mpr ((hi.place j).held_mem hi.shared ha)
        have hinp : ∀ a ∈ path j, s.db.mem a ≠ none := fun a ha =>
          Option.ne_none_iff_exists'.mpr ((hi.place j).path_mem hi.shared ha)
        have hframe := (hi.place j).frame
          (fun a ha => hchange.mem a (hin a ha) (hheldj a ha))
          (fun a ha => hchange.mem a (hinp a ha) (hpathj a ha))
          (fun a ha => hchange.trail a (hheldj a ha))
          (fun a ha => hchange.out a (hin a ha) (hheldj a ha))
        simpa [State.setPc, hj] using hframe
    · simp only [hlocks, State.setPc]
      by_cases hj : j = i
      · subst hj
        simp only [↓reduceIte, Function.update_self, hheld, htype]
      · simp only [hj, ↓reduceIte, Function.update_of_ne hj]
    · by_cases ha : a = op.addr
      · subst ha
        simpa using hsimple
      · simpa [ha] using hi.simple a
    · by_cases hj : j = i
      · subst hj
        rw [Function.update_self] at ha
        rw [Function.update_of_ne (Ne.symm hjk)]
        rcases hpath a ha with h | ⟨hw, h⟩
        · exact hi.shut j k hjk a h
        · exact hi.held_own hop hlk hjk hw h
      · rw [Function.update_of_ne hj] at ha
        by_cases hk : k = i
        · subst hk
          rw [Function.update_self, hheld]
          exact hi.path_shut hop hlk (Ne.symm hj) ha
        · rw [Function.update_of_ne hk]
          exact hi.shut j k hjk a ha
    · exact heffect.linear hi.linear rfl

/-- A thread without locks calls or returns. -/
theorem setPc {pc : Pc} {x : Status Call Result} {h : List (Event Tid Call Result)}
    (hheld : held i = []) (hpath : path i = []) (hplace : Place s.db t pc [] [] x)
    (hlin : Linearization Call.spec (fun _ => none) h (Function.update st i x) (contents t)) :
    Inv { s.setPc i pc with history := h } t held path (Function.update st i x) := by
  refine ⟨hi.shared, fun j => ?_, fun j a => ?_, hi.simple, hi.shut, hlin⟩
  · by_cases hj : j = i
    · subst hj
      simpa [State.setPc, hheld, hpath] using hplace
    · simpa [State.setPc, hj] using hi.place j
  · by_cases hj : j = i
    · subst hj
      have := hi.locks j a
      simpa [State.setPc, hheld] using this
    · simpa [State.setPc, hj] using hi.locks j a

theorem call {c : Call} (hpc : s.pc i = .idle) (hc : c.Bounded) : ∃ st', Inv
    { s.setPc i (.lockHead c) with history := s.history ++ [.call i c] } t held path st' := by
  have hplace := hi.place i
  rw [hpc] at hplace
  generalize hst : st i = x at hplace
  generalize hheld : held i = as at hplace
  generalize hpath : path i = L at hplace
  cases hplace with
  | idle => exact ⟨_, hi.setPc hheld hpath (.lockHead hc) (hi.linear.call hst c)⟩

theorem ret {c : Call} {as : List Addr} {r : Result} (hpc : s.pc i = .release c as r)
    (hop : (s.pc i).op = none) : ∃ st', Inv
    { s.setPc i .idle with history := s.history ++ [.ret i r] } t held path st' := by
  have hplace := hi.place i
  rw [hpc] at hplace hop
  generalize hst : st i = x at hplace
  generalize hheld : held i = as' at hplace
  generalize hpath : path i = L at hplace
  cases hplace with
  | release =>
    cases as with
    | nil => exact ⟨_, hi.setPc hheld hpath .idle (hi.linear.ret hst)⟩
    | cons a as => cases hop

omit hi in
theorem copyFits_of (h : s.copyFits (.run i) = true) : (s.pc i).CopyFits s.db := by
  unfold Pc.CopyFits
  cases hpc : s.pc i with
  | copyUp name parent dnode next pnext right =>
    intro d n hd hn
    simpa [State.copyFits, hpc, hd, hn] using h
  | _ => trivial

theorem act {e : Act} (hfits : s.copyFits e = true) (hact : s.act e = some s') :
    ∃ t' held' path' st', Inv s' t' held' path' st' := by
  cases e with
  | call i c =>
    simp only [State.act] at hact
    split at hact
    · rename_i hpc
      split_ifs at hact with hc
      cases hact
      obtain ⟨st', hi'⟩ := hi.call hpc hc
      exact ⟨t, held, path, st', hi'⟩
    · cases hact
  | run i =>
    simp only [State.act, State.run] at hact
    split at hact
    · rename_i op hop
      exact hi.perform hop (copyFits_of hfits) hact
    · rename_i hop
      split at hact
      · rename_i c as r hpc
        cases hact
        obtain ⟨st', hi'⟩ := hi.ret hpc hop
        exact ⟨t, held, path, st', hi'⟩
      · cases hact
  | wild i db =>
    simp only [State.act] at hact
    split at hact
    · rename_i f hpc
      exact absurd hpc ((hi.place i).not_crashed f)
    · cases hact

end Inv

theorem inv_init : Inv .init leaf (fun _ => []) (fun _ => []) (fun _ => .idle) := by
  obtain ⟨hholds, -, hfresh, hok, -⟩ := good_init
  refine ⟨⟨hholds, fun a n hn => ?_, hok⟩, fun _ => .idle, fun i a => ?_, fun a => List.nodup_nil,
    fun _ _ _ _ h => absurd h List.not_mem_nil, .nil⟩
  · exact hfresh a ((good_init.mem_iff a).mp (by simp [State.init] at hn; simp [hn]))
  · simp [State.init, RwLock.free, RwLock.heldBy]

/-- The steps whose copies fit in the buffers. -/
abbrev fitting : Transition.System State Act :=
  threads.restrict fun s e => s.copyFits e = true

theorem inv_invariant : fitting.Invariant fun s => ∃ t held path st, Inv s t held path st where
  init := by
    rintro s rfl
    exact ⟨_, _, _, _, inv_init⟩
  step := by
    rintro s e s' ⟨t, held, path, st, hi⟩ ⟨hfits, hact⟩
    exact hi.act hfits hact

/-! ## Linearizability -/

/-- No thread has used memory that is not there or left its buffers, and the
calls have the results and the effect of a sequence of calls of the map. -/
structure State.Linear (s : State) : Prop where
  defined : ∀ i f, s.pc i ≠ .crashed f
  linear : ∃ m, Linearizable Call.spec (fun _ => none) s.history m ∧ Stores s.db m

/-- **Linearizability.** -/
theorem threads_linear {s : State} (hs : fitting.Reachable s) : s.Linear := by
  obtain ⟨t, held, path, st, hi⟩ := hs.rule inv_invariant
  exact ⟨fun i => (hi.place i).not_crashed, contents t, ⟨st, hi.linear⟩, hi.shared.holds.stores⟩

/-- A call that a thread begins and goes on with for `k` steps. -/
def Act.solo (t : Tid) (c : Call) (k : Nat) : List Act :=
  .call t c :: List.replicate k (.run t)

theorem fitting_exec {es : List Act} {s : State} (h : Transition.System.exec
    (fun s e => if s.copyFits e then s.act e else none) .init es = some s) :
    fitting.Reachable s := by
  refine Transition.System.Reachable.exec ?_ (.init rfl) h
  intro s e s' he
  split_ifs at he with hfits
  exact ⟨hfits, he⟩

/-- A node with two children is removed while another thread reads its
successor. -/
def removalAndQuery : List Act :=
  Act.solo 0 (.add [109] [49]) 3 ++ Act.solo 0 (.add [97] [49]) 5 ++
    Act.solo 0 (.add [122] [49]) 5 ++ Act.solo 1 (.query [122] 256) 4 ++
    Act.solo 0 (.remove [109]) 1 ++ [.run 1, .run 0, .run 1, .run 0, .run 1] ++
    List.replicate 4 (.run 0)

theorem removalAndQuery_linear : ∃ s, Transition.System.exec
    (fun s e => if s.copyFits e then s.act e else none) State.init removalAndQuery = some s ∧
      s.Linear := by
  have hsome : (Transition.System.exec (fun s e => if s.copyFits e then s.act e else none)
      State.init removalAndQuery).isSome := by decide +kernel
  obtain ⟨s, hs⟩ := Option.isSome_iff_exists.mp hsome
  exact ⟨s, hs, threads_linear (fitting_exec hs)⟩

/-! ## Beyond the buffers -/

/-- One thread makes the calls of `longSuccessor`, with the longest name, and leaves a
buffer. -/
def overflowRun : List Act :=
  Act.solo 0 (.add [109] [49]) 3 ++ Act.solo 0 (.add [97] [49]) 5 ++
    Act.solo 0 (.add (List.replicate 255 122) [49]) 5 ++ Act.solo 0 (.remove [109]) 4

def Pc.overflowed : Pc → Bool
  | crashed .overflow => true
  | _ => false

theorem overflowRun_crashes : ∃ s, threads.Reachable s ∧
    Transition.System.exec State.act State.init overflowRun = some s ∧
      s.pc 0 = .crashed .overflow := by
  have hsome : (Transition.System.exec State.act State.init overflowRun).any
      (fun s => (s.pc 0).overflowed) = true := by decide +kernel
  obtain ⟨s, hs, hpc⟩ := (Option.any_eq_true _ _).mp hsome
  refine ⟨s, Transition.System.Reachable.exec (fun _ _ _ h => h) (.init rfl) hs, hs, ?_⟩
  unfold Pc.overflowed at hpc
  split at hpc
  · assumption
  · cases hpc

/-- After the overflow no sequence of calls explains the memory. -/
theorem overflow_not_linear : ∃ s, threads.Reachable s ∧ s.pc 0 = .crashed .overflow ∧
    ¬ ∃ m, Linearizable Call.spec (fun _ => none) s.history m ∧ Stores s.db m := by
  obtain ⟨s, hs, -, hpc⟩ := overflowRun_crashes
  have hwild : s.act (.wild 0 ⟨fun _ => none, 2, [], []⟩) =
      some { s with db := ⟨fun _ => none, 2, [], []⟩ } := by
    simp only [State.act, hpc]
  refine ⟨_, hs.step hwild, hpc, ?_⟩
  rintro ⟨m, -, h, T, hh, -⟩
  cases hh

end CourseProjects.Database

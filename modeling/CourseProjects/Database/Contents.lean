import CourseProjects.Database.Operations

/-!
# Call sequences and the finite map

The results of a sequence of calls are those of a finite map exactly as long as
every removal of a node with two children finds buffers that are large enough
for the entry of the successor.
-/

namespace CourseProjects.Database

open TreeHeap SearchTree SearchTree.Tree

variable {db db' : Db} {t : NTree} {a : Addr} {x : CString} {n : Node}

/-- A node as a cell of a tree of names. -/
def Db.named (db : Db) (a : Addr) : Option (Cell Addr CString CString) :=
  (db.mem a).map fun n => ⟨n.name, n.value, n.lchild, n.rchild⟩

/-- The tree under `head` is a binary search tree in the order of `strcmp`, each
name once, that holds exactly the map. -/
def Stores (db : Db) (m : Contents) : Prop :=
  ∃ (h : Node) (T : Tree Addr CString CString), db.mem head = some h ∧ h.lchild = 0 ∧
    h.rchild = T.root ∧ Rep db.named T ∧ (head :: T.addrs).Nodup ∧ T.Ordered ∧
    ∀ x, T.lookup x = m x

/-- Without `head` the keys are names. -/
theorem exists_named (ht : Rep db.cells t) (hh : head ∉ t.addrs) :
    ∃ T : Tree Addr CString CString, t = T.mapKey WithBot.some ∧ Rep db.named T := by
  induction t with
  | leaf => exact ⟨leaf, rfl, trivial⟩
  | node l a k v r ihl ihr =>
    obtain ⟨ha0, hc, hl, hr⟩ := ht
    simp only [addrs, List.mem_append, List.mem_cons, not_or] at hh
    obtain ⟨n, hn, hcell⟩ := Option.map_eq_some_iff.mp hc
    rw [cell_of_ne_head (Ne.symm hh.2.1), Cell.mk.injEq] at hcell
    obtain ⟨rfl, rfl, hnl, hnr⟩ := hcell
    obtain ⟨L, rfl, hL⟩ := ihl hl hh.1
    obtain ⟨R, rfl, hR⟩ := ihr hr hh.2.2
    refine ⟨node L a n.name n.value R, rfl, ha0, ?_, hL, hR⟩
    rw [root_mapKey] at hnl hnr
    simp [Db.named, hn, hnl, hnr]

theorem Holds.stores (ht : Holds db t) : Stores db fun x => t.lookup ↑x := by
  obtain ⟨-, hc, -, hrep⟩ := ht.rep
  obtain ⟨h, hh, hcell⟩ := Option.map_eq_some_iff.mp hc
  obtain ⟨T, rfl, hT⟩ := exists_named hrep (nodup_node ht.nodup).2.2.2.1
  have hmono : StrictMono (WithBot.some : CString → WithBot CString) := fun a b hab =>
    WithBot.coe_lt_coe.mpr hab
  refine ⟨h, T, hh, congrArg Cell.left hcell, ?_, hT, ?_, ?_, fun x => (lookup_mapKey hmono).symm⟩
  · rw [← root_mapKey (f := WithBot.some)]
    exact congrArg Cell.right hcell
  · have := ht.nodup
    simpa [whole, addrs] using this
  · exact (ordered_mapKey hmono).mp ht.ordered.2.1

/-! ## One call -/

/-- A removal keeps to the buffers; the other calls always do. -/
def Call.Fits (db : Db) : Call → Prop
  | .remove name => RemovalFits db name
  | _ => True

/-- One call follows the map, or overflows. -/
theorem Good.call (hg : Good db t) {c : Call} (hc : c.Legal) :
    (c.Fits db → ∃ db' t', c.run db = .ok ((c.spec fun x => t.lookup ↑x).1, db') ∧ Good db' t' ∧
      (fun x : CString => t'.lookup ↑x) = (c.spec fun x => t.lookup ↑x).2) ∧
      (¬ c.Fits db → c.run db = .error .overflow) := by
  cases c with
  | query name len =>
    refine ⟨fun _ => ⟨db, t, ?_, hg, rfl⟩, fun h => absurd trivial h⟩
    rw [Call.run, hg.dbQuery, ok_bind]
    rfl
  | add name value =>
    refine ⟨fun _ => ?_, fun h => absurd trivial h⟩
    by_cases hx : t.lookup ↑name = none
    · obtain ⟨db', hrun, hg'⟩ := hg.dbAdd_absent hx hc.1.2 hc.2.2
      refine ⟨db', _, ?_, hg', ?_⟩
      · rw [Call.run, hrun, ok_bind, Call.spec, if_pos hx]
        rfl
      · rw [Call.spec, if_pos hx]
        funext y
        simp only [lookup_put hx, Function.update_apply, WithBot.coe_inj]
    · refine ⟨db, t, ?_, hg, ?_⟩
      · rw [Call.run, hg.dbAdd_present hx, ok_bind, Call.spec, if_neg hx]
        rfl
      · rw [Call.spec, if_neg hx]
  | remove name =>
    by_cases hx : t.lookup ↑name = none
    · refine ⟨fun _ => ⟨db, t, ?_, hg, ?_⟩, fun h => absurd ?_ h⟩
      · rw [Call.run, hg.dbRemove_absent hx, ok_bind, Call.spec, if_pos hx]
        rfl
      · rw [Call.spec, if_pos hx]
      · intro dnode d next n hdh hd hname
        rw [← hname, hg.lookup_of_mem hd hdh] at hx
        cases hx
    · obtain ⟨hok, hover⟩ := hg.dbRemove_present hx
      refine ⟨fun hfit => ?_, fun hfit => ?_⟩
      · obtain ⟨db', hrun, hg'⟩ := hok hfit
        refine ⟨db', _, ?_, hg', ?_⟩
        · rw [Call.run, hrun, ok_bind, Call.spec, if_neg hx]
          rfl
        · rw [Call.spec, if_neg hx]
          funext y
          simp only [lookup_cut hg.holds.ordered.2.1, Function.update_apply, WithBot.coe_inj]
      · rw [Call.run, hover hfit]
        rfl

/-! ## Sequences of calls -/

/-- The map that a tree holds. -/
abbrev contents (t : NTree) : Contents :=
  fun x => t.lookup ↑x

/-- Every removal of the sequence keeps to the buffers, in the memory that the
calls before it have left. -/
def FitsAll : Db → List Call → Prop
  | _, [] => True
  | db, c :: cs => c.Fits db ∧ ∀ r db', c.run db = .ok (r, db') → FitsAll db' cs

/-- Every call returns what the map says, and leaves a search tree that holds
the map after it. -/
def Follows : Db → Contents → List Call → Prop
  | db, m, [] => Stores db m
  | db, m, c :: cs => Stores db m ∧
      ∃ db', c.run db = .ok ((c.spec m).1, db') ∧ Follows db' (c.spec m).2 cs

/-- Every text fits in its buffer, in every memory on the way, and no call
writes beyond a buffer. -/
def KeepsBuffers : Db → List Call → Prop
  | db, [] => ∀ a n, db.mem a = some n → n.Fits
  | db, c :: cs => (∀ a n, db.mem a = some n → n.Fits) ∧
      ∃ r db', c.run db = .ok (r, db') ∧ KeepsBuffers db' cs

/-- A property of call sequences holds exactly when the copies fit, if it holds
of the empty sequence, goes over a call that returns, and fails at one that
faults. -/
theorem Good.sequence {P : Db → Contents → List Call → Prop}
    (hnil : ∀ db t, Good db t → P db (contents t) [])
    (hok : ∀ db db' t c cs, Good db t → c.run db = .ok ((c.spec (contents t)).1, db') →
      (P db (contents t) (c :: cs) ↔ P db' (c.spec (contents t)).2 cs))
    (hover : ∀ db t c cs f, c.run db = .error f → ¬ P db (contents t) (c :: cs))
    {cs : List Call} (hg : Good db t) (hcs : ∀ c ∈ cs, c.Legal) :
    P db (contents t) cs ↔ FitsAll db cs := by
  induction cs generalizing db t with
  | nil => exact iff_of_true (hnil db t hg) trivial
  | cons c cs ih =>
    obtain ⟨hfits, hfault⟩ := hg.call (hcs c List.mem_cons_self)
    by_cases hfit : c.Fits db
    · obtain ⟨db', t', hrun, hg', hmap⟩ := hfits hfit
      have ih := ih hg' fun c hc => hcs c (List.mem_cons_of_mem _ hc)
      rw [hok db db' t c cs hg hrun, ← hmap, ih]
      constructor
      · intro h
        refine ⟨hfit, fun r db'' hrun' => ?_⟩
        rw [hrun] at hrun'
        cases hrun'
        exact h
      · exact fun h => h.2 _ _ hrun
    · constructor
      · exact fun h => absurd h (hover db t c cs _ (hfault hfit))
      · exact fun h => absurd h.1 hfit

theorem Good.runAll_iff {cs : List Call} (hg : Good db t) (hcs : ∀ c ∈ cs, c.Legal) :
    (∃ rs db', Call.runAll db cs = .ok (rs, db')) ↔ FitsAll db cs := by
  refine Good.sequence (P := fun db _ cs => ∃ rs db', Call.runAll db cs = .ok (rs, db'))
    (fun db t _ => ⟨[], db, rfl⟩) ?_ ?_ hg hcs
  · intro db db' t c cs _ hrun
    rw [Call.runAll, hrun, ok_bind]
    constructor
    · rintro ⟨rs, db'', h⟩
      cases hrest : Call.runAll db' cs with
      | error f =>
        simp only [hrest] at h
        cases h
      | ok res => exact ⟨res.1, res.2, rfl⟩
    · rintro ⟨rs, db'', h⟩
      simp only [h]
      exact ⟨_, _, rfl⟩
  · rintro db t c cs f hrun ⟨rs, db', h⟩
    rw [Call.runAll, hrun] at h
    cases h

theorem Good.follows_iff {cs : List Call} (hg : Good db t) (hcs : ∀ c ∈ cs, c.Legal) :
    Follows db (contents t) cs ↔ FitsAll db cs := by
  refine Good.sequence (fun db t hg => hg.holds.stores) ?_ ?_ hg hcs
  · intro db db' t c cs hg hrun
    constructor
    · rintro ⟨-, db'', hrun', h⟩
      rw [hrun] at hrun'
      cases hrun'
      exact h
    · exact fun h => ⟨hg.holds.stores, db', hrun, h⟩
  · rintro db t c cs f hrun ⟨-, db', hrun', -⟩
    rw [hrun] at hrun'
    cases hrun'

theorem Good.keepsBuffers_iff {cs : List Call} (hg : Good db t) (hcs : ∀ c ∈ cs, c.Legal) :
    KeepsBuffers db cs ↔ FitsAll db cs := by
  refine Good.sequence (P := fun db _ cs => KeepsBuffers db cs)
    (fun db t hg a n hn => (hg.ok a n hn).fits) ?_ ?_ hg hcs
  · intro db db' t c cs hg hrun
    constructor
    · rintro ⟨-, r, db'', hrun', h⟩
      rw [hrun] at hrun'
      cases hrun'
      exact h
    · exact fun h => ⟨fun a n hn => (hg.ok a n hn).fits, _, db', hrun, h⟩
  · rintro db t c cs f hrun ⟨-, r, db', hrun', -⟩
    rw [hrun] at hrun'
    cases hrun'

/-! ## From the empty database -/

/-- A node is removed whose successor has a longer name than it was built for. -/
def longSuccessor : List Call :=
  [.add [109] [49], .add [97] [49], .add (List.replicate 40 122) [49], .remove [109]]

def shortSuccessor : List Call :=
  [.add [109] [49], .add [97] [49], .add [122] [49], .remove [109], .query [122] 256]

theorem longSuccessor_not_fits : ¬ FitsAll Db.init longSuccessor := by
  have hlegal : ∀ c ∈ longSuccessor, c.Legal := by decide
  rw [← good_init.runAll_iff hlegal]
  rintro ⟨rs, db', hrun⟩
  have hfault : (Call.runAll Db.init longSuccessor).toBool = false := by decide +kernel
  rw [hrun] at hfault
  cases hfault

/-- A sequence of calls behaves as the finite map exactly when its copies fit. -/
theorem calls_follow_iff (cs : List Call) (hcs : ∀ c ∈ cs, c.Legal) :
    Follows Db.init (fun _ => none) cs ↔ FitsAll Db.init cs :=
  good_init.follows_iff hcs

theorem shortSuccessor_follows_iff :
    Follows Db.init (fun _ => none) shortSuccessor ↔ FitsAll Db.init shortSuccessor :=
  calls_follow_iff _ (by decide)

theorem longSuccessor_not_follows :
    (∀ c ∈ longSuccessor, c.Legal) ∧ ¬ Follows Db.init (fun _ => none) longSuccessor :=
  ⟨by decide, fun h => longSuccessor_not_fits ((good_init.follows_iff (by decide)).mp h)⟩

/-- A sequence of calls keeps to its buffers exactly when its copies fit. -/
theorem calls_keep_buffers_iff (cs : List Call) (hcs : ∀ c ∈ cs, c.Legal) :
    KeepsBuffers Db.init cs ↔ FitsAll Db.init cs :=
  good_init.keepsBuffers_iff hcs

theorem shortSuccessor_keeps_buffers_iff :
    KeepsBuffers Db.init shortSuccessor ↔ FitsAll Db.init shortSuccessor :=
  calls_keep_buffers_iff _ (by decide)

theorem longSuccessor_not_keeps_buffers :
    (∀ c ∈ longSuccessor, c.Legal) ∧ ¬ KeepsBuffers Db.init longSuccessor :=
  ⟨by decide, fun h => longSuccessor_not_fits ((good_init.keepsBuffers_iff (by decide)).mp h)⟩

end CourseProjects.Database

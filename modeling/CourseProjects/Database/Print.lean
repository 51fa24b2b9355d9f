import CourseProjects.Database.Requests
import CourseProjects.Lib.Preorder

/-!
# Printing the database

A line for each node, and one for each null pointer, behind as many spaces as the
level says. Words have no white space, so the first space behind a name and the newline
behind a value are the printer's own.
-/

namespace CourseProjects.Database

open TreeHeap SearchTree

def printSpaces (lvl : Nat) : CString :=
  List.replicate lvl 32

/-- What `db_print_recurs` writes. -/
def Db.dbPrintRecurs (db : Db) : Nat → Addr → Nat → Except Fault CString
  | 0, _, _ => throw .diverges
  | fuel + 1, node, lvl => do
    if node = 0 then
      return printSpaces lvl ++ bytes "(null)\n"
    else
      let n ← db.deref node
      let line :=
        if node = head then bytes "(root)\n"
        else n.name ++ bytes " " ++ n.value ++ bytes "\n"
      let left ← db.dbPrintRecurs fuel n.lchild (lvl + 1)
      let right ← db.dbPrintRecurs fuel n.rchild (lvl + 1)
      return printSpaces lvl ++ line ++ left ++ right

/-- Two trees in memory are the same node by node. -/
inductive Same (db db' : Db) : Addr → Addr → Prop
  | null : Same db db' 0 0
  | node {a a' : Addr} {n n' : Node} : a ≠ 0 → a' ≠ 0 → db.mem a = some n → db'.mem a' = some n' →
      n.name = n'.name → n.value = n'.value → Same db db' n.lchild n'.lchild →
      Same db db' n.rchild n'.rchild → Same db db' a a'

open SearchTree.Tree

variable {db db' : Db} {t : NTree} {T T' : Tree Addr CString CString} {fuel lvl : Nat}
  {name value u w : CString}

/-! ## Lines -/

/-- The line of a null pointer, or that of a node with a name and a value. -/
def nodeLine (lvl : Nat) (entry : Option (CString × CString)) : CString :=
  printSpaces lvl ++
    match entry with
    | none => bytes "(null)\n"
    | some (name, value) => name ++ bytes " " ++ value ++ bytes "\n"

theorem Token.no_space (h : Token name) : 32 ∉ name := by
  intro hm
  have hspace := h.word 32 hm
  cases hspace

theorem Token.no_newline (h : Token name) : newline ∉ name := by
  intro hm
  have hspace := h.word _ hm
  cases hspace

theorem nodeLine_none :
    nodeLine lvl none ++ u = printSpaces lvl ++ (bytes "(null)" ++ newline :: u) := by
  rw [nodeLine, List.append_assoc]
  rfl

theorem nodeLine_some : nodeLine lvl (some (name, value)) ++ u =
    printSpaces lvl ++ ((name ++ 32 :: value) ++ newline :: u) := by
  have hspace : bytes " " = [32] := rfl
  have hend : bytes "\n" = [newline] := rfl
  simp [nodeLine, hspace, hend]

/-- The null line has no space behind its indentation, and the line of a node has one. -/
theorem null_ne_entry : bytes "(null)" ≠ name ++ 32 :: value := by
  intro h
  have hm : (32 : Fin 256) ∈ bytes "(null)" := by
    rw [h]
    exact List.mem_append_right name List.mem_cons_self
  revert hm
  decide

theorem nodeLine_readable : Readable nodeLine fun name value => Token name ∧ Token value := by
  have hnull : newline ∉ bytes "(null)" := by decide
  have hentry : ∀ {name value}, Token name ∧ Token value → newline ∉ name ++ 32 :: value := by
    intro name value h hm
    rcases List.mem_append.mp hm with hm | hm
    · exact h.1.no_newline hm
    · rcases List.mem_cons.mp hm with hm | hm
      · cases hm
      · exact h.2.no_newline hm
  intro lvl d e u w hd he h
  cases d with
  | none =>
    cases e with
    | none =>
      rw [nodeLine_none, nodeLine_none, List.append_cancel_left_eq] at h
      exact ⟨rfl, (append_separator_inj hnull hnull h).2⟩
    | some p =>
      obtain ⟨name, value⟩ := p
      rw [nodeLine_none, nodeLine_some, List.append_cancel_left_eq] at h
      have hline := (append_separator_inj hnull (hentry (he _ rfl)) h).1
      exact absurd hline null_ne_entry
  | some p =>
    obtain ⟨name, value⟩ := p
    have htoken := hd _ rfl
    cases e with
    | none =>
      rw [nodeLine_some, nodeLine_none, List.append_cancel_left_eq] at h
      have hline := (append_separator_inj (hentry htoken) hnull h).1
      exact absurd hline.symm null_ne_entry
    | some q =>
      obtain ⟨name', value'⟩ := q
      have htoken' := he _ rfl
      rw [nodeLine_some, nodeLine_some, List.append_cancel_left_eq] at h
      obtain ⟨hline, hrest⟩ := append_separator_inj (hentry htoken) (hentry htoken') h
      obtain ⟨rfl, rfl⟩ := append_separator_inj htoken.1.no_space htoken'.1.no_space hline
      exact ⟨rfl, hrest⟩

/-! ## Trees in memory -/

theorem named_eq {a : Addr} {c : Cell Addr CString CString} (h : db.named a = some c) :
    ∃ n, db.mem a = some n ∧ c = ⟨n.name, n.value, n.lchild, n.rchild⟩ := by
  obtain ⟨n, hn, rfl⟩ := Option.map_eq_some_iff.mp h
  exact ⟨n, hn, rfl⟩

/-- A tree without the root node is printed in pre-order. -/
theorem print_tree (hrep : Rep db.named T) (hh : head ∉ T.addrs) (hfuel : T.size < fuel)
    (lvl : Nat) : db.dbPrintRecurs fuel T.root lvl = .ok (T.preorder nodeLine lvl) := by
  induction T generalizing fuel lvl with
  | leaf =>
    obtain ⟨fuel, rfl⟩ := Nat.exists_eq_add_one_of_ne_zero (Nat.ne_zero_of_lt hfuel)
    rfl
  | node l a k v r ihl ihr =>
    obtain ⟨fuel, rfl⟩ := Nat.exists_eq_add_one_of_ne_zero (Nat.ne_zero_of_lt hfuel)
    obtain ⟨ha, hcell, hl, hr⟩ := hrep
    obtain ⟨n, hn, heq⟩ := named_eq hcell
    obtain ⟨rfl, rfl, hleft, hright⟩ := Cell.mk.inj heq
    simp only [addrs, List.mem_append, List.mem_cons, not_or] at hh
    simp only [size] at hfuel
    have hprintl := ihl hl hh.1 (by omega : l.size < fuel) (lvl + 1)
    have hprintr := ihr hr hh.2.2 (by omega : r.size < fuel) (lvl + 1)
    have hderef : db.deref a = .ok n := by rw [Db.deref, hn]
    have hroot : (node l a n.name n.value r).root = a := rfl
    rw [hroot, Db.dbPrintRecurs, if_neg ha, hderef]
    simp only [ok_bind, ← hleft, ← hright, hprintl, hprintr, if_neg (Ne.symm hh.2.1)]
    simp only [preorder, nodeLine, List.append_assoc]
    rfl

/-- A null pointer is the same as a null pointer only. -/
theorem Same.zero_iff {a a' : Addr} (h : Same db db' a a') : a = 0 ↔ a' = 0 := by
  cases h with
  | null => rfl
  | node ha ha' => exact iff_of_false ha ha'

theorem same_node {a a' : Addr} {n n' : Node} (ha : a ≠ 0) (ha' : a' ≠ 0)
    (hn : db.mem a = some n) (hn' : db'.mem a' = some n') :
    Same db db' a a' ↔ n.name = n'.name ∧ n.value = n'.value ∧ Same db db' n.lchild n'.lchild ∧
      Same db db' n.rchild n'.rchild := by
  constructor
  · intro h
    cases h with
    | null => exact absurd rfl ha
    | node _ _ hm hm' hname hvalue hl hr =>
      cases Option.some.inj (hn.symm.trans hm)
      cases Option.some.inj (hn'.symm.trans hm')
      exact ⟨hname, hvalue, hl, hr⟩
  · rintro ⟨hname, hvalue, hl, hr⟩
    exact .node ha ha' hn hn' hname hvalue hl hr

/-- Alike trees are the same in memory. -/
theorem same_iff (hrep : Rep db.named T) (hrep' : Rep db'.named T') :
    Same db db' T.root T'.root ↔ Alike T T' := by
  induction T generalizing T' with
  | leaf =>
    cases T' with
    | leaf => exact iff_of_true .null trivial
    | node l' a' k' v' r' =>
      refine iff_of_false ?_ id
      intro h
      exact hrep'.1 (h.zero_iff.mp rfl)
  | node l a k v r ihl ihr =>
    obtain ⟨ha, hcell, hl, hr⟩ := hrep
    obtain ⟨n, hn, heq⟩ := named_eq hcell
    obtain ⟨rfl, rfl, hleft, hright⟩ := Cell.mk.inj heq
    cases T' with
    | leaf =>
      refine iff_of_false ?_ id
      intro h
      exact ha (h.zero_iff.mpr rfl)
    | node l' a' k' v' r' =>
      obtain ⟨ha', hcell', hl', hr'⟩ := hrep'
      obtain ⟨n', hn', heq'⟩ := named_eq hcell'
      obtain ⟨rfl, rfl, hleft', hright'⟩ := Cell.mk.inj heq'
      have hsubl := ihl hl hl'
      have hsubr := ihr hr hr'
      rw [hleft, hleft'] at hsubl
      rw [hright, hright'] at hsubr
      rw [Alike, ← hsubl, ← hsubr]
      exact same_node ha ha' hn hn'

/-! ## The whole database -/

/-- The root node and the tree of words on its right. -/
structure Rooted (db : Db) (n : Node) (T : Tree Addr CString CString) : Prop where
  mem : db.mem head = some n
  name : n.name = []
  value : n.value = []
  lchild : n.lchild = 0
  rchild : n.rchild = T.root
  rep : Rep db.named T
  away : head ∉ T.addrs
  small : T.size < db.fresh
  tokens : ∀ l a k v r, Sub (node l a k v r) T → Token k ∧ Token v

theorem Kept.rooted (hk : Kept db) : ∃ n T, Rooted db n T := by
  obtain ⟨t, hg, htok⟩ := hk
  obtain ⟨n, T, hn, hl, hr, hrep, hnodup, hord, hlookup⟩ := hg.holds.stores
  obtain ⟨-, hcell, -⟩ := hg.holds.rep
  obtain ⟨n', hn', hroot⟩ := Option.map_eq_some_iff.mp hcell
  cases Option.some.inj (hn.symm.trans hn')
  have hkey : (if head = head ∧ n.name = [] then ⊥ else (n.name : WithBot CString)) = ⊥ :=
    congrArg Cell.key hroot
  have hname : n.name = [] := by
    by_contra hne
    rw [if_neg fun h => hne h.2] at hkey
    exact WithBot.coe_ne_bot hkey
  have hsize : T.size < db.fresh := by
    have hlt : ∀ a ∈ head :: T.addrs, a ∈ List.range db.fresh := by
      intro a ha
      refine List.mem_range.mpr (hg.fresh a ((hg.mem_iff a).mp ?_))
      rcases List.mem_cons.mp ha with rfl | ha
      · simp [hn]
      · obtain ⟨-, l, k, v, r, -, hc⟩ := hrep.cell ha
        obtain ⟨m, hm, -⟩ := named_eq hc
        simp [hm]
    have hlen := (List.subperm_of_subset hnodup hlt).length_le
    rw [List.length_cons, List.length_range, ← size_eq] at hlen
    exact hlen
  refine ⟨n, T, hn, hname, congrArg Cell.val hroot, hl, hr, hrep, (List.nodup_cons.mp hnodup).1,
    hsize, ?_⟩
  intro l a k v r hs
  exact htok k v ((hlookup k).symm.trans (lookup_of_sub hord hs))

/-- What is printed. -/
def dump (T : Tree Addr CString CString) : CString :=
  bytes "(root)\n" ++ nodeLine 1 none ++ T.preorder nodeLine 1

theorem Rooted.print {n : Node} (h : Rooted db n T) (hfuel : db.fresh < fuel) :
    db.dbPrintRecurs fuel head 0 = .ok (dump T) := by
  obtain ⟨fuel, rfl⟩ := Nat.exists_eq_add_one_of_ne_zero (Nat.ne_zero_of_lt hfuel)
  have hsmall : T.size < fuel := Nat.lt_of_lt_of_le h.small (Nat.le_of_lt_succ hfuel)
  have hleft : db.dbPrintRecurs fuel 0 1 = .ok (nodeLine 1 none) := by
    obtain ⟨fuel, rfl⟩ := Nat.exists_eq_add_one_of_ne_zero (Nat.ne_zero_of_lt hsmall)
    rfl
  have hright := print_tree h.rep h.away hsmall 1
  have hderef : db.deref head = .ok n := by rw [Db.deref, h.mem]
  have hne : head ≠ 0 := by decide
  rw [Db.dbPrintRecurs, if_neg hne, hderef]
  simp only [ok_bind, h.lchild, h.rchild, hleft, hright, if_true]
  rfl

theorem Rooted.same_iff {n n' : Node} (h : Rooted db n T) (h' : Rooted db' n' T') :
    Same db db' head head ↔ Alike T T' := by
  have hsub := Database.same_iff h.rep h'.rep
  rw [← h.rchild, ← h'.rchild] at hsub
  rw [← hsub, same_node (by decide) (by decide) h.mem h'.mem, h.name, h'.name, h.value, h'.value,
    h.lchild, h'.lchild]
  constructor
  · rintro ⟨-, -, -, hr⟩
    exact hr
  · intro hr
    exact ⟨rfl, rfl, .null, hr⟩

/-- **The text that is printed determines the database.** -/
theorem print_determines (hs : Served db) (hs' : Served db') :
    ∃ text text', (∀ fuel, db.fresh < fuel → db.dbPrintRecurs fuel head 0 = .ok text) ∧
      (∀ fuel, db'.fresh < fuel → db'.dbPrintRecurs fuel head 0 = .ok text') ∧
      (text = text' ↔ Same db db' head head) := by
  obtain ⟨n, T, h⟩ := hs.kept.rooted
  obtain ⟨n', T', h'⟩ := hs'.kept.rooted
  refine ⟨dump T, dump T', fun fuel hf => h.print hf, fun fuel hf => h'.print hf, ?_⟩
  rw [h.same_iff h']
  constructor
  · intro heq
    rw [dump, dump, List.append_cancel_left_eq] at heq
    have htext : T.preorder nodeLine 1 ++ [] = T'.preorder nodeLine 1 ++ [] := by
      rw [heq]
    exact (preorder_inj nodeLine_readable 1 h.tokens h'.tokens htext).1
  · intro halike
    rw [dump, dump, preorder_congr halike 1]

/-- "a (null) (root)" -/
def nullName : CString :=
  bytes "a (null) (root)"

theorem nullName_determined : ∃ db, Served db ∧ ∃ text text',
    (∀ fuel, Db.init.fresh < fuel → Db.init.dbPrintRecurs fuel head 0 = .ok text) ∧
      (∀ fuel, db.fresh < fuel → db.dbPrintRecurs fuel head 0 = .ok text') ∧
      (text = text' ↔ Same Db.init db head head) := by
  cases hrun : interpretCommand (fun _ => none) 1024 1 Db.init nullName with
  | error f =>
    have hok : (interpretCommand (fun _ => none) 1024 1 Db.init nullName).toBool = true := by
      decide +kernel
    rw [hrun] at hok
    cases hok
  | ok r =>
    have hs : Served r.2 := Served.init.call (by decide +kernel) hrun
    exact ⟨r.2, hs, print_determines Served.init hs⟩

end CourseProjects.Database

import CourseProjects.Lib.TreeSearch

/-!
# Search trees in a heap

A heap holds a tree when every node of the tree is a cell whose links are the
addresses of the children, `0` standing for the empty tree. Replacing the
subtree at the end of a search takes one write to the node above it.
-/

namespace CourseProjects.TreeHeap

open SearchTree SearchTree.Tree

structure Cell (A K V : Type*) where
  key : K
  val : V
  left : A
  right : A

variable {A K V : Type*}

namespace Cell

variable [LinearOrder K]

/-- The link that a search for `x` follows. -/
def toward (x : K) (c : Cell A K V) : A :=
  if x < c.key then c.left else c.right

def setToward (x : K) (a : A) (c : Cell A K V) : Cell A K V :=
  if x < c.key then { c with left := a } else { c with right := a }

end Cell

variable [Zero A] {h h' : A → Option (Cell A K V)} {t s l r : Tree A K V} {a b n q : A} {k : K}
  {v : V} {c cn : Cell A K V}

/-- The heap holds the tree. -/
def Rep (h : A → Option (Cell A K V)) : Tree A K V → Prop
  | leaf => True
  | node l a k v r => a ≠ 0 ∧ h a = some ⟨k, v, l.root, r.root⟩ ∧ Rep h l ∧ Rep h r

theorem Rep.congr (ht : Rep h t) (heq : ∀ b ∈ t.addrs, h' b = h b) : Rep h' t := by
  induction t with
  | leaf => trivial
  | node l a k v r ihl ihr =>
    obtain ⟨ha, hc, hl, hr⟩ := ht
    simp only [addrs, List.mem_append, List.mem_cons] at heq
    refine ⟨ha, ?_, ?_, ?_⟩
    · rw [heq a (Or.inr (Or.inl rfl)), hc]
    · exact ihl hl fun b hb => heq b (Or.inl hb)
    · exact ihr hr fun b hb => heq b (Or.inr (Or.inr hb))

theorem Rep.sub (ht : Rep h t) (hs : Sub s t) : Rep h s := by
  induction t with
  | leaf => exact hs.elim
  | node l a k v r ihl ihr =>
    obtain ⟨-, -, hl, hr⟩ := id ht
    rcases hs with rfl | hs | hs
    · exact ht
    · exact ihl hl hs
    · exact ihr hr hs

theorem Rep.root_eq_zero (ht : Rep h t) : t.root = 0 ↔ t = leaf := by
  cases t with
  | leaf => simp [root]
  | node l a k v r =>
    constructor
    · intro h0
      exact absurd h0 ht.1
    · intro hleaf
      cases hleaf

/-- Every node of the tree is a cell of the heap. -/
theorem Rep.cell (ht : Rep h t) (ha : a ∈ t.addrs) :
    a ≠ 0 ∧ ∃ l k v r, Sub (node l a k v r) t ∧ h a = some ⟨k, v, l.root, r.root⟩ := by
  obtain ⟨l, k, v, r, hs⟩ := exists_sub ha
  obtain ⟨h0, hc, -⟩ := ht.sub hs
  exact ⟨h0, l, k, v, r, hs, hc⟩

/-- A nonzero link leads to a subtree. -/
theorem Rep.eq_node (ht : Rep h t) (h0 : t.root ≠ 0) :
    ∃ l k v r, t = node l t.root k v r := by
  cases t with
  | leaf => exact absurd rfl h0
  | node l a k v r => exact ⟨l, k, v, r, rfl⟩

/-! ## The spine -/

theorem Rep.first (ht : Rep h t) (hn : t.spine.getLast? = some n) (hc : h n = some cn)
    (d : K × V) : t.first d = (cn.key, cn.val) ∧ cn.left = 0 := by
  induction t generalizing d with
  | leaf => cases hn
  | node l a k v r ihl ihr =>
    obtain ⟨-, hca, hl, -⟩ := ht
    by_cases hlf : l = leaf
    · subst hlf
      have han : a = n := by simpa [spine] using hn
      subst han
      rw [hca] at hc
      cases hc
      exact ⟨rfl, rfl⟩
    · have hn' : l.spine.getLast? = some n := by
        rw [← hn, spine, List.getLast?_cons, List.getLast?_eq_getLast_of_ne_nil (spine_ne_nil hlf)]
        rfl
      exact ihl hl hn' (k, v)

/-- A walk along left links that has come to its end has seen the spine. -/
theorem Rep.spine_of_walk {L : List A} (ht : Rep h t) (hhd : L.head? = some t.root)
    (hL : L.IsChain fun a b => ∃ c, h a = some c ∧ c.left = b ∧ b ≠ 0)
    (hn : L.getLast? = some n) (hc : h n = some cn) (h0 : cn.left = 0) (hne : t ≠ leaf) :
    L = t.spine := by
  induction t generalizing L with
  | leaf => exact absurd rfl hne
  | node l a k v r ihl ihr =>
    obtain ⟨-, hca, hl, -⟩ := ht
    cases L with
    | nil => cases hhd
    | cons b L =>
      have hba : b = a := by simpa [root] using hhd
      subst hba
      cases L with
      | nil =>
        have hbn : b = n := by simpa using hn
        subst hbn
        rw [hca] at hc
        cases hc
        have hlf : l = leaf := (hl.root_eq_zero).mp h0
        subst hlf
        rfl
      | cons b' L =>
        obtain ⟨⟨c, hcb, hcl, hb0⟩, hL⟩ := List.isChain_cons_cons.mp hL
        rw [hca] at hcb
        cases hcb
        have hlf : l ≠ leaf := fun h => hb0 (hcl ▸ (hl.root_eq_zero).mpr h)
        have hn' : (b' :: L).getLast? = some n := by simpa using hn
        rw [spine, ihl hl (by rw [← hcl]; rfl) hL hn' hlf]

/-- A tree whose root is its least entry. -/
theorem Rep.root_of_spine (ht : Rep h t) (hsp : t.spine = [n]) (hc : h n = some cn) :
    ∃ r, t = node leaf n cn.key cn.val r ∧ r.root = cn.right ∧ Rep h r := by
  cases t with
  | leaf => cases hsp
  | node l a k v r =>
    obtain ⟨rfl, hl⟩ : a = n ∧ l.spine = [] := by simpa [spine] using hsp
    have hlf : l = leaf := by
      by_contra hne
      exact spine_ne_nil hne hl
    subst hlf
    obtain ⟨-, hca, -, hr⟩ := ht
    rw [hca] at hc
    cases hc
    exact ⟨r, rfl, rfl, hr⟩

/-- The heap after the least entry is unlinked from the left link above it. -/
theorem Rep.delMin {L : List A} (ht : Rep h t) (hd : t.addrs.Nodup) (hsp : t.spine = L ++ [q, n])
    (hq : h q = some c) (hn : h n = some cn) (hq' : h' q = some { c with left := cn.right })
    (heq : ∀ b ∈ t.addrs, b ≠ q → b ≠ n → h' b = h b) :
    Rep h' t.delMin ∧ t.delMin.root = t.root := by
  induction t generalizing L with
  | leaf => simp [spine] at hsp
  | node l a k v r ihl ihr =>
    obtain ⟨hdl, hdr, hal, har, hlr⟩ := nodup_node hd
    obtain ⟨ha0, hca, hl, hr⟩ := ht
    simp only [addrs, List.mem_append, List.mem_cons] at heq
    have hspl : l.spine ⊆ l.addrs := spine_subset
    cases L with
    | nil =>
      obtain ⟨rfl, hln⟩ : a = q ∧ l.spine = [n] := by simpa [spine] using hsp
      cases l with
      | leaf => cases hln
      | node ll b kb vb lr =>
        obtain ⟨rfl, hll⟩ : b = n ∧ ll.spine = [] := by simpa [spine] using hln
        have hllf : ll = leaf := by
          cases ll with
          | leaf => rfl
          | node _ _ _ _ _ => cases hll
        subst hllf
        obtain ⟨-, hcb, -, hlr'⟩ := hl
        rw [hcb] at hn
        cases hn
        rw [hca] at hq
        cases hq
        have hlrd := (nodup_node hdl).2.2.2.1
        refine ⟨⟨ha0, hq', ?_, ?_⟩, rfl⟩
        · rw [delMin_of_leaf]
          refine hlr'.congr fun b' hb' => heq b' (Or.inl ?_) ?_ ?_
          · simp [addrs, hb']
          · rintro rfl
            exact hal (by simp [addrs, hb'])
          · rintro rfl
            exact hlrd hb'
        · refine hr.congr fun b' hb' => heq b' (Or.inr (Or.inr hb')) ?_ ?_
          · rintro rfl
            exact har hb'
          · rintro rfl
            exact hlr b' (by simp [addrs]) hb'
    | cons a' L =>
      obtain ⟨rfl, hln⟩ : a = a' ∧ l.spine = L ++ [q, n] := by simpa [spine] using hsp
      have hqm : q ∈ l.addrs := hspl (by simp [hln])
      have hnm : n ∈ l.addrs := hspl (by simp [hln])
      have hlf : l ≠ leaf := by
        rintro rfl
        cases hqm
      obtain ⟨ih, ihroot⟩ := ihl hl hdl hln fun b hb => heq b (Or.inl hb)
      rw [delMin_of_ne hlf]
      refine ⟨⟨ha0, ?_, ih, ?_⟩, rfl⟩
      · rw [ihroot, heq a (Or.inr (Or.inl rfl)) (fun h => hal (h ▸ hqm)) (fun h => hal (h ▸ hnm)), hca]
      · refine hr.congr fun b hb => heq b (Or.inr (Or.inr hb)) ?_ ?_
        · rintro rfl
          exact hlr b hqm hb
        · rintro rfl
          exact hlr b hnm hb

/-! ## Grafts -/

section Graft

variable [DecidableEq A] [LinearOrder K] {x : K} {s' : Tree A K V}

omit [DecidableEq A] in
theorem Rep.toward (ht : Rep h (node l a k v r)) (hc : h a = some c) :
    c.toward x = ((node l a k v r).toward x).root := by
  obtain ⟨-, hca, -⟩ := ht
  rw [hca] at hc
  cases hc
  simp only [Cell.toward, Tree.toward]
  split_ifs <;> rfl

/-- The heap after the subtree below `a` is replaced. -/
theorem Rep.graft (ht : Rep h t) (hd : t.addrs.Nodup) (hs : Sub (node l a k v r) t)
    (ha : a ∈ t.trail x) (htw : (node l a k v r).toward x = s) (hc : h a = some c)
    (hs' : Rep h' s') (ha' : h' a = some (c.setToward x s'.root))
    (heq : ∀ b ∈ t.addrs, b ≠ a → b ∉ s.addrs → h' b = h b) : Rep h' (t.graft a x s') := by
  induction t with
  | leaf => exact hs.elim
  | node tl b tk tv tr ihl ihr =>
    obtain ⟨hdl, hdr, hbl, hbr, hlr⟩ := nodup_node hd
    obtain ⟨hb0, hcb, hl, hr⟩ := ht
    simp only [addrs, List.mem_append, List.mem_cons] at heq
    have hside : ∀ u : Tree A K V, Sub (node l a k v r) u → a ∈ u.addrs ∧ s.addrs ⊆ u.addrs := by
      intro u hu
      refine ⟨hu.mem, fun y hy => hu.addrs_subset ?_⟩
      simp only [Tree.toward] at htw
      simp only [addrs, List.mem_append, List.mem_cons]
      split_ifs at htw
      · exact Or.inl (htw ▸ hy)
      · exact Or.inr (Or.inr (htw ▸ hy))
    obtain ⟨-, hroot | ⟨hab, hxk, hs, ha⟩ | ⟨hab, hxk, hs, ha⟩⟩ := trail_cases hd hs ha
    · cases hroot
      rw [hcb] at hc
      cases hc
      rw [graft_self]
      simp only [Tree.toward] at htw
      simp only [Cell.setToward] at ha'
      split_ifs at htw ha' ⊢
      · subst htw
        refine ⟨hb0, ha', hs', hr.congr fun y hy => heq y (Or.inr (Or.inr hy)) ?_ ?_⟩
        · rintro rfl
          exact hbr hy
        · exact fun hm => hlr y hm hy
      · subst htw
        refine ⟨hb0, ha', hl.congr fun y hy => heq y (Or.inl hy) ?_ ?_, hs'⟩
        · rintro rfl
          exact hbl hy
        · exact hlr y hy
    · obtain ⟨ham, hsub⟩ := hside tl hs
      unfold Tree.graft
      rw [if_pos hxk, if_neg (Ne.symm hab)]
      refine ⟨hb0, ?_, ihl hl hdl hs ha fun y hy => heq y (Or.inl hy), hr.congr fun y hy => ?_⟩
      · rw [root_graft, heq b (Or.inr (Or.inl rfl)) (Ne.symm hab) fun hm => hbl (hsub hm), hcb]
      · refine heq y (Or.inr (Or.inr hy)) ?_ fun hm => hlr y (hsub hm) hy
        rintro rfl
        exact hlr y ham hy
    · obtain ⟨ham, hsub⟩ := hside tr hs
      unfold Tree.graft
      rw [if_neg hxk, if_neg (Ne.symm hab)]
      refine ⟨hb0, ?_, hl.congr fun y hy => ?_, ihr hr hdr hs ha fun y hy => heq y (Or.inr (Or.inr hy))⟩
      · rw [root_graft, heq b (Or.inr (Or.inl rfl)) (Ne.symm hab) fun hm => hbr (hsub hm), hcb]
      · refine heq y (Or.inl hy) ?_ fun hm => hlr y hy (hsub hm)
        rintro rfl
        exact hlr y hy ham

end Graft

end CourseProjects.TreeHeap

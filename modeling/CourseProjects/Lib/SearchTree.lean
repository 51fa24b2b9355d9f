import Mathlib.Data.List.Nodup
import Mathlib.Order.Lattice
import Mathlib.Tactic.Common

/-!
# Search trees whose nodes have addresses

A node carries its address beside key and value, so that deletion can say which
node keeps its address and takes over another entry, and which one goes away.
`trail x t` lists the nodes from which a search for `x` goes on downwards.
-/

namespace CourseProjects.SearchTree

inductive Tree (A K V : Type*)
  | leaf
  | node (l : Tree A K V) (a : A) (k : K) (v : V) (r : Tree A K V)

variable {A K V : Type*}

namespace Tree

def isLeaf : Tree A K V → Bool
  | leaf => true
  | node _ _ _ _ _ => false

/-- The addresses in order. -/
def addrs : Tree A K V → List A
  | leaf => []
  | node l a _ _ r => l.addrs ++ a :: r.addrs

def keys : Tree A K V → List K
  | leaf => []
  | node l _ k _ r => l.keys ++ k :: r.keys

def size : Tree A K V → Nat
  | leaf => 0
  | node l _ _ _ r => l.size + r.size + 1

/-- The address of the root, `0` for the empty tree. -/
def root [Zero A] : Tree A K V → A
  | leaf => 0
  | node _ a _ _ _ => a

/-- The nodes from the root along the left children. -/
def spine : Tree A K V → List A
  | leaf => []
  | node l a _ _ _ => a :: l.spine

/-- Key and value of the leftmost node, `d` for the empty tree. -/
def first (d : K × V) : Tree A K V → K × V
  | leaf => d
  | node l _ k v _ => l.first (k, v)

/-- The tree without its leftmost node. -/
def delMin : Tree A K V → Tree A K V
  | leaf => leaf
  | node l a k v r => if l.isLeaf then r else node l.delMin a k v r

/-- The tree without the entry at its root: with two children, the root takes
over the least entry of its right subtree. -/
def delRoot : Tree A K V → Tree A K V
  | leaf => leaf
  | node l a k v r =>
    if r.isLeaf then l
    else if l.isLeaf then r
    else node l a (r.first (k, v)).1 (r.first (k, v)).2 r.delMin

/-- The nonempty tree `s` is the tree itself or one of its subtrees. -/
def Sub (s : Tree A K V) : Tree A K V → Prop
  | leaf => False
  | node l a k v r => s = node l a k v r ∨ Sub s l ∨ Sub s r

/-! ## Subtrees -/

variable {s t u l r : Tree A K V} {a b : A} {k : K} {v : V}

theorem sub_refl (ht : t ≠ leaf) : Sub t t := by
  cases t with
  | leaf => exact absurd rfl ht
  | node l a k v r => exact Or.inl rfl

theorem Sub.trans (h : Sub s t) (h' : Sub t u) : Sub s u := by
  induction u with
  | leaf => exact h'.elim
  | node l a k v r ihl ihr =>
    rcases h' with rfl | h' | h'
    · exact h
    · exact Or.inr (Or.inl (ihl h'))
    · exact Or.inr (Or.inr (ihr h'))

theorem Sub.left (h : Sub (node l a k v r) t) (hl : l ≠ leaf) : Sub l t := by
  have hsub : Sub l (node l a k v r) := Or.inr (Or.inl (sub_refl hl))
  exact hsub.trans h

theorem Sub.right (h : Sub (node l a k v r) t) (hr : r ≠ leaf) : Sub r t := by
  have hsub : Sub r (node l a k v r) := Or.inr (Or.inr (sub_refl hr))
  exact hsub.trans h

theorem Sub.addrs_subset (h : Sub s t) : s.addrs ⊆ t.addrs := by
  induction t with
  | leaf => exact h.elim
  | node l a k v r ihl ihr =>
    rcases h with rfl | h | h
    · exact fun _ hx => hx
    · exact fun x hx => List.mem_append_left _ (ihl h hx)
    · exact fun x hx => List.mem_append_right _ (List.mem_cons_of_mem _ (ihr h hx))

theorem Sub.size_le (h : Sub s t) : s.size ≤ t.size := by
  induction t with
  | leaf => exact h.elim
  | node l a k v r ihl ihr =>
    simp only [size]
    rcases h with rfl | h | h
    · exact Nat.le_refl _
    · have := ihl h
      omega
    · have := ihr h
      omega

theorem Sub.mem (h : Sub (node l a k v r) t) : a ∈ t.addrs :=
  h.addrs_subset (by simp [addrs])

theorem Sub.mem_keys (h : Sub (node l a k v r) t) : k ∈ t.keys := by
  induction t with
  | leaf => exact h.elim
  | node tl b tk tv tr ihl ihr =>
    simp only [keys, List.mem_append, List.mem_cons]
    rcases h with h | h | h
    · cases h
      exact Or.inr (Or.inl rfl)
    · exact Or.inl (ihl h)
    · exact Or.inr (Or.inr (ihr h))

theorem size_eq : t.size = t.addrs.length := by
  induction t with
  | leaf => rfl
  | node l a k v r ihl ihr =>
    simp only [size, addrs, List.length_append, List.length_cons, ihl, ihr]
    omega

theorem exists_sub (ha : a ∈ t.addrs) : ∃ l k v r, Sub (node l a k v r) t := by
  induction t with
  | leaf => cases ha
  | node l b k v r ihl ihr =>
    simp only [addrs, List.mem_append, List.mem_cons] at ha
    rcases ha with ha | rfl | ha
    · obtain ⟨l', k', v', r', h⟩ := ihl ha
      exact ⟨l', k', v', r', Or.inr (Or.inl h)⟩
    · exact ⟨l, k, v, r, Or.inl rfl⟩
    · obtain ⟨l', k', v', r', h⟩ := ihr ha
      exact ⟨l', k', v', r', Or.inr (Or.inr h)⟩

theorem nodup_node (h : (node l a k v r).addrs.Nodup) :
    l.addrs.Nodup ∧ r.addrs.Nodup ∧ a ∉ l.addrs ∧ a ∉ r.addrs ∧ ∀ x ∈ l.addrs, x ∉ r.addrs := by
  obtain ⟨hl, har, hd⟩ := List.nodup_append.mp h
  obtain ⟨ha, hr⟩ := List.nodup_cons.mp har
  refine ⟨hl, hr, fun hm => hd a hm a List.mem_cons_self rfl, ha, fun x hx hx' => ?_⟩
  exact hd x hx x (List.mem_cons_of_mem _ hx') rfl

theorem Sub.nodup (h : Sub s t) (ht : t.addrs.Nodup) : s.addrs.Nodup := by
  induction t with
  | leaf => exact h.elim
  | node l a k v r ihl ihr =>
    obtain ⟨hl, hr, -⟩ := nodup_node ht
    rcases h with rfl | h | h
    · exact ht
    · exact ihl h hl
    · exact ihr h hr

/-- Two subtrees with one root address are the same. -/
theorem Sub.unique {l' r' : Tree A K V} {k' : K} {v' : V} (ht : t.addrs.Nodup)
    (h : Sub (node l a k v r) t) (h' : Sub (node l' a k' v' r') t) :
    node l a k v r = node l' a k' v' r' := by
  induction t with
  | leaf => exact h.elim
  | node tl b tk tv tr ihl ihr =>
    obtain ⟨hl, hr, hbl, hbr, hlr⟩ := nodup_node ht
    rcases h with h | h | h <;> rcases h' with h' | h' | h'
    · rw [h, h']
    · cases h
      exact absurd h'.mem hbl
    · cases h
      exact absurd h'.mem hbr
    · cases h'
      exact absurd h.mem hbl
    · exact ihl hl h h'
    · exact absurd h'.mem (hlr a h.mem)
    · cases h'
      exact absurd h.mem hbr
    · exact absurd h.mem (hlr a h'.mem)
    · exact ihr hr h h'

/-! ## Links -/

section Links

variable [Zero A] {c : A} {left left' : Bool}

/-- `c` is the address of the left or right child of the node at `a`. -/
def Link (t : Tree A K V) (a : A) (left : Bool) (c : A) : Prop :=
  ∃ l k v r, Sub (node l a k v r) t ∧
    if left then l ≠ leaf ∧ l.root = c else r ≠ leaf ∧ r.root = c

theorem root_mem (ht : t ≠ leaf) : t.root ∈ t.addrs := by
  cases t with
  | leaf => exact absurd rfl ht
  | node l a k v r => simp [root, addrs]

theorem link_node : Link (node l a k v r) b left c ↔
    (b = a ∧ if left then l ≠ leaf ∧ l.root = c else r ≠ leaf ∧ r.root = c) ∨
      Link l b left c ∨ Link r b left c := by
  constructor
  · rintro ⟨l', k', v', r', h | h | h, hc⟩
    · cases h
      exact Or.inl ⟨rfl, hc⟩
    · exact Or.inr (Or.inl ⟨l', k', v', r', h, hc⟩)
    · exact Or.inr (Or.inr ⟨l', k', v', r', h, hc⟩)
  · rintro (⟨rfl, hc⟩ | ⟨l', k', v', r', h, hc⟩ | ⟨l', k', v', r', h, hc⟩)
    · exact ⟨l, k, v, r, Or.inl rfl, hc⟩
    · exact ⟨l', k', v', r', Or.inr (Or.inl h), hc⟩
    · exact ⟨l', k', v', r', Or.inr (Or.inr h), hc⟩

theorem Link.mem_child (h : Link t a left c) : c ∈ t.addrs := by
  obtain ⟨l, k, v, r, h, hc⟩ := h
  cases left with
  | true => exact (h.left hc.1).addrs_subset (hc.2 ▸ root_mem hc.1)
  | false => exact (h.right hc.1).addrs_subset (hc.2 ▸ root_mem hc.1)

/-- A child is not the root of the tree. -/
theorem Link.ne_root (ht : t.addrs.Nodup) (h : Link t a left c) : c ≠ t.root := by
  cases t with
  | leaf =>
    obtain ⟨l, k, v, r, h, -⟩ := h
    exact h.elim
  | node l b k v r =>
    obtain ⟨-, -, hbl, hbr, -⟩ := nodup_node ht
    rintro rfl
    rcases link_node.mp h with ⟨-, hc⟩ | h | h
    · cases left with
      | true => exact hbl (hc.2 ▸ root_mem hc.1)
      | false => exact hbr (hc.2 ▸ root_mem hc.1)
    · exact hbl h.mem_child
    · exact hbr h.mem_child

/-- Every node has one parent and is on one side of it. -/
theorem Link.unique (ht : t.addrs.Nodup) (h : Link t a left c) (h' : Link t b left' c) :
    a = b ∧ left = left' := by
  induction t with
  | leaf =>
    obtain ⟨l, k, v, r, h, -⟩ := h
    exact h.elim
  | node l d k v r ihl ihr =>
    obtain ⟨hl, hr, -, -, hlr⟩ := nodup_node ht
    rcases link_node.mp h with ⟨rfl, hc⟩ | hs | hs <;>
      rcases link_node.mp h' with ⟨rfl, hc'⟩ | hs' | hs'
    · refine ⟨rfl, ?_⟩
      cases left <;> cases left'
      · rfl
      · exact absurd (hc.2 ▸ root_mem hc.1) (hlr c (hc'.2 ▸ root_mem hc'.1))
      · exact absurd (hc'.2 ▸ root_mem hc'.1) (hlr c (hc.2 ▸ root_mem hc.1))
      · rfl
    · cases left with
      | true => exact absurd hc.2.symm (hs'.ne_root hl)
      | false => exact absurd (hc.2 ▸ root_mem hc.1) (hlr c hs'.mem_child)
    · cases left with
      | true => exact absurd hs'.mem_child (hlr c (hc.2 ▸ root_mem hc.1))
      | false => exact absurd hc.2.symm (hs'.ne_root hr)
    · cases left' with
      | true => exact absurd hc'.2.symm (hs.ne_root hl)
      | false => exact absurd (hc'.2 ▸ root_mem hc'.1) (hlr c hs.mem_child)
    · exact ihl hl hs hs'
    · exact absurd hs'.mem_child (hlr c hs.mem_child)
    · cases left' with
      | true => exact absurd hs.mem_child (hlr c (hc'.2 ▸ root_mem hc'.1))
      | false => exact absurd hc'.2.symm (hs.ne_root hr)
    · exact absurd hs.mem_child (hlr c hs'.mem_child)
    · exact ihr hr hs hs'

/-! ### Subtree sizes -/

variable [DecidableEq A]

/-- The size of the subtree at an address. -/
def sizeAt (b : A) : Tree A K V → Nat
  | leaf => 0
  | node l a k v r => if b = a then (node l a k v r).size else l.sizeAt b + r.sizeAt b

omit [Zero A] in
theorem sizeAt_of_not_mem (hb : b ∉ t.addrs) : t.sizeAt b = 0 := by
  induction t with
  | leaf => rfl
  | node l a k v r ihl ihr =>
    simp only [addrs, List.mem_append, List.mem_cons, not_or] at hb
    rw [sizeAt, if_neg hb.2.1, ihl hb.1, ihr hb.2.2]

omit [Zero A] in
theorem sizeAt_of_sub (ht : t.addrs.Nodup) (h : Sub (node l a k v r) t) :
    t.sizeAt a = (node l a k v r).size := by
  induction t with
  | leaf => exact h.elim
  | node tl b tk tv tr ihl ihr =>
    obtain ⟨hl, hr, hbl, hbr, hlr⟩ := nodup_node ht
    rcases h with h | h | h
    · cases h
      simp only [sizeAt, ↓reduceIte]
    · have hab : a ≠ b := fun heq => hbl (heq ▸ h.mem)
      rw [sizeAt, if_neg hab, ihl hl h, sizeAt_of_not_mem (hlr a h.mem), Nat.add_zero]
    · have hab : a ≠ b := fun heq => hbr (heq ▸ h.mem)
      rw [sizeAt, if_neg hab, ihr hr h, sizeAt_of_not_mem fun hm => hlr a hm h.mem, Nat.zero_add]

/-- A child has the smaller subtree. -/
theorem Link.sizeAt_lt (ht : t.addrs.Nodup) (h : Link t a left c) : t.sizeAt c < t.sizeAt a := by
  obtain ⟨l, k, v, r, h, hc⟩ := h
  have hside : ∀ s : Tree A K V, s ≠ leaf → s.root = c → Sub s t → t.sizeAt c = s.size := by
    rintro s hne rfl hs
    cases s with
    | leaf => exact absurd rfl hne
    | node l' b k' v' r' => exact sizeAt_of_sub ht hs
  rw [sizeAt_of_sub ht h]
  cases left with
  | true =>
    rw [hside l hc.1 hc.2 (h.left hc.1), size]
    omega
  | false =>
    rw [hside r hc.1 hc.2 (h.right hc.1), size]
    omega

end Links

/-! ## The leftmost node -/

theorem isLeaf_false (ht : t ≠ leaf) : t.isLeaf = false := by
  cases t with
  | leaf => exact absurd rfl ht
  | node l a k v r => rfl

theorem delMin_of_leaf : (node leaf a k v r).delMin = r := rfl

theorem delMin_of_ne (hl : l ≠ leaf) : (node l a k v r).delMin = node l.delMin a k v r := by
  simp [delMin, isLeaf_false hl]

theorem delRoot_of_right : (node l a k v leaf).delRoot = l := rfl

theorem delRoot_of_left (hr : r ≠ leaf) : (node leaf a k v r).delRoot = r := by
  have hleaf : (leaf : Tree A K V).isLeaf = true := rfl
  simp only [delRoot, isLeaf_false hr, hleaf, Bool.false_eq_true, ↓reduceIte]

theorem delRoot_of_ne (hl : l ≠ leaf) (hr : r ≠ leaf) :
    (node l a k v r).delRoot = node l a (r.first (k, v)).1 (r.first (k, v)).2 r.delMin := by
  simp [delRoot, isLeaf_false hr, isLeaf_false hl]

theorem mem_keys_delMin {y : K} : y ∈ t.delMin.keys → y ∈ t.keys := by
  induction t with
  | leaf => exact id
  | node l a k v r ihl ihr =>
    by_cases hl : l = leaf
    · subst hl
      rw [delMin_of_leaf]
      exact fun hy => List.mem_cons_of_mem _ hy
    · rw [delMin_of_ne hl]
      simp only [keys, List.mem_append, List.mem_cons]
      tauto

theorem first_mem {d : K × V} (ht : t ≠ leaf) : (t.first d).1 ∈ t.keys := by
  induction t generalizing d with
  | leaf => exact absurd rfl ht
  | node l a k v r ihl ihr =>
    by_cases hl : l = leaf
    · subst hl
      simp [first, keys]
    · have := ihl (d := (k, v)) hl
      simp only [first, keys, List.mem_append]
      exact Or.inl this

theorem mem_keys_delRoot {y : K} : y ∈ t.delRoot.keys → y ∈ t.keys := by
  cases t with
  | leaf => exact id
  | node l a k v r =>
    by_cases hr : r = leaf
    · subst hr
      rw [delRoot_of_right]
      exact fun hy => List.mem_append_left _ hy
    · by_cases hl : l = leaf
      · subst hl
        rw [delRoot_of_left hr]
        exact fun hy => List.mem_append_right _ (List.mem_cons_of_mem _ hy)
      · rw [delRoot_of_ne hl hr]
        simp only [keys, List.mem_append, List.mem_cons]
        rintro (hy | rfl | hy)
        · exact Or.inl hy
        · exact Or.inr (Or.inr (first_mem hr))
        · exact Or.inr (Or.inr (mem_keys_delMin hy))

/-- The addresses without the end of the spine. -/
theorem addrs_delMin (ht : t ≠ leaf) : ∃ s ∈ t.spine, t.spine.getLast? = some s ∧
    t.addrs = s :: t.delMin.addrs := by
  induction t with
  | leaf => exact absurd rfl ht
  | node l a k v r ihl ihr =>
    by_cases hl : l = leaf
    · subst hl
      exact ⟨a, by simp [spine], rfl, rfl⟩
    · obtain ⟨s, hs, hlast, haddrs⟩ := ihl hl
      refine ⟨s, List.mem_cons_of_mem _ hs, ?_, ?_⟩
      · rw [spine, List.getLast?_cons, hlast]
        rfl
      · rw [delMin_of_ne hl, addrs, addrs, haddrs, List.cons_append]

/-- The address that leaves the tree with its root entry. -/
def leaver : Tree A K V → List A
  | leaf => []
  | node l a _ _ r => if l.isLeaf || r.isLeaf then [a] else r.spine.getLast?.toList

theorem addrs_delRoot : t.addrs.Perm (t.leaver ++ t.delRoot.addrs) := by
  cases t with
  | leaf => exact List.Perm.refl _
  | node l a k v r =>
    by_cases hrl : r = leaf
    · subst hrl
      simp only [leaver, delRoot_of_right, isLeaf, Bool.or_true, ↓reduceIte, addrs,
        List.singleton_append]
      exact List.perm_append_comm
    · by_cases hll : l = leaf
      · subst hll
        rw [delRoot_of_left hrl]
        exact List.Perm.refl _
      · obtain ⟨s, -, hlast, haddrs⟩ := addrs_delMin hrl
        rw [delRoot_of_ne hll hrl]
        simp only [leaver, isLeaf_false hll, isLeaf_false hrl, Bool.or_self, Bool.false_eq_true,
          ↓reduceIte, hlast, Option.toList_some, addrs, haddrs]
        have hmid : ((l.addrs ++ [a]) ++ s :: r.delMin.addrs).Perm
            (s :: ((l.addrs ++ [a]) ++ r.delMin.addrs)) := List.perm_middle
        simpa using hmid

theorem spine_subset : t.spine ⊆ t.addrs := by
  induction t with
  | leaf => exact fun _ h => h
  | node l a k v r ihl ihr =>
    intro y hy
    simp only [addrs, List.mem_append, List.mem_cons]
    rcases List.mem_cons.mp hy with rfl | hy
    · exact Or.inr (Or.inl rfl)
    · exact Or.inl (ihl hy)

theorem spine_nodup (ht : t.addrs.Nodup) : t.spine.Nodup := by
  induction t with
  | leaf => exact List.nodup_nil
  | node l a k v r ihl ihr =>
    obtain ⟨hl, -, hal, -⟩ := nodup_node ht
    exact List.nodup_cons.mpr ⟨fun h => hal (spine_subset h), ihl hl⟩

theorem spine_ne_nil (ht : t ≠ leaf) : t.spine ≠ [] := by
  cases t with
  | leaf => exact absurd rfl ht
  | node l a k v r => exact List.cons_ne_nil _ _

/-! ## Order and contents -/

section Order

variable [LinearOrder K] {x y : K} {w : V}

/-- Search tree order, each key once. -/
def Ordered : Tree A K V → Prop
  | leaf => True
  | node l _ k _ r => l.Ordered ∧ r.Ordered ∧ (∀ x ∈ l.keys, x < k) ∧ ∀ x ∈ r.keys, k < x

def lookup (x : K) : Tree A K V → Option V
  | leaf => none
  | node l _ k v r => if x = k then some v else if x < k then l.lookup x else r.lookup x

/-- The nodes from which a search for `x` goes on downwards. -/
def trail (x : K) : Tree A K V → List A
  | leaf => []
  | node l a k _ r =>
    if x = k then [] else a :: if x < k then l.trail x else r.trail x

/-- Insertion of a new node for a key that is not there. -/
def put (a : A) (x : K) (w : V) : Tree A K V → Tree A K V
  | leaf => node leaf a x w leaf
  | node l b k v r =>
    if x = k then node l b k v r
    else if x < k then node (l.put a x w) b k v r
    else node l b k v (r.put a x w)

/-- Deletion of a key. -/
def cut (x : K) : Tree A K V → Tree A K V
  | leaf => leaf
  | node l b k v r =>
    if x = k then delRoot (node l b k v r)
    else if x < k then node (l.cut x) b k v r
    else node l b k v (r.cut x)

theorem lookup_of_not_mem (hx : x ∉ t.keys) : t.lookup x = none := by
  induction t with
  | leaf => rfl
  | node l a k v r ihl ihr =>
    simp only [keys, List.mem_append, List.mem_cons, not_or] at hx
    simp only [lookup, hx.2.1, ↓reduceIte, ihl hx.1, ihr hx.2.2, ite_self]

theorem mem_keys_of_lookup (hx : t.lookup x = some w) : x ∈ t.keys := by
  by_contra h
  rw [lookup_of_not_mem h] at hx
  cases hx

theorem mem_keys_put : y ∈ (t.put a x w).keys → y = x ∨ y ∈ t.keys := by
  induction t with
  | leaf => simp [put, keys]
  | node l b k v r ihl ihr =>
    intro hy
    unfold put at hy
    split_ifs at hy <;> simp only [keys, List.mem_append, List.mem_cons] at hy ⊢ <;> tauto

theorem Ordered.put (ht : t.Ordered) : (t.put a x w).Ordered := by
  induction t with
  | leaf => simp [Tree.put, Ordered, keys]
  | node l b k v r ihl ihr =>
    obtain ⟨hl, hr, hlt, hgt⟩ := ht
    unfold Tree.put
    split_ifs with heq hxk
    · exact ⟨hl, hr, hlt, hgt⟩
    · refine ⟨ihl hl, hr, fun y hy => ?_, hgt⟩
      rcases mem_keys_put hy with rfl | hy
      · exact hxk
      · exact hlt y hy
    · refine ⟨hl, ihr hr, hlt, fun y hy => ?_⟩
      rcases mem_keys_put hy with rfl | hy
      · exact lt_of_le_of_ne (not_lt.mp hxk) (Ne.symm heq)
      · exact hgt y hy

/-- The map after an insertion. -/
theorem lookup_put (hx : t.lookup x = none) :
    (t.put a x w).lookup y = if y = x then some w else t.lookup y := by
  induction t with
  | leaf => simp [Tree.put, lookup]
  | node l b k v r ihl ihr =>
    unfold lookup at hx
    split_ifs at hx with heq hxk
    · unfold Tree.put
      simp only [heq, hxk, ↓reduceIte, lookup]
      by_cases hyx : y = x
      · subst hyx
        simp only [heq, hxk, ↓reduceIte, ihl hx]
      · simp only [hyx, ↓reduceIte, ihl hx]
    · unfold Tree.put
      simp only [heq, hxk, ↓reduceIte, lookup]
      by_cases hyx : y = x
      · subst hyx
        simp only [heq, hxk, ↓reduceIte, ihr hx]
      · simp only [hyx, ↓reduceIte, ihr hx]

/-! ## Deleting the least entry -/

theorem Ordered.delMin (ht : t.Ordered) : t.delMin.Ordered := by
  induction t with
  | leaf => exact ht
  | node l a k v r ihl ihr =>
    obtain ⟨hl, hr, hlt, hgt⟩ := ht
    by_cases hlf : l = leaf
    · subst hlf
      exact hr
    · rw [delMin_of_ne hlf]
      exact ⟨ihl hl, hr, fun y hy => hlt y (mem_keys_delMin hy), hgt⟩

/-- The least key is below all others. -/
theorem first_lt {d : K × V} (ht : t.Ordered) (hy : y ∈ t.delMin.keys) : (t.first d).1 < y := by
  induction t generalizing d with
  | leaf => cases hy
  | node l a k v r ihl ihr =>
    obtain ⟨hl, hr, hlt, hgt⟩ := ht
    by_cases hlf : l = leaf
    · subst hlf
      exact hgt y hy
    · rw [delMin_of_ne hlf] at hy
      simp only [keys, List.mem_append, List.mem_cons] at hy
      have hk : (l.first (k, v)).1 < k := hlt _ (first_mem hlf)
      rcases hy with hy | rfl | hy
      · exact ihl hl hy
      · exact hk
      · exact lt_trans hk (hgt y hy)

theorem lookup_first {d : K × V} (ht : t.Ordered) (hne : t ≠ leaf) :
    t.lookup (t.first d).1 = some (t.first d).2 := by
  induction t generalizing d with
  | leaf => exact absurd rfl hne
  | node l a k v r ihl ihr =>
    obtain ⟨hl, hr, hlt, hgt⟩ := ht
    by_cases hlf : l = leaf
    · subst hlf
      simp [first, lookup]
    · have hk : (l.first (k, v)).1 < k := hlt _ (first_mem hlf)
      simp only [first, lookup, ne_of_lt hk, ↓reduceIte, hk, ihl hl hlf]

theorem lookup_delMin {d : K × V} (ht : t.Ordered) (hy : y ≠ (t.first d).1) :
    t.delMin.lookup y = t.lookup y := by
  induction t generalizing d with
  | leaf => rfl
  | node l a k v r ihl ihr =>
    obtain ⟨hl, hr, hlt, hgt⟩ := ht
    by_cases hlf : l = leaf
    · subst hlf
      have hyk : y ≠ k := hy
      simp only [delMin_of_leaf, lookup, hyk, ↓reduceIte]
      by_cases hlt' : y < k
      · rw [if_pos hlt']
        refine lookup_of_not_mem fun hm => ?_
        exact lt_asymm hlt' (hgt y hm)
      · rw [if_neg hlt']
    · have hy' : y ≠ (l.first (k, v)).1 := hy
      rw [delMin_of_ne hlf]
      simp only [lookup, ihl hl hy']

/-! ## Deleting a key -/

theorem Ordered.delRoot (ht : t.Ordered) : t.delRoot.Ordered := by
  cases t with
  | leaf => exact ht
  | node l a k v r =>
    obtain ⟨hl, hr, hlt, hgt⟩ := ht
    by_cases hrl : r = leaf
    · subst hrl
      exact hl
    · by_cases hll : l = leaf
      · subst hll
        rw [delRoot_of_left hrl]
        exact hr
      · rw [delRoot_of_ne hll hrl]
        refine ⟨hl, hr.delMin, fun y hy => ?_, fun y hy => first_lt hr hy⟩
        exact lt_trans (hlt y hy) (hgt _ (first_mem hrl))

/-- Deleting the root deletes its key. -/
theorem lookup_delRoot (ht : (node l a k v r).Ordered) :
    (node l a k v r).delRoot.lookup y = if y = k then none else (node l a k v r).lookup y := by
  obtain ⟨hl, hr, hlt, hgt⟩ := ht
  have hlk : l.lookup k = none := lookup_of_not_mem fun hm => lt_irrefl _ (hlt k hm)
  have hrk : r.lookup k = none := lookup_of_not_mem fun hm => lt_irrefl _ (hgt k hm)
  have hleft : ¬ y < k → l.lookup y = none := fun h => lookup_of_not_mem fun hm => h (hlt y hm)
  have hright : y ≤ k → r.lookup y = none := fun h =>
    lookup_of_not_mem fun hm => not_lt_of_ge h (hgt y hm)
  by_cases hrl : r = leaf
  · subst hrl
    rw [delRoot_of_right]
    by_cases hyk : y = k
    · rw [if_pos hyk, hyk, hlk]
    · by_cases hlt' : y < k
      · simp only [hyk, ↓reduceIte, lookup, hlt']
      · simp only [hyk, ↓reduceIte, lookup, hlt', hleft hlt']
  · by_cases hll : l = leaf
    · subst hll
      rw [delRoot_of_left hrl]
      by_cases hyk : y = k
      · rw [if_pos hyk, hyk, hrk]
      · by_cases hlt' : y < k
        · simp only [hyk, ↓reduceIte, lookup, hlt', hright (le_of_lt hlt')]
        · simp only [hyk, ↓reduceIte, lookup, hlt']
    · rw [delRoot_of_ne hll hrl]
      have hk : k < (r.first (k, v)).1 := hgt _ (first_mem hrl)
      by_cases hys : y = (r.first (k, v)).1
      · have hyk : ¬ y = k := fun h => ne_of_gt hk (hys.symm.trans h)
        have hlt' : ¬ y < k := not_lt_of_gt (hys ▸ hk)
        have hfirst : r.lookup y = some (r.first (k, v)).2 := by rw [hys, lookup_first hr hrl]
        simp only [lookup, hys.symm, hyk, hlt', ↓reduceIte, hfirst]
      · have hmin : r.delMin.lookup y = r.lookup y := lookup_delMin hr hys
        simp only [lookup, hys, ↓reduceIte, hmin]
        by_cases hyk : y = k
        · subst hyk
          simp only [hk, ↓reduceIte, hlk]
        · simp only [hyk, ↓reduceIte]
          by_cases hlt' : y < k
          · simp only [hlt', lt_trans hlt' hk, ↓reduceIte]
          · by_cases hlt2 : y < (r.first (k, v)).1
            · -- `y` lies between the deleted key and its successor
              have hnone : r.lookup y = none := by
                rw [← hmin]
                exact lookup_of_not_mem fun hm => lt_asymm hlt2 (first_lt hr hm)
              simp only [hlt', hlt2, ↓reduceIte, hleft hlt', hnone]
            · simp only [hlt', hlt2, ↓reduceIte]

theorem mem_keys_cut : y ∈ (t.cut x).keys → y ∈ t.keys := by
  induction t with
  | leaf => exact id
  | node l b k v r ihl ihr =>
    unfold cut
    split_ifs with heq hxk
    · exact mem_keys_delRoot
    · simp only [keys, List.mem_append, List.mem_cons]
      tauto
    · simp only [keys, List.mem_append, List.mem_cons]
      tauto

theorem Ordered.cut (ht : t.Ordered) : (t.cut x).Ordered := by
  induction t with
  | leaf => exact ht
  | node l b k v r ihl ihr =>
    unfold Tree.cut
    split_ifs with heq hxk
    · exact ht.delRoot
    · obtain ⟨hl, hr, hlt, hgt⟩ := ht
      exact ⟨ihl hl, hr, fun y hy => hlt y (mem_keys_cut hy), hgt⟩
    · obtain ⟨hl, hr, hlt, hgt⟩ := ht
      exact ⟨hl, ihr hr, hlt, fun y hy => hgt y (mem_keys_cut hy)⟩

/-- The map after a deletion. -/
theorem lookup_cut (ht : t.Ordered) :
    (t.cut x).lookup y = if y = x then none else t.lookup y := by
  induction t with
  | leaf => simp [Tree.cut, lookup]
  | node l b k v r ihl ihr =>
    obtain ⟨hl, hr, hlt, hgt⟩ := ht
    by_cases heq : x = k
    · have hcut : (node l b k v r).cut x = (node l b k v r).delRoot := by
        simp only [Tree.cut, heq, ↓reduceIte]
      rw [hcut, heq]
      exact lookup_delRoot ⟨hl, hr, hlt, hgt⟩
    · by_cases hxk : x < k
      · simp only [Tree.cut, heq, hxk, ↓reduceIte, lookup, ihl hl]
        by_cases hyx : y = x
        · subst hyx
          simp only [heq, hxk, ↓reduceIte]
        · simp only [hyx, ↓reduceIte]
      · simp only [Tree.cut, heq, hxk, ↓reduceIte, lookup, ihr hr]
        by_cases hyx : y = x
        · subst hyx
          simp only [heq, hxk, ↓reduceIte]
        · simp only [hyx, ↓reduceIte]

end Order

end Tree

end CourseProjects.SearchTree

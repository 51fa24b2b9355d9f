import CourseProjects.Lib.SearchTree
import Mathlib.Order.Monotone.Basic

/-!
# Searches and edits

Insertion and deletion are grafts at the place where a search ends. A search
that stands elsewhere in the tree is not disturbed by them.
-/

namespace CourseProjects.SearchTree

variable {A K V : Type*}

namespace Tree

variable {s t u l r : Tree A K V} {a b : A} {k : K} {v : V} [LinearOrder K] {x y : K} {w : V}

/-! ## Searching -/

/-- The search order decides which entry is found. -/
theorem lookup_of_sub (ht : t.Ordered) (h : Sub (node l a k v r) t) : t.lookup k = some v := by
  induction t with
  | leaf => exact h.elim
  | node tl b tk tv tr ihl ihr =>
    obtain ⟨hl, hr, hlt, hgt⟩ := ht
    rcases h with h | h | h
    · cases h
      simp [lookup]
    · have hk : k < tk := hlt _ (mem_keys_of_lookup (ihl hl h))
      simp only [lookup, ne_of_lt hk, ↓reduceIte, hk, ihl hl h]
    · have hk : tk < k := hgt _ (mem_keys_of_lookup (ihr hr h))
      simp only [lookup, ne_of_gt hk, ↓reduceIte, not_lt_of_gt hk, ihr hr h]

theorem trail_subset : t.trail x ⊆ t.addrs := by
  induction t with
  | leaf => exact fun _ h => h
  | node l b k v r ihl ihr =>
    intro y hy
    simp only [trail] at hy
    simp only [addrs, List.mem_append, List.mem_cons]
    split_ifs at hy with heq hxk
    · cases hy
    · rcases List.mem_cons.mp hy with rfl | hy
      · exact Or.inr (Or.inl rfl)
      · exact Or.inl (ihl hy)
    · rcases List.mem_cons.mp hy with rfl | hy
      · exact Or.inr (Or.inl rfl)
      · exact Or.inr (Or.inr (ihr hy))

/-- Two subtrees with one key are the same. -/
theorem Sub.unique_key {l' r' : Tree A K V} {v' : V} (ht : t.Ordered)
    (h : Sub (node l a k v r) t) (h' : Sub (node l' b k v' r') t) :
    node l a k v r = node l' b k v' r' := by
  induction t with
  | leaf => exact h.elim
  | node tl d tk tv tr ihl ihr =>
    obtain ⟨hl, hr, hlt, hgt⟩ := ht
    rcases h with h | h | h <;> rcases h' with h' | h' | h'
    · rw [h, h']
    · cases h
      exact absurd (hlt k h'.mem_keys) (lt_irrefl k)
    · cases h
      exact absurd (hgt k h'.mem_keys) (lt_irrefl k)
    · cases h'
      exact absurd (hlt k h.mem_keys) (lt_irrefl k)
    · exact ihl hl h h'
    · exact absurd (hlt k h.mem_keys) (lt_asymm (hgt k h'.mem_keys))
    · cases h'
      exact absurd (hgt k h.mem_keys) (lt_irrefl k)
    · exact absurd (hlt k h'.mem_keys) (lt_asymm (hgt k h.mem_keys))
    · exact ihr hr h h'

/-- The subtree that a search for `x` enters below a node. -/
def toward (x : K) : Tree A K V → Tree A K V
  | leaf => leaf
  | node l _ k _ r => if x < k then l else r

theorem size_toward : ((node l a k v r).toward x).size < (node l a k v r).size := by
  simp only [toward, size]
  split_ifs <;> omega

theorem toward_subset : ((node l a k v r).toward x).addrs ⊆ l.addrs ++ r.addrs := by
  intro b hb
  simp only [toward] at hb
  split_ifs at hb
  · exact List.mem_append_left _ hb
  · exact List.mem_append_right _ hb

theorem mem_trail_node : b ∈ (node l a k v r).trail x ↔
    x ≠ k ∧ (b = a ∨ if x < k then b ∈ l.trail x else b ∈ r.trail x) := by
  by_cases heq : x = k
  · simp [trail, heq]
  · by_cases hxk : x < k
    · simp [trail, heq, hxk]
    · simp [trail, heq, hxk]

theorem root_mem_trail (hx : x ≠ k) : a ∈ (node l a k v r).trail x :=
  mem_trail_node.mpr ⟨hx, Or.inl rfl⟩

/-- Where a node of the trail sits: at the root, or on its side in the subtree
that the search enters. -/
theorem trail_cases {tl tr : Tree A K V} {tk : K} {tv : V}
    (hd : (node tl b tk tv tr).addrs.Nodup) (hs : Sub (node l a k v r) (node tl b tk tv tr))
    (ha : a ∈ (node tl b tk tv tr).trail x) :
    x ≠ tk ∧ (node l a k v r = node tl b tk tv tr ∨
      (a ≠ b ∧ x < tk ∧ Sub (node l a k v r) tl ∧ a ∈ tl.trail x) ∨
      (a ≠ b ∧ ¬ x < tk ∧ Sub (node l a k v r) tr ∧ a ∈ tr.trail x)) := by
  obtain ⟨-, -, hbl, hbr, hlr⟩ := nodup_node hd
  obtain ⟨hx, htr⟩ := mem_trail_node.mp ha
  refine ⟨hx, ?_⟩
  rcases hs with hs | hs | hs
  · exact Or.inl hs
  · have hab : a ≠ b := fun h => hbl (h ▸ hs.mem)
    have htr := htr.resolve_left hab
    split_ifs at htr with hxk
    · exact Or.inr (Or.inl ⟨hab, hxk, hs, htr⟩)
    · exact absurd (trail_subset htr) (hlr a hs.mem)
  · have hab : a ≠ b := fun h => hbr (h ▸ hs.mem)
    have htr := htr.resolve_left hab
    split_ifs at htr with hxk
    · exact absurd hs.mem (hlr a (trail_subset htr))
    · exact Or.inr (Or.inr ⟨hab, hxk, hs, htr⟩)

/-- Induction along the search that comes to a node: over the subtrees that it enters. -/
@[elab_as_elim]
theorem trail_induction {motive : Tree A K V → Prop} (hd : t.addrs.Nodup)
    (hs : Sub (node l a k v r) t) (ha : a ∈ t.trail x) (here : x ≠ k → motive (node l a k v r))
    (left : ∀ tl b tk tv tr, x ≠ tk → a ≠ b → x < tk → motive tl → motive (node tl b tk tv tr))
    (right : ∀ tl b tk tv tr, x ≠ tk → a ≠ b → ¬ x < tk → motive tr →
      motive (node tl b tk tv tr)) : motive t := by
  induction t with
  | leaf => exact hs.elim
  | node tl b tk tv tr ihl ihr =>
    obtain ⟨hl, hr, -⟩ := nodup_node hd
    obtain ⟨hx, heq | ⟨hab, hxk, hs, ha⟩ | ⟨hab, hxk, hs, ha⟩⟩ := trail_cases hd hs ha
    · cases heq
      exact here hx
    · exact left tl b tk tv tr hx hab hxk (ihl hl hs ha)
    · exact right tl b tk tv tr hx hab hxk (ihr hr hs ha)

/-- A search that runs into an empty subtree misses. -/
theorem lookup_of_toward (hd : t.addrs.Nodup) (hs : Sub (node l a k v r) t) (ha : a ∈ t.trail x)
    (hc : (node l a k v r).toward x = leaf) : t.lookup x = none := by
  refine trail_induction hd hs ha ?_ ?_ ?_
  · intro hx
    simp only [toward] at hc
    simp only [lookup, hx, ↓reduceIte]
    split_ifs at hc ⊢
    · rw [hc, lookup]
    · rw [hc, lookup]
  · intro tl b tk tv tr hx _ hxk ih
    simp only [lookup, hx, ↓reduceIte, hxk, ih]
  · intro tl b tk tv tr hx _ hxk ih
    simp only [lookup, hx, ↓reduceIte, hxk, ih]

/-- A search goes on at a node with another key. -/
theorem trail_toward {l' r' : Tree A K V} {k' : K} {v' : V} (hd : t.addrs.Nodup)
    (hs : Sub (node l a k v r) t) (ha : a ∈ t.trail x)
    (hc : (node l a k v r).toward x = node l' b k' v' r') (hx : x ≠ k') : b ∈ t.trail x := by
  refine trail_induction hd hs ha ?_ ?_ ?_
  · intro hxt
    refine mem_trail_node.mpr ⟨hxt, Or.inr ?_⟩
    simp only [toward] at hc
    split_ifs at hc ⊢
    · rw [hc]
      exact root_mem_trail hx
    · rw [hc]
      exact root_mem_trail hx
  · intro tl d tk tv tr hxt _ hxk ih
    refine mem_trail_node.mpr ⟨hxt, Or.inr ?_⟩
    rwa [if_pos hxk]
  · intro tl d tk tv tr hxt _ hxk ih
    refine mem_trail_node.mpr ⟨hxt, Or.inr ?_⟩
    rwa [if_neg hxk]

/-! ## Edits at the end of a search -/

section Graft

variable [DecidableEq A] {p : A} {s : Tree A K V}

/-- The tree with `s` in place of the subtree that a search for `x` enters
below `p`. -/
def graft (p : A) (x : K) : Tree A K V → Tree A K V → Tree A K V
  | leaf, _ => leaf
  | node l a k v r, s =>
    if x < k then node (if a = p then s else l.graft p x s) a k v r
    else node l a k v (if a = p then s else r.graft p x s)

theorem graft_self : (node l p k v r).graft p x s =
    if x < k then node s p k v r else node l p k v s := by
  simp only [graft, ↓reduceIte]

theorem root_graft [Zero A] : (t.graft p x s).root = t.root := by
  cases t with
  | leaf => rfl
  | node l a k v r =>
    unfold graft
    split_ifs <;> rfl

theorem put_eq_graft (hd : t.addrs.Nodup) (hs : Sub (node l p k v r) t) (hp : p ∈ t.trail x)
    (hc : (node l p k v r).toward x = leaf) :
    t.put a x w = t.graft p x (node leaf a x w leaf) := by
  refine trail_induction hd hs hp ?_ ?_ ?_
  · intro hx
    simp only [toward] at hc
    unfold put
    rw [if_neg hx, graft_self]
    split_ifs at hc ⊢
    · rw [hc, put]
    · rw [hc, put]
  · intro tl b tk tv tr hx hpb hxk ih
    unfold put graft
    rw [if_neg hx, if_pos hxk, if_pos hxk, if_neg (Ne.symm hpb), ih]
  · intro tl b tk tv tr hx hpb hxk ih
    unfold put graft
    rw [if_neg hx, if_neg hxk, if_neg hxk, if_neg (Ne.symm hpb), ih]

theorem cut_eq_graft {l' r' : Tree A K V} {v' : V} (hd : t.addrs.Nodup)
    (hs : Sub (node l p k v r) t) (hp : p ∈ t.trail x)
    (hc : (node l p k v r).toward x = node l' a x v' r') :
    t.cut x = t.graft p x (node l' a x v' r').delRoot := by
  refine trail_induction hd hs hp ?_ ?_ ?_
  · intro hx
    simp only [toward] at hc
    have hcut : (node l' a x v' r').cut x = (node l' a x v' r').delRoot := by
      simp only [cut, ↓reduceIte]
    unfold cut
    rw [if_neg hx, graft_self]
    split_ifs at hc ⊢
    · rw [hc, hcut]
    · rw [hc, hcut]
  · intro tl b tk tv tr hx hpb hxk ih
    unfold cut graft
    rw [if_neg hx, if_pos hxk, if_pos hxk, if_neg (Ne.symm hpb), ih]
  · intro tl b tk tv tr hx hpb hxk ih
    unfold cut graft
    rw [if_neg hx, if_neg hxk, if_neg hxk, if_neg (Ne.symm hpb), ih]

/-- A graft exchanges the addresses of the subtree. -/
theorem addrs_graft (s' : Tree A K V) (hd : t.addrs.Nodup) (hs : Sub (node l p k v r) t)
    (hp : p ∈ t.trail x) (hc : (node l p k v r).toward x = s) :
    ((t.graft p x s').addrs ++ s.addrs).Perm (t.addrs ++ s'.addrs) := by
  rw [List.perm_iff_count]
  intro c
  rw [List.count_append, List.count_append]
  refine trail_induction hd hs hp ?_ ?_ ?_
  · intro _
    simp only [toward] at hc
    rw [graft_self]
    split_ifs at hc ⊢
    · subst hc
      simp only [addrs, List.count_append, List.count_cons]
      omega
    · subst hc
      simp only [addrs, List.count_append, List.count_cons]
      omega
  · intro tl b tk tv tr _ hpb hxk ih
    unfold graft
    rw [if_pos hxk, if_neg (Ne.symm hpb)]
    simp only [addrs, List.count_append, List.count_cons]
    omega
  · intro tl b tk tv tr _ hpb hxk ih
    unfold graft
    rw [if_neg hxk, if_neg (Ne.symm hpb)]
    simp only [addrs, List.count_append, List.count_cons]
    omega

end Graft

/-! ## Searches across edits -/

theorem trail_put (hb : b ∈ t.trail y) : b ∈ (t.put a x w).trail y := by
  induction t with
  | leaf => cases hb
  | node l d k v r ihl ihr =>
    obtain ⟨hy, hb⟩ := mem_trail_node.mp hb
    unfold put
    split_ifs with heq hxk
    · exact mem_trail_node.mpr ⟨hy, hb⟩
    · refine mem_trail_node.mpr ⟨hy, hb.imp_right fun hb => ?_⟩
      split_ifs at hb ⊢
      · exact ihl hb
      · exact hb
    · refine mem_trail_node.mpr ⟨hy, hb.imp_right fun hb => ?_⟩
      split_ifs at hb ⊢
      · exact hb
      · exact ihr hb

/-- A search that has left the spine is for a key above the least one. -/
theorem trail_delMin {d : K × V} (ht : t.Ordered) (hb : b ∈ t.trail y) (hsp : b ∉ t.spine) :
    (t.first d).1 < y ∧ b ∈ t.delMin.trail y := by
  induction t generalizing d with
  | leaf => cases hb
  | node l a k v r ihl ihr =>
    obtain ⟨hl, hr, hlt, hgt⟩ := ht
    simp only [spine, List.mem_cons, not_or] at hsp
    obtain ⟨hy, hb⟩ := mem_trail_node.mp hb
    have hb := hb.resolve_left hsp.1
    by_cases hlf : l = leaf
    · subst hlf
      split_ifs at hb with hyk
      · cases hb
      · exact ⟨lt_of_le_of_ne (not_lt.mp hyk) (Ne.symm hy), hb⟩
    · rw [delMin_of_ne hlf]
      split_ifs at hb with hyk
      · obtain ⟨hlt', hb⟩ := ihl hl hb hsp.2 (d := (k, v))
        refine ⟨hlt', mem_trail_node.mpr ⟨hy, Or.inr ?_⟩⟩
        rw [if_pos hyk]
        exact hb
      · have hk : (l.first (k, v)).1 < k := hlt _ (first_mem hlf)
        have hky : k < y := lt_of_le_of_ne (not_lt.mp hyk) (Ne.symm hy)
        refine ⟨lt_trans hk hky, mem_trail_node.mpr ⟨hy, Or.inr ?_⟩⟩
        rw [if_neg hyk]
        exact hb

theorem trail_delRoot (ht : (node l a k v r).Ordered) (hb : b ∈ (node l a k v r).trail y)
    (hba : b ≠ a) (hsp : l ≠ leaf → b ∉ r.spine) : b ∈ (node l a k v r).delRoot.trail y := by
  obtain ⟨hl, hr, hlt, hgt⟩ := ht
  obtain ⟨hy, hb⟩ := mem_trail_node.mp hb
  have hb := hb.resolve_left hba
  by_cases hrl : r = leaf
  · subst hrl
    rw [delRoot_of_right]
    split_ifs at hb
    · exact hb
    · cases hb
  · by_cases hll : l = leaf
    · subst hll
      rw [delRoot_of_left hrl]
      split_ifs at hb
      · cases hb
      · exact hb
    · rw [delRoot_of_ne hll hrl]
      have hk : k < (r.first (k, v)).1 := hgt _ (first_mem hrl)
      split_ifs at hb with hyk
      · have hys := lt_trans hyk hk
        refine mem_trail_node.mpr ⟨ne_of_lt hys, Or.inr ?_⟩
        rw [if_pos hys]
        exact hb
      · obtain ⟨hys, hb⟩ := trail_delMin hr hb (hsp hll) (d := (k, v))
        refine mem_trail_node.mpr ⟨ne_of_gt hys, Or.inr ?_⟩
        rw [if_neg (not_lt_of_gt hys)]
        exact hb

/-- A search survives a deletion when it is neither at the deleted node nor on
the way to its successor. -/
theorem trail_cut (ht : t.Ordered) (hb : b ∈ t.trail y)
    (hcut : ∀ l a v r, Sub (node l a x v r) t → b ≠ a ∧ (l ≠ leaf → b ∉ r.spine)) :
    b ∈ (t.cut x).trail y := by
  induction t with
  | leaf => cases hb
  | node l d k v r ihl ihr =>
    by_cases heq : x = k
    · subst heq
      obtain ⟨hbd, hsp⟩ := hcut l d v r (Or.inl rfl)
      have hdel : (node l d x v r).cut x = (node l d x v r).delRoot := by
        simp only [cut, ↓reduceIte]
      rw [hdel]
      exact trail_delRoot ht hb hbd hsp
    · obtain ⟨hl, hr, -, -⟩ := ht
      obtain ⟨hy, hb⟩ := mem_trail_node.mp hb
      unfold cut
      rw [if_neg heq]
      split_ifs with hxk
      · refine mem_trail_node.mpr ⟨hy, hb.imp_right fun hb => ?_⟩
        split_ifs at hb ⊢
        · exact ihl hl hb fun l' a' v' r' h => hcut l' a' v' r' (Or.inr (Or.inl h))
        · exact hb
      · refine mem_trail_node.mpr ⟨hy, hb.imp_right fun hb => ?_⟩
        split_ifs at hb ⊢
        · exact hb
        · exact ihr hr hb fun l' a' v' r' h => hcut l' a' v' r' (Or.inr (Or.inr h))

/-! ## Renaming keys -/

section MapKey

variable {K' : Type*} {f : K → K'}

def mapKey (f : K → K') : Tree A K V → Tree A K' V
  | leaf => leaf
  | node l a k v r => node (l.mapKey f) a (f k) v (r.mapKey f)

omit [LinearOrder K] in
@[simp] theorem addrs_mapKey : (t.mapKey f).addrs = t.addrs := by
  induction t with
  | leaf => rfl
  | node l a k v r ihl ihr => simp [mapKey, addrs, ihl, ihr]

omit [LinearOrder K] in
@[simp] theorem root_mapKey [Zero A] : (t.mapKey f).root = t.root := by
  cases t <;> rfl

omit [LinearOrder K] in
theorem keys_mapKey : (t.mapKey f).keys = t.keys.map f := by
  induction t with
  | leaf => rfl
  | node l a k v r ihl ihr => simp [mapKey, keys, ihl, ihr]

variable [LinearOrder K']

theorem ordered_mapKey (hf : StrictMono f) : (t.mapKey f).Ordered ↔ t.Ordered := by
  induction t with
  | leaf => exact Iff.rfl
  | node l a k v r ihl ihr =>
    simp only [mapKey, Ordered, ihl, ihr, keys_mapKey, List.mem_map, forall_exists_index, and_imp,
      forall_apply_eq_imp_iff₂, hf.lt_iff_lt]

theorem lookup_mapKey (hf : StrictMono f) : (t.mapKey f).lookup (f x) = t.lookup x := by
  induction t with
  | leaf => rfl
  | node l a k v r ihl ihr =>
    simp only [mapKey, lookup, ihl, ihr, hf.injective.eq_iff, hf.lt_iff_lt]

end MapKey

end Tree

end CourseProjects.SearchTree

import CourseProjects.Lib.SearchTree

/-!
# Trees written in pre-order

A tree is written as the word of its root and the texts of its subtrees one level
deeper; the empty tree has a word of its own. Words that can be told apart whatever
follows them make a text from which the tree can be read, but for the addresses.
-/

namespace CourseProjects.SearchTree

variable {α A A' K V β : Type*} {a : α} {x y u w : List α}

/-- A separator ends a word in one way. -/
theorem append_separator_inj (hx : a ∉ x) (hy : a ∉ y) (h : x ++ a :: u = y ++ a :: w) :
    x = y ∧ u = w := by
  induction x generalizing y with
  | nil =>
    cases y with
    | nil => exact ⟨rfl, (List.cons.inj h).2⟩
    | cons c y => exact absurd (List.mem_cons.mpr (Or.inl (List.cons.inj h).1)) hy
  | cons b x ih =>
    cases y with
    | nil => exact absurd (List.mem_cons.mpr (Or.inl (List.cons.inj h).1.symm)) hx
    | cons c y =>
      obtain ⟨hbc, hrest⟩ := List.cons.inj h
      have htail := ih (fun hm => hx (List.mem_cons_of_mem b hm))
        (fun hm => hy (List.mem_cons_of_mem c hm)) hrest
      exact ⟨by rw [hbc, htail.1], htail.2⟩

namespace Tree

/-- The same shape with the same entries, wherever the nodes are. -/
def Alike : Tree A K V → Tree A' K V → Prop
  | leaf, leaf => True
  | node l _ k v r, node l' _ k' v' r' => k = k' ∧ v = v' ∧ Alike l l' ∧ Alike r r'
  | _, _ => False

def preorder (word : Nat → Option (K × V) → List β) : Nat → Tree A K V → List β
  | n, leaf => word n none
  | n, node l _ k v r =>
    word n (some (k, v)) ++ (preorder word (n + 1) l ++ preorder word (n + 1) r)

/-- The words of a level can be told apart, for the entries in `P`. -/
def Readable (word : Nat → Option (K × V) → List β) (P : K → V → Prop) : Prop :=
  ∀ n d e u w, (∀ p ∈ d, P p.1 p.2) → (∀ p ∈ e, P p.1 p.2) → word n d ++ u = word n e ++ w →
    d = e ∧ u = w

variable {t : Tree A K V} {t' : Tree A' K V} {word : Nat → Option (K × V) → List β}
  {P : K → V → Prop}

theorem preorder_congr (h : Alike t t') (n : Nat) : preorder word n t = preorder word n t' := by
  induction t generalizing t' n with
  | leaf =>
    cases t' with
    | leaf => rfl
    | node l' a' k' v' r' => exact h.elim
  | node l a k v r ihl ihr =>
    cases t' with
    | leaf => exact h.elim
    | node l' a' k' v' r' =>
      obtain ⟨rfl, rfl, hl, hr⟩ := h
      rw [preorder, preorder, ihl hl, ihr hr]

/-- The text of a tree, whatever follows it, gives the tree and what follows. -/
theorem preorder_inj (hword : Readable word P) {u w : List β} (n : Nat)
    (ht : ∀ l a k v r, Sub (node l a k v r) t → P k v)
    (ht' : ∀ l a k v r, Sub (node l a k v r) t' → P k v)
    (h : preorder word n t ++ u = preorder word n t' ++ w) : Alike t t' ∧ u = w := by
  have hnone : ∀ p ∈ (none : Option (K × V)), P p.1 p.2 := fun p hp => by cases hp
  have hsome : ∀ {k v}, P k v → ∀ p ∈ some (k, v), P p.1 p.2 := fun hP p hp => by
    cases hp
    exact hP
  induction t generalizing t' n u w with
  | leaf =>
    cases t' with
    | leaf => exact ⟨trivial, (hword n none none u w hnone hnone h).2⟩
    | node l' a' k' v' r' =>
      rw [preorder, preorder, List.append_assoc] at h
      have hroot := ht' _ _ _ _ _ (Or.inl rfl)
      cases (hword n _ _ _ _ hnone (hsome hroot) h).1
  | node l a k v r ihl ihr =>
    have hroot := ht _ _ _ _ _ (Or.inl rfl)
    cases t' with
    | leaf =>
      rw [preorder, preorder, List.append_assoc] at h
      cases (hword n _ _ _ _ (hsome hroot) hnone h).1
    | node l' a' k' v' r' =>
      have hroot' := ht' _ _ _ _ _ (Or.inl rfl)
      simp only [preorder, List.append_assoc] at h
      obtain ⟨hentry, hrest⟩ := hword n _ _ _ _ (hsome hroot) (hsome hroot') h
      cases hentry
      obtain ⟨hl, hrest⟩ := ihl (n + 1) (fun _ _ _ _ _ hs => ht _ _ _ _ _ (Or.inr (Or.inl hs)))
        (fun _ _ _ _ _ hs => ht' _ _ _ _ _ (Or.inr (Or.inl hs))) hrest
      obtain ⟨hr, hrest⟩ := ihr (n + 1) (fun _ _ _ _ _ hs => ht _ _ _ _ _ (Or.inr (Or.inr hs)))
        (fun _ _ _ _ _ hs => ht' _ _ _ _ _ (Or.inr (Or.inr hs))) hrest
      exact ⟨⟨rfl, rfl, hl, hr⟩, hrest⟩

end Tree

end CourseProjects.SearchTree

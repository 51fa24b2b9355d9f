import Mathlib.Data.List.Induction
import Mathlib.Data.List.Sort

/-!
# The smallest values of a list

The first values of the sorted list. One value more is inserted into those that
are kept, and the last is dropped.
-/

namespace CourseProjects.Smallest

variable {α : Type*} [LinearOrder α] {k : Nat} {a b m : α} {l xs : List α}

/-- The `k` smallest values in order. -/
def smallest (k : Nat) (xs : List α) : List α :=
  (xs.insertionSort (· ≤ ·)).take k

theorem smallest_sorted (k : Nat) (xs : List α) : (smallest k xs).Pairwise (· ≤ ·) :=
  (List.pairwise_insertionSort (· ≤ ·) xs).sublist (List.take_sublist _ _)

@[simp] theorem smallest_length (k : Nat) (xs : List α) :
    (smallest k xs).length = min k xs.length := by
  rw [smallest, List.length_take, List.length_insertionSort]

/-- Sorted lists with the same values are equal. -/
theorem eq_orderedInsert {l' : List α} (hl : l.Pairwise (· ≤ ·)) (hl' : l'.Pairwise (· ≤ ·))
    (hperm : l'.Perm (a :: l)) : l' = l.orderedInsert (· ≤ ·) a :=
  (hperm.trans (List.perm_orderedInsert (· ≤ ·) a l).symm).eq_of_pairwise' hl'
    (hl.orderedInsert a l)

/-- A value behind all others is inserted at the end. -/
theorem orderedInsert_last (hl : l.Pairwise (· ≤ ·)) (h : ∀ b ∈ l, b ≤ a) :
    l.orderedInsert (· ≤ ·) a = l ++ [a] := by
  refine (eq_orderedInsert hl ?_ (List.perm_append_singleton a l)).symm
  rw [List.pairwise_append]
  refine ⟨hl, List.pairwise_singleton _ a, fun b hb c hc => ?_⟩
  rw [List.mem_singleton.mp hc]
  exact h b hb

/-- A value before the last one leaves the last one where it is. -/
theorem orderedInsert_before (hl : (l ++ [b]).Pairwise (· ≤ ·)) (h : a ≤ b) :
    (l ++ [b]).orderedInsert (· ≤ ·) a = l.orderedInsert (· ≤ ·) a ++ [b] := by
  obtain ⟨hsorted, -, hlast⟩ := List.pairwise_append.mp hl
  have hperm := List.perm_orderedInsert (· ≤ ·) a l
  refine (eq_orderedInsert hl ?_ (hperm.append_right [b])).symm
  rw [List.pairwise_append]
  refine ⟨hsorted.orderedInsert a l, List.pairwise_singleton _ b, fun c hc d hd => ?_⟩
  rw [List.mem_singleton.mp hd]
  rcases (List.mem_orderedInsert (· ≤ ·)).mp hc with rfl | hc
  · exact h
  · exact hlast c hc b List.mem_cons_self

/-- What is cut off before an insertion does not reach the front. -/
theorem take_orderedInsert_take (k : Nat) (a : α) (l : List α) :
    ((l.take k).orderedInsert (· ≤ ·) a).take k = (l.orderedInsert (· ≤ ·) a).take k := by
  induction l generalizing k with
  | nil => rw [List.take_nil]
  | cons b l ih =>
    cases k with
    | zero => rfl
    | succ k =>
      rw [List.take_succ_cons]
      by_cases hab : a ≤ b
      · rw [List.orderedInsert_cons_of_le _ _ hab, List.orderedInsert_cons_of_le _ _ hab]
        cases k with
        | zero => rfl
        | succ k => simp [List.take_take]
      · rw [List.orderedInsert_of_not_le _ _ hab, List.orderedInsert_of_not_le _ _ hab,
          List.take_succ_cons, List.take_succ_cons, ih]

/-- The smallest values after one value more. -/
theorem smallest_concat (k : Nat) (xs : List α) (a : α) :
    smallest k (xs ++ [a]) = ((smallest k xs).orderedInsert (· ≤ ·) a).take k := by
  have hsort : (xs ++ [a]).insertionSort (· ≤ ·) =
      (xs.insertionSort (· ≤ ·)).orderedInsert (· ≤ ·) a := by
    refine eq_orderedInsert (List.pairwise_insertionSort _ _) (List.pairwise_insertionSort _ _) ?_
    refine (List.perm_insertionSort _ _).trans ((List.perm_append_singleton a xs).trans ?_)
    exact (List.perm_insertionSort _ xs).symm.cons a
  rw [smallest, hsort, smallest, take_orderedInsert_take]

/-- The first of the smallest values is the least one. -/
theorem smallest_head (hk : 0 < k) (h : (smallest k xs)[0]? = some m) :
    m ∈ xs ∧ ∀ b ∈ xs, m ≤ b := by
  have hsorted := List.pairwise_insertionSort (· ≤ ·) xs
  have hperm := List.perm_insertionSort (· ≤ ·) xs
  rw [smallest, List.getElem?_take_of_lt hk] at h
  generalize xs.insertionSort (· ≤ ·) = sorted at h hsorted hperm
  cases sorted with
  | nil => cases h
  | cons a rest =>
    cases h
    refine ⟨hperm.subset List.mem_cons_self, fun b hb => ?_⟩
    rcases List.mem_cons.mp (hperm.symm.subset hb) with rfl | hb
    · exact le_refl b
    · exact (List.pairwise_cons.mp hsorted).1 b hb

/-! ## Settling the last value -/

/-- Swaps the value at `pos` with the one before it as long as that is larger. -/
def settle : Nat → List α → List α
  | 0, values => values
  | pos + 1, values =>
    match values[pos]?, values[pos + 1]? with
    | some before, some val =>
      if val < before then settle pos ((values.set pos val).set (pos + 1) before) else values
    | _, _ => values

theorem settle_eq (hl : l.Pairwise (· ≤ ·)) (a : α) (rest : List α) :
    settle l.length (l ++ a :: rest) = l.orderedInsert (· ≤ ·) a ++ rest := by
  induction l using List.reverseRecOn generalizing rest with
  | nil => rfl
  | append_singleton l b ih =>
    obtain ⟨hsorted, -, hlast⟩ := List.pairwise_append.mp hl
    have hbefore : (l ++ [b] ++ a :: rest)[l.length]? = some b := by simp
    have hval : (l ++ [b] ++ a :: rest)[l.length + 1]? = some a := by simp
    rw [List.length_append, List.length_singleton, settle, hbefore, hval]
    dsimp only
    split_ifs with hab
    · have hswap : ((l ++ [b] ++ a :: rest).set l.length a).set (l.length + 1) b =
          l ++ a :: b :: rest := by
        simp
      rw [hswap, ih hsorted, orderedInsert_before hl hab.le]
      simp
    · have hle : ∀ c ∈ l ++ [b], c ≤ a := fun c hc => by
        rcases List.mem_append.mp hc with hc | hc
        · exact (hlast c hc b List.mem_cons_self).trans (not_lt.mp hab)
        · rw [List.mem_singleton.mp hc]
          exact not_lt.mp hab
      rw [orderedInsert_last hl hle]
      simp

end CourseProjects.Smallest

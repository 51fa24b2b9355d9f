import CourseProjects.Malloc.Layout
import CourseProjects.Malloc.Mm

/-!
# The search of `mm_malloc`

The loop walks the free list once (`bestFitLoop_eq`); for a request of at most
`INT_MAX` bytes the conversions and the helper `smallest` do nothing
(`pickBest_eq`), so the result is the first block of the smallest sufficient size
(`bestFold_spec`, and `bestFit_spec` over the blocks of the heap).
-/

namespace CourseProjects.Malloc

open CyclicList

variable {h : Heap} {nsize min best cur a : Nat} {fl pre post l : List Nat} {sz : Nat → Nat}
  {bs : List Block}

/-! ## Sizes -/

theorem paddedSize_spec {size : Nat} (hs : size ≤ intMax) :
    paddedSize size % 8 = 0 ∧ size + 16 ≤ paddedSize size ∧ 32 ≤ paddedSize size ∧
      paddedSize size ≤ 2 ^ 31 + 16 := by
  unfold intMax at hs
  have halign : align size = (size + 7) / 8 * 8 := by
    unfold align wordSize
    rw [wadd_eq (by omega)]
  have hpad : paddedSize size = max ((size + 7) / 8 * 8 + 16) 32 := by
    unfold paddedSize tagsSize minBlockSize wordSize
    rw [halign, wadd_eq (by omega)]
  rw [hpad]
  omega

/-- `smallest` gives back a difference that is below the size of the block. -/
theorem smallest_eq {size nsize diff : Nat} (hd : diff / 2 ≤ size) :
    smallest size nsize diff = diff := by
  unfold smallest smallestLoop
  rw [if_neg (by omega)]

theorem toInt_wsub_of_le {csize : Nat} (hle : nsize ≤ csize) (hc : csize < 2 ^ 31) :
    toInt (wsub csize nsize) = ((csize - nsize : Nat) : Int) := by
  rw [wsub_eq hle (by omega)]
  unfold toInt
  rw [if_pos (by omega)]
  congr 1
  omega

theorem toInt_wsub_of_lt {csize : Nat} (hlt : csize < nsize) (hn : nsize ≤ csize + 2 ^ 31) :
    toInt (wsub csize nsize) < 0 := by
  unfold toInt wsub
  split <;> omega

/-- The body of the loop on a block of the heap and a request up to `INT_MAX`. -/
theorem pickBest_eq {csize : Nat} (hc : csize < 2 ^ 31) (hn : nsize ≤ csize + 2 ^ 31) :
    pickBest nsize min best csize cur =
      if nsize ≤ csize ∧ csize - nsize < min then (csize - nsize, cur) else (min, best) := by
  unfold pickBest
  by_cases hle : nsize ≤ csize
  · rw [toInt_wsub_of_le hle hc]
    have hsmall : smallest csize nsize (csize - nsize) = csize - nsize := smallest_eq (by omega)
    simp only [Int.toNat_natCast, hsmall, Int.natCast_nonneg, ↓reduceIte, hle, true_and]
  · have := toInt_wsub_of_lt (by omega) hn
    rw [if_neg (by omega), if_neg (by omega)]

/-! ## The walk -/

/-- `min` and `best` after the blocks `l`, `sz` giving their sizes. -/
def bestFold (nsize : Nat) (sz : Nat → Nat) (s : Nat × Nat) (l : List Nat) : Nat × Nat :=
  l.foldl (fun s a => pickBest nsize s.1 s.2 (sz a) a) s

theorem bestFold_cons (s : Nat × Nat) (l : List Nat) :
    bestFold nsize sz s (a :: l) = bestFold nsize sz (pickBest nsize s.1 s.2 (sz a) a) l := rfl

theorem bestFold_nil (s : Nat × Nat) : bestFold nsize sz s [] = s := rfl

theorem next_in_ring {next prev : Nat → Nat} {z : Nat}
    (hr : Ring next prev (pre ++ cur :: z :: post)) : next cur = z := by
  have hr' : Ring next prev (cur :: z :: (post ++ pre)) := by
    simpa using ring_rotate.mp hr
  exact (List.isChain_cons_cons.mp (ring_cons_iff.mp hr').2).1.1

theorem next_of_last {next prev : Nat → Nat} (hr : Ring next prev (pre ++ [cur])) :
    some (next cur) = (pre ++ [cur]).head? := by
  cases pre with
  | nil => rw [(ring_singleton.mp hr).1]; rfl
  | cons x pre =>
    have hlast := (ring_cons_iff.mp hr).1.1
    simp only [List.cons_append, List.head?_cons, Option.some.injEq]
    rw [← hlast]
    congr 1
    simp

/-- The loop started at `cur` looks at `cur` and the blocks after it in the list,
and ends when it is back at `flist_first`. -/
theorem bestFitLoop_eq (hp : Placed h) (hf : FreeList h fl) {fuel : Nat}
    (hsz : ∀ a ∈ fl, blockSize h a = some (sz a)) (hfl : fl = pre ++ cur :: post)
    (hfuel : post.length < fuel) :
    bestFitLoop h nsize fuel min best cur =
      some (bestFold nsize sz (min, best) (cur :: post)).2 := by
  induction fuel generalizing pre cur post min best with
  | zero => omega
  | succ fuel ih =>
    have hcur : cur ∈ fl := by simp [hfl]
    obtain ⟨-, -, -, hnext, -⟩ := (hf.node cur hcur).reads hp
    simp only [bestFitLoop, hsz cur hcur, hnext, Option.bind_eq_bind, Option.bind_some,
      bestFold_cons]
    generalize pickBest nsize min best (sz cur) cur = found
    obtain ⟨min', best'⟩ := found
    cases post with
    | nil =>
      have hhead : some (nextOf h.mem cur) = fl.head? := hfl ▸ next_of_last (hfl ▸ hf.ring)
      have hfirst : h.flistFirst = nextOf h.mem cur := by
        rw [hf.first]
        cases fl with
        | nil => cases hcur
        | cons x fl =>
          simp only [List.head?_cons, Option.some.injEq] at hhead
          exact hhead.symm
      rw [if_neg (by simp [hfirst]), bestFold_nil, Option.pure_def]
    | cons z post =>
      have hz : nextOf h.mem cur = z := next_in_ring (hfl ▸ hf.ring)
      have hne : z ≠ h.flistFirst := by
        have hnodup := hf.nodup
        rw [hf.first, hfl]
        rw [hfl] at hnodup
        cases pre with
        | nil =>
          rintro rfl
          exact (List.nodup_cons.mp hnodup).1 (by simp)
        | cons x pre =>
          rintro rfl
          exact (List.nodup_cons.mp hnodup).1 (by simp)
      have hfl' : fl = (pre ++ [cur]) ++ z :: post := by simp [hfl]
      have hfuel' : post.length < fuel := by simpa using hfuel
      rw [hz, if_pos hne, ih hfl' hfuel', bestFold_cons]

/-- **Best fit.** Either no block improves on `min`, or the result is the first
block of the smallest sufficient size. -/
theorem bestFold_spec (hl : ∀ a ∈ l, sz a < 2 ^ 31 ∧ nsize ≤ sz a + 2 ^ 31) :
    (bestFold nsize sz (min, best) l = (min, best) ∧
        ∀ c ∈ l, nsize ≤ sz c → min ≤ sz c - nsize) ∨
      ∃ l1 a l2, l = l1 ++ a :: l2 ∧ bestFold nsize sz (min, best) l = (sz a - nsize, a) ∧
        nsize ≤ sz a ∧ sz a - nsize < min ∧ (∀ c ∈ l, nsize ≤ sz c → sz a ≤ sz c) ∧
        ∀ c ∈ l1, nsize ≤ sz c → sz a < sz c := by
  induction l generalizing min best with
  | nil => exact Or.inl ⟨rfl, by simp⟩
  | cons x l ih =>
    obtain ⟨hx1, hx2⟩ := hl x List.mem_cons_self
    have hl' : ∀ a ∈ l, sz a < 2 ^ 31 ∧ nsize ≤ sz a + 2 ^ 31 :=
      fun a ha => hl a (List.mem_cons_of_mem _ ha)
    rw [bestFold_cons, pickBest_eq hx1 hx2]
    by_cases hbetter : nsize ≤ sz x ∧ sz x - nsize < min
    · rw [if_pos hbetter]
      rcases ih hl' with ⟨hr, hmin⟩ | ⟨l1, a, l2, rfl, hr, h1, h2, h3, h4⟩
      · refine Or.inr ⟨[], x, l, rfl, hr, hbetter.1, hbetter.2, ?_, by simp⟩
        intro c hc hcn
        rcases List.mem_cons.mp hc with rfl | hc
        · exact le_refl _
        · have := hmin c hc hcn
          omega
      · refine Or.inr ⟨x :: l1, a, l2, rfl, hr, h1, by omega, ?_, ?_⟩
        · intro c hc hcn
          rcases List.mem_cons.mp hc with rfl | hc
          · omega
          · exact h3 c hc hcn
        · intro c hc hcn
          rcases List.mem_cons.mp hc with rfl | hc
          · omega
          · exact h4 c hc hcn
    · rw [if_neg hbetter]
      rcases ih hl' with ⟨hr, hmin⟩ | ⟨l1, a, l2, rfl, hr, h1, h2, h3, h4⟩
      · refine Or.inl ⟨hr, fun c hc hcn => ?_⟩
        rcases List.mem_cons.mp hc with rfl | hc
        · omega
        · exact hmin c hc hcn
      · refine Or.inr ⟨x :: l1, a, l2, rfl, hr, h1, h2, ?_, ?_⟩
        · intro c hc hcn
          rcases List.mem_cons.mp hc with rfl | hc
          · omega
          · exact h3 c hc hcn
        · intro c hc hcn
          rcases List.mem_cons.mp hc with rfl | hc
          · omega
          · exact h4 c hc hcn

/-! ## The search over the heap -/

theorem HeapInv.length_le (hi : HeapInv h bs fl) : fl.length ≤ heapSteps h := by
  have hsub : fl ⊆ bs.map Block.addr := by
    intro a ha
    obtain ⟨c, hc, rfl, -⟩ := (hi.mem_free a).mp ha
    exact List.mem_map_of_mem hc
  calc fl.length ≤ (bs.map Block.addr).length := (hi.free.nodup.subperm hsub).length_le
    _ = bs.length := List.length_map _
    _ ≤ heapSteps h := hi.tiles.length_le

/-- The block that `mm_malloc` finds on the free list, `NULL` if none fits. -/
def bestFit (h : Heap) (nsize : Nat) : Option Nat :=
  if h.flistFirst = null then some null
  else bestFitLoop h nsize (heapSteps h) uintMax null h.flistFirst

/-- The free block `b` is one of the smallest with `nsize` bytes, and the first of
them in the list. -/
structure FirstBest (bs : List Block) (fl : List Nat) (nsize : Nat) (b : Block) : Prop where
  fits : nsize ≤ b.size
  smallest : ∀ c ∈ bs, c.alloc = false → nsize ≤ c.size → b.size ≤ c.size
  first : ∃ l1 l2, fl = l1 ++ b.addr :: l2 ∧
    ∀ c ∈ bs, c.addr ∈ l1 → nsize ≤ c.size → b.size < c.size

/-- **The search**: no free block has `nsize` bytes, or `best` is the first of the
smallest that do. -/
theorem bestFit_spec (hi : HeapInv h bs fl) (hn : nsize ≤ 2 ^ 31 + 16) :
    (bestFit h nsize = some null ∧ ∀ c ∈ bs, c.alloc = false → c.size < nsize) ∨
      ∃ b ∈ bs, b.alloc = false ∧ bestFit h nsize = some b.addr ∧ FirstBest bs fl nsize b := by
  cases fl with
  | nil =>
    refine Or.inl ⟨if_pos hi.free.first, fun c hc hfree => ?_⟩
    cases (hi.mem_free _).mpr ⟨c, hc, rfl, hfree⟩
  | cons a tl =>
    have hhead : h.flistFirst = a := hi.free.first
    have hne : h.flistFirst ≠ null := by
      rw [hhead]
      exact (hi.free.node a List.mem_cons_self).ne_null hi.placed
    have hsize : ∀ c ∈ bs, clearBit (readWord h.mem c.addr) = c.size := by
      intro c hc
      rw [(hi.tagged c hc).header, c.clearBit_tag]
    have hread : ∀ c ∈ a :: tl, blockSize h c = some (clearBit (readWord h.mem c)) := by
      intro c hc
      obtain ⟨d, hd, rfl, -⟩ := (hi.mem_free c).mp hc
      rw [hi.blockSize hd, hsize d hd]
    have hsmall : ∀ c ∈ a :: tl, clearBit (readWord h.mem c) < 2 ^ 31 ∧
        nsize ≤ clearBit (readWord h.mem c) + 2 ^ 31 := by
      intro c hc
      obtain ⟨d, hd, rfl, -⟩ := (hi.mem_free c).mp hc
      rw [hsize d hd]
      have := (hi.size_le hd).2
      have := d.size_ge
      omega
    have hfl : a :: tl = [] ++ a :: tl := rfl
    rw [bestFit, if_neg hne, hhead, bestFitLoop_eq hi.placed hi.free hread hfl hi.length_le]
    rcases bestFold_spec hsmall with
      ⟨hr, hmin⟩ | ⟨l1, b, l2, hl, hr, hle, -, hbest, hfirst⟩
    · refine Or.inl ⟨by rw [hr], fun c hc hfree => ?_⟩
      by_contra hlt
      have hca : c.addr ∈ a :: tl := (hi.mem_free _).mpr ⟨c, hc, rfl, hfree⟩
      have := hmin _ hca
      have := (hi.size_le hc).2
      rw [hsize c hc] at *
      unfold uintMax at *
      omega
    · obtain ⟨d, hd, rfl, hfree⟩ := (hi.mem_free b).mp (hl ▸ by simp)
      rw [hsize d hd] at hle hbest
      refine Or.inr ⟨d, hd, hfree, by rw [hr], hle, fun c hc hcf hcn => ?_, l1, l2, hl,
        fun c hc hcl hcn => ?_⟩
      · have hca : c.addr ∈ a :: tl := (hi.mem_free _).mpr ⟨c, hc, rfl, hcf⟩
        have := hbest _ hca
        rw [hsize c hc] at this
        exact this hcn
      · have := hfirst _ hcl
        rw [hsize c hc, hsize d hd] at this
        exact this hcn

end CourseProjects.Malloc

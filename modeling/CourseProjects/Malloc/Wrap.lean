import CourseProjects.Malloc.Extents
import CourseProjects.Malloc.Realloc

/-!
# Requests of any size

A request above `INT_MAX` goes through `align` and the added tags, which can
wrap, and its difference to a block and the argument of `mem_sbrk` are cut to an
`int`. No block of the heap has that many bytes, so `mm_malloc` keeps its promise
exactly when it gives back `NULL`.
-/

namespace CourseProjects.Malloc

open Transition Session

variable {h h' : Heap} {a b v q fb size nsize ptr best : Nat} {alloc : Bool} {S : Set Nat}
  {bs : List Block} {fl l : List Nat} {s : Session} {ar : Arena} {sz : Nat → Nat}

/-- `mm_malloc` gives back `NULL`, or a block inside the heap with a payload of
`size` bytes at least. -/
def Honest (h : Heap) (size : Nat) : Prop :=
  ∃ q h', mmMalloc h size = some (q, h') ∧ (q = null ∨
    ∃ n, blockSize h' (payloadToBlock q) = some n ∧ size + tagsSize ≤ n ∧
      memHeapLo h' ≤ payloadToBlock q ∧ payloadToBlock q + n ≤ h'.memBrk)

/-- `d` is negative for every free block, and `mem_sbrk` refuses. -/
def Refused (h : Heap) (size : Nat) : Prop :=
  (∀ e ∈ freeExtents h, toInt (wsub e.2 (paddedSize size)) < 0) ∧
    (toInt (paddedSize size) < 0 ∨ h.memMaxAddr < h.memBrk + (toInt (paddedSize size)).toNat)

/-! ## What every operation leaves alone -/

theorem store_keeps (hs : store h a v = some h') : Keeps Set.univ h h' := by
  unfold store at hs
  split_ifs at hs
  cases hs
  exact ⟨rfl, rfl, rfl, rfl, rfl, fun x hx => absurd trivial hx⟩

theorem blockSetSize_keeps (hs : blockSetSize h b size = some h') : Keeps Set.univ h h' := by
  simp only [blockSetSize, Option.bind_eq_bind, Option.bind_eq_some_iff] at hs
  obtain ⟨-, -, w, -, h1, hs1, tag, -, hs2⟩ := hs
  exact (store_keeps hs1).trans (store_keeps hs2)

theorem blockSetAllocated_keeps (hs : blockSetAllocated h b alloc = some h') :
    Keeps Set.univ h h' := by
  cases alloc with
  | false =>
    simp only [blockSetAllocated, Bool.false_eq_true, ↓reduceIte, Option.bind_eq_bind,
      Option.bind_eq_some_iff] at hs
    obtain ⟨w, -, h1, hs1, tag, -, w', -, hs2⟩ := hs
    exact (store_keeps hs1).trans (store_keeps hs2)
  | true =>
    simp only [blockSetAllocated, ↓reduceIte, Option.bind_eq_bind, Option.bind_eq_some_iff] at hs
    obtain ⟨w, -, h1, hs1, tag, -, w', -, hs2⟩ := hs
    exact (store_keeps hs1).trans (store_keeps hs2)

theorem blockSetSizeAndAllocated_keeps (hs : blockSetSizeAndAllocated h b size alloc = some h') :
    Keeps Set.univ h h' := by
  simp only [blockSetSizeAndAllocated, Option.bind_eq_bind, Option.bind_eq_some_iff] at hs
  obtain ⟨h1, hs1, hs2⟩ := hs
  exact (blockSetSize_keeps hs1).trans (blockSetAllocated_keeps hs2)

theorem blockSetNextFree_keeps (hs : blockSetNextFree h b v = some h') : Keeps Set.univ h h' := by
  simp only [blockSetNextFree, Option.bind_eq_bind, Option.bind_eq_some_iff] at hs
  obtain ⟨x, -, y, -, -, -, hs⟩ := hs
  exact store_keeps hs

theorem blockSetPrevFree_keeps (hs : blockSetPrevFree h b v = some h') : Keeps Set.univ h h' := by
  simp only [blockSetPrevFree, Option.bind_eq_bind, Option.bind_eq_some_iff] at hs
  obtain ⟨x, -, y, -, -, -, hs⟩ := hs
  exact store_keeps hs

theorem setFirst_keeps (h : Heap) (f : Nat) : Keeps S h { h with flistFirst := f } :=
  ⟨rfl, rfl, rfl, rfl, rfl, fun _ _ => rfl⟩

theorem unlinkFree_keeps (hs : unlinkFree h fb = some h') : Keeps Set.univ h h' := by
  simp only [unlinkFree, Option.bind_eq_bind, Option.bind_eq_some_iff] at hs
  obtain ⟨x, -, y, -, h1, hs1, z, -, w, -, hs2⟩ := hs
  exact (blockSetNextFree_keeps hs1).trans (blockSetPrevFree_keeps hs2)

theorem pullFreeBlock_keeps (hs : pullFreeBlock h fb = some h') : Keeps Set.univ h h' := by
  simp only [pullFreeBlock, Option.bind_eq_bind, Option.bind_eq_some_iff] at hs
  obtain ⟨x, -, -, -, hs⟩ := hs
  split_ifs at hs
  · simp only [Option.bind_eq_some_iff] at hs
    obtain ⟨first, -, hs⟩ := hs
    split_ifs at hs
    · cases hs
      exact setFirst_keeps h null
    · exact (setFirst_keeps h first).trans (unlinkFree_keeps hs)
  · exact unlinkFree_keeps hs

theorem insertFreeBlock_keeps (hs : insertFreeBlock h fb = some h') : Keeps Set.univ h h' := by
  simp only [insertFreeBlock, Option.bind_eq_bind, Option.bind_eq_some_iff] at hs
  obtain ⟨x, -, -, -, hs⟩ := hs
  split_ifs at hs
  · simp only [Option.bind_eq_some_iff] at hs
    obtain ⟨last, -, h1, hs1, h2, hs2, h3, hs3, h4, hs4, hs⟩ := hs
    cases hs
    exact ((((blockSetNextFree_keeps hs1).trans (blockSetPrevFree_keeps hs2)).trans
      (blockSetNextFree_keeps hs3)).trans (blockSetPrevFree_keeps hs4)).trans (setFirst_keeps h4 fb)
  · simp only [Option.bind_eq_some_iff] at hs
    obtain ⟨h1, hs1, h2, hs2, hs⟩ := hs
    cases hs
    exact ((blockSetNextFree_keeps hs1).trans (blockSetPrevFree_keeps hs2)).trans
      (setFirst_keeps h2 fb)

theorem split_keeps (hs : split h ptr nsize = some (q, h')) : q = ptr ∧ Keeps Set.univ h h' := by
  simp only [split, Option.bind_eq_bind, Option.bind_eq_some_iff] at hs
  obtain ⟨w, -, hs⟩ := hs
  split_ifs at hs
  · simp only [Option.bind_eq_some_iff] at hs
    obtain ⟨h1, hs1, n1, -, h2, hs2, n2, -, h3, hs3, hs⟩ := hs
    cases hs
    exact ⟨rfl, ((blockSetSizeAndAllocated_keeps hs1).trans
      (blockSetSizeAndAllocated_keeps hs2)).trans (insertFreeBlock_keeps hs3)⟩
  · cases hs
    exact ⟨rfl, Keeps.refl _ _⟩

/-! ## extend_heap -/

/-- `mem_sbrk` gives back the old break, inside the arena. -/
theorem memSbrk_of_room {incr : Int} (hp : Placed h) (h0 : 0 ≤ incr)
    (hroom : h.memBrk + incr.toNat ≤ h.memMaxAddr) :
    memSbrk h incr = (h.memBrk, h.grow incr.toNat) ∧ h.memBrk ≠ memError := by
  have htop := hp.top
  refine ⟨if_neg (by omega), ?_⟩
  unfold memError
  omega

theorem extendHeap_refused
    (hno : toInt nsize < 0 ∨ h.memMaxAddr < h.memBrk + (toInt nsize).toNat) :
    extendHeap h nsize = some (null, h) := by
  have hbrk : memSbrk h (toInt nsize) = (memError, h) := if_pos hno
  unfold extendHeap
  simp only [hbrk, ↓reduceIte, Option.pure_def]

/-- When `mem_sbrk` agrees, the result is the payload of the old epilogue. -/
theorem extendHeap_grown (hp : Placed h)
    (hroom : ¬ (toInt nsize < 0 ∨ h.memMaxAddr < h.memBrk + (toInt nsize).toNat))
    (hs : extendHeap h nsize = some (q, h')) : q = payloadAt h.epilogue 0 ∧ Placed h' := by
  rw [not_or, Int.not_lt, Nat.not_lt] at hroom
  obtain ⟨hbrk, hne⟩ := memSbrk_of_room hp hroom.1 hroom.2
  simp only [extendHeap, hbrk, hne, ↓reduceIte, Option.bind_eq_bind, Option.bind_eq_some_iff] at hs
  obtain ⟨h1, hs1, next, -, h2, hs2, ⟨ptr, h3⟩, hs3, hs⟩ := hs
  have hk1 := blockSetSizeAndAllocated_keeps hs1
  have hk2 := blockSetSizeAndAllocated_keeps hs2
  obtain ⟨rfl, hk3⟩ := split_keeps hs3
  have hp3 : Placed h3 := hk3.placed (hk2.placed (hk1.placed (hp.grow hroom.2)))
  have hepi : h2.epilogue = h.epilogue := hk2.epilogue.trans hk1.epilogue
  cases hs
  exact ⟨by rw [hepi], hp3.of_brk rfl rfl rfl⟩

/-! ## mm_malloc -/

/-- With a block that seems to fit, the result is the payload of that block. -/
theorem mmMalloc_found (hs : 0 < size) (hbest : bestFit h (paddedSize size) = some best)
    (hne : best ≠ null) (hrun : mmMalloc h size = some (q, h')) :
    q = payloadAt best 0 ∧ Keeps Set.univ h h' := by
  rw [mmMalloc_takeBest hs hbest hne] at hrun
  simp only [takeBest, Option.bind_eq_bind, Option.bind_eq_some_iff] at hrun
  obtain ⟨h1, hs1, w, -, h2, hs2, ⟨ptr, h3⟩, hs3, hrun⟩ := hrun
  obtain ⟨rfl, hk3⟩ := split_keeps hs3
  cases hrun
  exact ⟨rfl, ((pullFreeBlock_keeps hs1).trans (blockSetSizeAndAllocated_keeps hs2)).trans hk3⟩

/-! ## The search for any size -/

theorem toInt_lt (n : Nat) : toInt n < 2 ^ 31 := by
  unfold toInt
  split_ifs <;> omega

theorem smallest_le (nsize csize diff : Nat) : smallest nsize csize diff ≤ diff := by
  have hloop : ∀ n d, smallestLoop nsize n d ≤ d := by
    intro n
    induction n with
    | zero => exact fun d => Nat.le_refl d
    | succ n ih =>
      intro d
      rw [smallestLoop]
      split_ifs
      · exact Nat.le_trans (ih _) (Nat.div_le_self _ _)
      · exact Nat.le_refl d
  exact hloop 64 diff

theorem lt_uintMax {d : Int} {diff : Nat} (hd : d < 2 ^ 31) (hdiff : diff ≤ d.toNat) :
    diff < uintMax := by
  unfold uintMax
  omega

/-- The first candidate is taken, whatever its size. -/
theorem pickBest_first (csize cur : Nat) :
    pickBest nsize uintMax best csize cur =
      if 0 ≤ toInt (wsub csize nsize) then
        (smallest csize nsize (toInt (wsub csize nsize)).toNat, cur)
      else (uintMax, best) := by
  have hmin : smallest csize nsize (toInt (wsub csize nsize)).toNat < uintMax :=
    lt_uintMax (toInt_lt _) (smallest_le csize nsize _)
  unfold pickBest
  simp only [hmin, ↓reduceIte]

theorem pickBest_snd (nsize min best csize cur : Nat) :
    (pickBest nsize min best csize cur).2 = best ∨ (pickBest nsize min best csize cur).2 = cur := by
  by_cases hd : 0 ≤ toInt (wsub csize nsize)
  · by_cases hmin : smallest csize nsize (toInt (wsub csize nsize)).toNat < min
    · exact .inr (by simp only [pickBest, hd, hmin, ↓reduceIte])
    · exact .inl (by simp only [pickBest, hd, hmin, ↓reduceIte])
  · exact .inl (by simp only [pickBest, hd, ↓reduceIte])

/-- Once there is a candidate, there is one at the end. -/
theorem bestFold_ne_null {p : Nat × Nat} (hl : ∀ a ∈ l, a ≠ null) (hp : p.2 ≠ null) :
    (bestFold nsize sz p l).2 ≠ null := by
  induction l generalizing p with
  | nil => exact hp
  | cons a l ih =>
    rw [bestFold_cons]
    refine ih (fun c hc => hl c (List.mem_cons_of_mem _ hc)) ?_
    rcases pickBest_snd nsize p.1 p.2 (sz a) a with hpick | hpick
    · rw [hpick]
      exact hp
    · rw [hpick]
      exact hl a List.mem_cons_self

theorem bestFold_null_iff (hl : ∀ a ∈ l, a ≠ null) :
    (bestFold nsize sz (uintMax, null) l).2 = null ↔ ∀ a ∈ l, toInt (wsub (sz a) nsize) < 0 := by
  induction l with
  | nil => exact ⟨fun _ a ha => absurd ha List.not_mem_nil, fun _ => rfl⟩
  | cons a l ih =>
    have hl' : ∀ a ∈ l, a ≠ null := fun c hc => hl c (List.mem_cons_of_mem _ hc)
    rw [bestFold_cons, List.forall_mem_cons]
    dsimp only
    rw [pickBest_first]
    by_cases hd : 0 ≤ toInt (wsub (sz a) nsize)
    · rw [if_pos hd]
      exact ⟨fun h => absurd h (bestFold_ne_null hl' (hl a List.mem_cons_self)),
        fun h => absurd h.1 (Int.not_lt.mpr hd)⟩
    · rw [if_neg hd, ih hl']
      exact ⟨fun h => ⟨Int.not_le.mp hd, h⟩, fun h => h.2⟩

theorem bestFold_mem (p : Nat × Nat) (l : List Nat) :
    (bestFold nsize sz p l).2 = p.2 ∨ (bestFold nsize sz p l).2 ∈ l := by
  induction l generalizing p with
  | nil => exact .inl rfl
  | cons a l ih =>
    rw [bestFold_cons]
    rcases ih (pickBest nsize p.1 p.2 (sz a) a) with h | h
    · rw [h]
      rcases pickBest_snd nsize p.1 p.2 (sz a) a with hpick | hpick
      · exact .inl hpick
      · exact .inr (List.mem_cons.mpr (.inl hpick))
    · exact .inr (List.mem_cons_of_mem _ h)

/-- What the search reads at the blocks of the free list. -/
theorem HeapInv.free_sizes (hi : HeapInv h bs fl) :
    (∀ a ∈ fl, blockSize h a = some (clearBit (readWord h.mem a))) ∧
      ∀ p : Nat → Prop, (∀ e ∈ freeExtents h, p e.2) ↔ ∀ a ∈ fl, p (clearBit (readWord h.mem a)) := by
  have hsize : ∀ c ∈ bs, clearBit (readWord h.mem c.addr) = c.size := by
    intro c hc
    rw [(hi.tagged c hc).header, c.clearBit_tag]
  refine ⟨fun a ha => ?_, fun p => ⟨fun hp a ha => ?_, fun hp e he => ?_⟩⟩
  · obtain ⟨c, hc, rfl, -⟩ := (hi.mem_free a).mp ha
    rw [hi.blockSize hc, hsize c hc]
  · obtain ⟨c, hc, rfl, hfree⟩ := (hi.mem_free a).mp ha
    rw [hsize c hc]
    exact hp (c.addr, c.size) (hi.mem_freeExtents.mpr ⟨c, hc, hfree, rfl⟩)
  · obtain ⟨c, hc, hfree, rfl⟩ := hi.mem_freeExtents.mp he
    have := hp c.addr ((hi.mem_free _).mpr ⟨c, hc, rfl, hfree⟩)
    rwa [hsize c hc] at this

/-- The search ends, and finds nothing just when `d` is negative for every free block. -/
theorem bestFit_any (hi : HeapInv h bs fl) (nsize : Nat) :
    ∃ best, bestFit h nsize = some best ∧ (best ≠ null → best ∈ fl) ∧
      (best = null ↔ ∀ e ∈ freeExtents h, toInt (wsub e.2 nsize) < 0) := by
  obtain ⟨hread, hextents⟩ := hi.free_sizes
  rw [hextents fun c => toInt (wsub c nsize) < 0]
  have hne : ∀ a ∈ fl, a ≠ null := fun a ha => (hi.free.node a ha).ne_null hi.placed
  cases fl with
  | nil =>
    exact ⟨null, if_pos hi.free.first, fun h => absurd rfl h, fun _ a ha => absurd ha List.not_mem_nil,
      fun _ => rfl⟩
  | cons a tl =>
    have hfirst : h.flistFirst = a := hi.free.first
    have hloop : bestFitLoop h nsize (heapSteps h) uintMax null a =
        some (bestFold nsize (fun c => clearBit (readWord h.mem c)) (uintMax, null) (a :: tl)).2 :=
      bestFitLoop_eq hi.placed hi.free hread (List.nil_append _).symm hi.length_le
    refine ⟨_, ?_, fun hbest => ?_, bestFold_null_iff hne⟩
    · rw [bestFit, if_neg (hfirst ▸ hne a List.mem_cons_self), hfirst]
      exact hloop
    · rcases bestFold_mem (uintMax, null) (a :: tl) with hnull | hmem
      · exact absurd hnull hbest
      · exact hmem

/-! ## The promise -/

/-- No payload is at `NULL`. -/
theorem LayoutInv.payload_ne_null {c : Block} (hi : LayoutInv h bs) (hc : c ∈ bs) :
    payloadAt c.addr 0 ≠ null := by
  rw [hi.payloadAt_eq hc]
  exact Nat.succ_ne_zero _

/-- `mm_malloc` gives back `NULL` just when the search and `mem_sbrk` fail, and has
changed nothing then. -/
theorem mmMalloc_null_iff (hi : HeapInv h bs fl) (hs : 0 < size) :
    mmMalloc h size = some (null, h') ↔ Refused h size ∧ h' = h := by
  obtain ⟨best, hbest, hmem, hnull⟩ := bestFit_any hi (paddedSize size)
  by_cases hb : best = null
  · subst hb
    rw [mmMalloc_extend hs hbest]
    constructor
    · intro hrun
      by_cases hno : toInt (paddedSize size) < 0 ∨
          h.memMaxAddr < h.memBrk + (toInt (paddedSize size)).toNat
      · rw [extendHeap_refused hno] at hrun
        cases hrun
        exact ⟨⟨hnull.mp rfl, hno⟩, rfl⟩
      · have hq := (extendHeap_grown hi.placed hno hrun).1
        exact absurd hq.symm (hi.payload_ne_null hi.epilogue_mem)
    · rintro ⟨⟨-, hno⟩, rfl⟩
      exact extendHeap_refused hno
  · constructor
    · intro hrun
      have hq := (mmMalloc_found hs hbest hb hrun).1
      obtain ⟨c, hc, hcb, -⟩ := (hi.mem_free best).mp (hmem hb)
      rw [← hcb] at hq
      exact absurd hq.symm (hi.payload_ne_null hc)
    · rintro ⟨⟨hneg, -⟩, -⟩
      exact absurd (hnull.mpr hneg) hb

/-- Whatever `mm_malloc` does, the arena and the bound on the break stay. -/
theorem mmMalloc_placed (hi : HeapInv h bs fl) (hs : 0 < size)
    (hrun : mmMalloc h size = some (q, h')) : Placed h' := by
  obtain ⟨best, hbest, -, -⟩ := bestFit_any hi (paddedSize size)
  by_cases hb : best = null
  · subst hb
    rw [mmMalloc_extend hs hbest] at hrun
    by_cases hno : toInt (paddedSize size) < 0 ∨
        h.memMaxAddr < h.memBrk + (toInt (paddedSize size)).toNat
    · rw [extendHeap_refused hno] at hrun
      cases hrun
      exact hi.placed
    · exact (extendHeap_grown hi.placed hno hrun).2
  · exact (mmMalloc_found hs hbest hb hrun).2.placed hi.placed

/-- A block inside the heap is too small for a request above `INT_MAX`. -/
theorem honest_null (hi : HeapInv h bs fl) (hs : intMax < size) (hh : Honest h size) :
    ∃ h', mmMalloc h size = some (null, h') := by
  obtain ⟨q, h', hrun, rfl | ⟨n, -, hn, hlo, hhi⟩⟩ := hh
  · exact ⟨h', hrun⟩
  · have hp := mmMalloc_placed hi (by omega) hrun
    have hmax := hp.max_eq
    have hbrk := hp.brk_le
    unfold memHeapLo at hlo
    unfold maxHeap at hmax
    unfold intMax at hs
    omega

theorem honest_of_le (hi : SessionInv s bs fl) (hs : size ≤ intMax) : Honest s.heap size := by
  obtain ⟨q, h', bs', fl', hrun, hi', -⟩ := hi.malloc_call hs
  refine ⟨q, h', hrun, ?_⟩
  by_cases hq : q = null
  · exact .inl hq
  · have hlive : (⟨q, size⟩ : Live) ∈ hold s.live q size := by
      rw [hold, if_neg hq]
      exact List.mem_cons_self
    obtain ⟨c, hc, hptr, hfits⟩ := hi'.block_of_live _ hlive
    have hblock := hi'.payloadToBlock hc.1 hptr
    have hb := hi'.tiles.bounds hc.1
    dsimp only at hblock
    rw [hblock]
    exact .inr ⟨c.size, hi'.blockSize hc.1, hfits, hb.1, hb.2⟩

/-- **The promise of `mm_malloc` for any size.** -/
theorem mmMalloc_honest_iff (hs : (basicClient ar).Reachable s) (size : Nat) :
    Honest s.heap size ↔ size ≤ intMax ∨ Refused s.heap size := by
  obtain ⟨bs, fl, hi, -⟩ := basicClient_inv hs
  by_cases hle : size ≤ intMax
  · exact ⟨fun _ => .inl hle, fun _ => honest_of_le hi hle⟩
  · have hlt : intMax < size := Nat.lt_of_not_le hle
    have hpos : 0 < size := Nat.zero_lt_of_lt hlt
    constructor
    · intro hh
      obtain ⟨h', hrun⟩ := honest_null hi.toHeapInv hlt hh
      exact .inr ((mmMalloc_null_iff hi.toHeapInv hpos).mp hrun).1
    · rintro (h | href)
      · exact absurd h hle
      · exact ⟨null, s.heap, (mmMalloc_null_iff hi.toHeapInv hpos).mpr ⟨href, rfl⟩, .inl rfl⟩

/-- `mm_malloc(SIZE_MAX)` right after `mm_init`, with the size of the block it hands out. -/
def sizeMaxBlock : Option (Nat × Option Nat) := do
  let s ← script smallArena []
  let (q, h) ← mmMalloc s.heap (2 ^ 64 - 1)
  return (q, blockSize h (payloadToBlock q))

theorem sizeMax_dishonest :
    ∃ s, (basicClient smallArena).Reachable s ∧ ¬ Honest s.heap (2 ^ 64 - 1) := by
  have hrun : sizeMaxBlock = some (4136, some 32) := by decide +kernel
  simp only [sizeMaxBlock, Option.bind_eq_bind, Option.bind_eq_some_iff] at hrun
  obtain ⟨s, hs, ⟨q, h⟩, hmalloc, hblock⟩ := hrun
  refine ⟨s, script_reachable (by simp) hs, ?_⟩
  rintro ⟨q', h', hmalloc', hh⟩
  rw [hmalloc] at hmalloc'
  cases hmalloc'
  obtain ⟨rfl, hsize⟩ := Prod.mk.inj (Option.some.inj hblock)
  rcases hh with hnull | ⟨n, hn, hfits, -⟩
  · exact absurd hnull (by decide)
  · rw [hsize] at hn
    cases hn
    exact absurd hfits (by decide)

theorem smallCalls_honest_iff : ∃ s, script smallArena smallCalls = some s ∧
    (Honest s.heap (2 ^ 32) ↔ 2 ^ 32 ≤ intMax ∨ Refused s.heap (2 ^ 32)) := by
  have hrun : (script smallArena smallCalls).isSome = true := by decide +kernel
  obtain ⟨s, hs⟩ := Option.isSome_iff_exists.mp hrun
  exact ⟨s, hs, mmMalloc_honest_iff (script_reachable (by simp [smallCalls, Call.Basic]) hs) (2 ^ 32)⟩

/-! ## Failing requests -/

theorem mmMalloc_unchanged (hi : HeapInv h bs fl) (hrun : mmMalloc h size = some (null, h')) :
    h' = h := by
  rcases Nat.eq_zero_or_pos size with rfl | hpos
  · rw [mmMalloc_zero (Nat.le_refl 0)] at hrun
    cases hrun
    rfl
  · exact ((mmMalloc_null_iff hi hpos).mp hrun).2

/-- Every exit of `mm_realloc` that has written to the heap gives back a pointer. -/
theorem mmRealloc_unchanged (hi : HeapInv h bs fl) (hpos : 0 < size)
    (hrun : mmRealloc h ptr size = some (null, h')) : h' = h := by
  by_cases hptr : ptr = null
  · subst hptr
    rw [mmRealloc_null hpos] at hrun
    exact mmMalloc_unchanged hi hrun
  · unfold mmRealloc at hrun
    rw [if_neg (Nat.not_le.mpr hpos), if_neg hptr] at hrun
    simp only [Option.bind_eq_bind, Option.bind_eq_some_iff] at hrun
    obtain ⟨csize, -, hrun⟩ := hrun
    split_ifs at hrun
    · exact absurd (Prod.mk.inj (Option.some.inj hrun)).1 hptr
    · exact absurd (Prod.mk.inj (Option.some.inj hrun)).1 hptr
    · simp only [Option.bind_eq_some_iff] at hrun
      obtain ⟨w, -, hrun⟩ := hrun
      split_ifs at hrun
      · -- grown in place
        simp only [Option.bind_eq_some_iff] at hrun
        obtain ⟨next, -, h1, -, n, -, h2, -, r, -, hrun⟩ := hrun
        exact absurd (Prod.mk.inj (Option.some.inj hrun)).1 hptr
      · simp only [Option.bind_eq_some_iff] at hrun
        obtain ⟨⟨nptr, h1⟩, hmalloc, hrun⟩ := hrun
        split_ifs at hrun with hnull
        · have hnptr : nptr = null := hnull
          cases hrun
          exact mmMalloc_unchanged hi (hnptr ▸ hmalloc)
        · simp only [Option.bind_eq_some_iff] at hrun
          obtain ⟨h2, -, h3, -, hrun⟩ := hrun
          exact absurd (Prod.mk.inj (Option.some.inj hrun)).1 hnull

/-- **A request that gives back `NULL` has changed nothing**, whatever its size. -/
theorem null_changes_nothing (hs : (basicClient ar).Reachable s) (size : Nat) :
    (∀ h', mmMalloc s.heap size = some (null, h') → h' = s.heap) ∧
      ∀ ptr h', (ptr = null ∨ s.Holds ptr) → 0 < size →
        mmRealloc s.heap ptr size = some (null, h') → h' = s.heap := by
  obtain ⟨bs, fl, hi, -⟩ := basicClient_inv hs
  exact ⟨fun h' hrun => mmMalloc_unchanged hi.toHeapInv hrun,
    fun ptr h' _ hpos hrun => mmRealloc_unchanged hi.toHeapInv hpos hrun⟩

/-- The blocks of `smallCalls` leave no room for 2 ^ 30 bytes. -/
theorem smallCalls_null : ∃ s h' h'', script smallArena smallCalls = some s ∧
    mmMalloc s.heap (2 ^ 30) = some (null, h') ∧ h' = s.heap ∧
      mmRealloc s.heap 4208 (2 ^ 30) = some (null, h'') ∧ h'' = s.heap := by
  have hrun : ((script smallArena smallCalls).any fun s => s.Holds 4208 ∧
      (mmMalloc s.heap (2 ^ 30)).any (fun r => r.1 = null) ∧
        (mmRealloc s.heap 4208 (2 ^ 30)).any fun r => r.1 = null) = true := by decide +kernel
  obtain ⟨s, hs, hst⟩ := (Option.any_eq_true _ _).mp hrun
  obtain ⟨hheld, hmalloc, hrealloc⟩ := of_decide_eq_true hst
  obtain ⟨⟨q, h'⟩, hmalloc, hq⟩ := (Option.any_eq_true _ _).mp hmalloc
  obtain ⟨⟨q', h''⟩, hrealloc, hq'⟩ := (Option.any_eq_true _ _).mp hrealloc
  obtain rfl : q = null := of_decide_eq_true hq
  obtain rfl : q' = null := of_decide_eq_true hq'
  have hnothing := null_changes_nothing (script_reachable (by simp [smallCalls, Call.Basic]) hs)
    (2 ^ 30)
  exact ⟨s, h', h'', hs, hmalloc, hnothing.1 h' hmalloc, hrealloc,
    hnothing.2 4208 h'' (Or.inr hheld) (by decide) hrealloc⟩

end CourseProjects.Malloc

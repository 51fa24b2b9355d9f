import CourseProjects.Malloc.WellFormed

/-!
# Where a request goes

`mm_malloc` extends the heap exactly when no free block is large enough; otherwise
it takes the first of the smallest sufficient blocks and hands out its low end.
-/

namespace CourseProjects.Malloc

open Transition Session

variable {s : Session} {h h' : Heap} {bs L R M : List Block} {b : Block} {fl as : List Nat}
  {size nsize best c q : Nat} {ar : Arena}

/-- The block `b` of `c` bytes is one of the smallest on the free list `fl` with
`nsize` bytes, and the first of them. -/
structure IsBestFit (h : Heap) (fl : List Nat) (nsize b c : Nat) : Prop where
  size : blockSize h b = some c
  fits : nsize ≤ c
  smallest : ∀ b' ∈ fl, ∀ c', blockSize h b' = some c' → nsize ≤ c' → c ≤ c'
  first : ∃ l1 l2, fl = l1 ++ b :: l2 ∧
    ∀ b' ∈ l1, ∀ c', blockSize h b' = some c' → nsize ≤ c' → c < c'

/-- The break has moved by `nsize` bytes and the old epilogue is a block of that
size. -/
structure ExtendedBy (h : Heap) (as fl : List Nat) (nsize q : Nat) (h' : Heap) : Prop where
  payload : q = payloadAt h.epilogue 0
  brk : h'.memBrk = h.memBrk + nsize
  epilogue : h'.epilogue = h.epilogue + nsize
  block : BlockOk h' h.epilogue nsize true
  wellFormed : WellFormed h' (as ++ [h.epilogue + nsize]) fl

/-- The low end of the free block `b` of `c` bytes is allocated. -/
structure Taken (h : Heap) (as fl : List Nat) (nsize b c q : Nat) (h' : Heap) : Prop where
  payload : q = payloadAt b 0
  brk : h'.memBrk = h.memBrk
  whole : c < 3 * nsize → BlockOk h' b c true ∧ WellFormed h' as (fl.erase b)
  rest : 3 * nsize ≤ c → BlockOk h' b nsize true ∧ BlockOk h' (b + nsize) (c - nsize) false ∧
    ∃ pre post, as = pre ++ b :: post ∧
      WellFormed h' (pre ++ b :: (b + nsize) :: post) ((b + nsize) :: fl.erase b)

/-! ## The choice -/

theorem FirstBest.isBestFit (hf : FirstBest bs fl nsize b) (hi : HeapInv h bs fl) (hb : b ∈ bs) :
    IsBestFit h fl nsize b.addr b.size := by
  have hsize : ∀ a ∈ fl, ∀ c, blockSize h a = some c →
      ∃ d ∈ bs, d.addr = a ∧ d.alloc = false ∧ d.size = c := by
    intro a ha c hc
    obtain ⟨d, hd, rfl, hfree⟩ := (hi.mem_free a).mp ha
    rw [hi.blockSize hd] at hc
    exact ⟨d, hd, rfl, hfree, Option.some.inj hc⟩
  obtain ⟨l1, l2, hl, hfirst⟩ := hf.first
  refine ⟨hi.blockSize hb, hf.fits, fun a ha c hc hn => ?_, l1, l2, hl, fun a ha c hc hn => ?_⟩
  · obtain ⟨d, hd, -, hfree, rfl⟩ := hsize a ha c hc
    exact hf.smallest d hd hfree hn
  · obtain ⟨d, hd, rfl, -, rfl⟩ := hsize a (by simp [hl, ha]) c hc
    exact hfirst d hd ha hn

theorem HeapInv.all_small_iff (hi : HeapInv h bs fl) :
    (∀ a ∈ fl, ∀ c, blockSize h a = some c → c < nsize) ↔
      ∀ c ∈ bs, c.alloc = false → c.size < nsize := by
  constructor
  · intro hall c hc hfree
    exact hall c.addr ((hi.mem_free _).mpr ⟨c, hc, rfl, hfree⟩) c.size (hi.blockSize hc)
  · intro hall a ha c hc
    obtain ⟨d, hd, rfl, hfree⟩ := (hi.mem_free a).mp ha
    rw [hi.blockSize hd] at hc
    exact Option.some.inj hc ▸ hall d hd hfree

/-! ## The two ways -/

theorem mmMalloc_extendedBy (hi : HeapInv h bs fl) (hpos : 0 < size) (hs : size ≤ intMax)
    (hbest : bestFit h (paddedSize size) = some null)
    (hroom : paddedSize size < 2 ^ 31 ∧ h.memBrk + paddedSize size ≤ h.memMaxAddr) :
    ∃ q h', mmMalloc h size = some (q, h') ∧
      ExtendedBy h (bs.map Block.addr) fl (paddedSize size) q h' := by
  obtain ⟨L, h', r, n, rfl, hrun, hext, hi', hgrew⟩ := mmMalloc_extends hi hpos hs hbest hroom
  have hra : r.addr = h.epilogue := hext.addr
  have hna : n.addr = h.epilogue + paddedSize size := hext.next
  have hlast : h'.epilogue = n.addr :=
    (LayoutInv.last_fields (L := L ++ [r]) (by simpa using hi'.toLayoutInv)).1
  have hblock := hi'.blockOk (b := r) (by simp)
  rw [hra, hext.size, hext.alloc] at hblock
  have hwf := hi'.wellFormed
  refine ⟨_, h', hrun, (hi.payloadAt_eq hi.epilogue_mem).symm, hgrew.brk, hlast.trans hna, hblock, ?_⟩
  simpa [hra, hna, epilogueBlock] using hwf

theorem mmMalloc_taken (hi : HeapInv h bs fl) (hpos : 0 < size) (hs : size ≤ intMax)
    (hb : b ∈ bs) (hfree : b.alloc = false) (hle : paddedSize size ≤ b.size)
    (hbest : bestFit h (paddedSize size) = some b.addr) :
    ∃ q h', mmMalloc h size = some (q, h') ∧
      Taken h (bs.map Block.addr) fl (paddedSize size) b.addr b.size q h' := by
  have hpay := hi.payloadAt_eq hb
  obtain ⟨L, R, rfl⟩ := List.append_of_mem hb
  obtain ⟨h', M, hrun, hM, hi', hk⟩ := mmMalloc_carves hi hpos hs hfree hle hbest
  refine ⟨_, h', hrun, hpay.symm, hk.brk, fun hsmall => ?_, fun hlarge => ?_⟩
  · rcases hM with ⟨-, rfl⟩ | ⟨hcut, -⟩
    · have hblock := hi'.blockOk (b := b.setAlloc true) (by simp)
      have hwf := hi'.wellFormed
      rw [splitFree, if_neg (by omega)] at hwf
      exact ⟨hblock, by simpa [Block.setAlloc] using hwf⟩
    · have hcut' : 2 * paddedSize size ≤ b.size - paddedSize size := hcut
      omega
  · rcases hM with ⟨hwhole, -⟩ | ⟨-, r, d, rfl, hra, hrs, hrb, hda, hds, hdb⟩
    · have hwhole' : b.size - paddedSize size < 2 * paddedSize size := hwhole
      omega
    · have hra' : r.addr = b.addr := hra
      have hda' : d.addr = b.addr + paddedSize size := hda
      have hds' : d.size = b.size - paddedSize size := hds
      have hblock := hi'.blockOk (b := r) (by simp)
      have hrest := hi'.blockOk (b := d) (by simp)
      have hwf := hi'.wellFormed
      rw [hra', hrs, hrb] at hblock
      rw [hda', hds', hdb] at hrest
      rw [splitFree, if_pos (by omega)] at hwf
      refine ⟨hblock, hrest, L.map Block.addr, R.map Block.addr, by simp, ?_⟩
      simpa [hra', hda'] using hwf

/-! ## Best fit -/

/-- What a request of `size` bytes does, `nsize` with rounding and tags; `best` is
the outcome of the search. -/
structure Places (h : Heap) (as fl : List Nat) (size nsize best : Nat) : Prop where
  none_fits : best = null ↔ ∀ b ∈ fl, ∀ c, blockSize h b = some c → c < nsize
  extends_heap : best = null → mmMalloc h size = extendHeap h nsize
  refused : best = null → (memSbrk h (toInt nsize)).1 = memError →
    mmMalloc h size = some (null, h)
  extended : best = null → (memSbrk h (toInt nsize)).1 ≠ memError →
    ∃ q h', mmMalloc h size = some (q, h') ∧ ExtendedBy h as fl nsize q h'
  takes : best ≠ null → mmMalloc h size = takeBest h best nsize
  taken : best ≠ null → ∃ c q h', IsBestFit h fl nsize best c ∧
    mmMalloc h size = some (q, h') ∧ Taken h as fl nsize best c q h'

theorem HeapInv.places (hi : HeapInv h bs fl) (hpos : 0 < size) (hs : size ≤ intMax) :
    ∃ best, bestFit h (paddedSize size) = some best ∧
      Places h (bs.map Block.addr) fl size (paddedSize size) best := by
  obtain ⟨-, -, -, hmax⟩ := paddedSize_spec hs
  rcases bestFit_spec hi hmax with ⟨hbest, hnone⟩ | ⟨b, hb, hfree, hbest, hfirst⟩
  · have hextend := mmMalloc_extend hpos hbest
    have hbrk : h.memBrk ≠ memError := by
      have := hi.placed.brk_le
      have := hi.placed.top
      unfold memError
      omega
    have hsbrk := memSbrk_eq (h := h) (show paddedSize size < 2 ^ 32 by omega)
    refine ⟨null, hbest, iff_of_true rfl (hi.all_small_iff.mpr hnone), fun _ => hextend,
      fun _ herr => ?_, fun _ herr => ?_, fun h => absurd rfl h, fun h => absurd rfl h⟩
    · have hroom : ¬ (paddedSize size < 2 ^ 31 ∧ h.memBrk + paddedSize size ≤ h.memMaxAddr) := by
        intro hroom
        rw [hsbrk, if_pos hroom] at herr
        exact hbrk herr
      exact hextend.trans (extendHeap_fail (by omega) hroom)
    · have hroom : paddedSize size < 2 ^ 31 ∧ h.memBrk + paddedSize size ≤ h.memMaxAddr := by
        by_contra hno
        rw [hsbrk, if_neg hno] at herr
        exact herr rfl
      exact mmMalloc_extendedBy hi hpos hs hbest hroom
  · have hne := hi.addr_ne_null hb
    have hfit : ¬ ∀ a ∈ fl, ∀ c, blockSize h a = some c → c < paddedSize size := by
      intro hall
      exact Nat.not_lt.mpr hfirst.fits (hi.all_small_iff.mp hall b hb hfree)
    refine ⟨b.addr, hbest, iff_of_false hne hfit, fun h => absurd h hne, fun h => absurd h hne,
      fun h => absurd h hne, fun _ => mmMalloc_takeBest hpos hbest hne, fun _ => ?_⟩
    obtain ⟨q, h', hrun, htaken⟩ := mmMalloc_taken hi hpos hs hb hfree hfirst.fits hbest
    exact ⟨b.size, q, h', hfirst.isBestFit hi hb, hrun, htaken⟩

/-- **Best fit.** In every run of `mm_malloc` and `mm_free` the search ends. The heap
is extended just when no free block is large enough, and otherwise the first of the
smallest sufficient blocks is taken from its low end. -/
theorem basicClient_places (hs : (basicClient ar).Reachable s) (hpos : 0 < size)
    (hle : size ≤ intMax) : ∃ as fl best, WellFormed s.heap as fl ∧
      bestFit s.heap (paddedSize size) = some best ∧
        Places s.heap as fl size (paddedSize size) best := by
  obtain ⟨bs, fl, hi, -⟩ := basicClient_inv hs
  obtain ⟨best, hbest, hplaces⟩ := hi.toHeapInv.places hpos hle
  exact ⟨_, fl, best, hi.toHeapInv.wellFormed, hbest, hplaces⟩

theorem smallCalls_places : ∃ s, script smallArena smallCalls = some s ∧
    ∃ as fl best, WellFormed s.heap as fl ∧ bestFit s.heap (paddedSize 24) = some best ∧
      Places s.heap as fl 24 (paddedSize 24) best := by
  have hrun : (script smallArena smallCalls).isSome = true := by decide +kernel
  obtain ⟨s, hs⟩ := Option.isSome_iff_exists.mp hrun
  exact ⟨s, hs, basicClient_places (script_reachable (by simp [smallCalls, Call.Basic]) hs)
    (by decide) (by decide)⟩

end CourseProjects.Malloc

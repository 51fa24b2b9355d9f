import CourseProjects.Malloc.BestFit

/-!
# `mm_init`, `split`, `extend_heap` and `mm_malloc`

`mmMalloc_spec` lists what a request of at most `INT_MAX` bytes can do: fail and
change nothing, turn the old epilogue into a block (`Extended`), or take a free
block and perhaps split it (`Carved`).
-/

namespace CourseProjects.Malloc

variable {h h' : Heap} {a e nsize : Nat} {b c p n : Block} {bs L M R : List Block} {fl : List Nat}

/-! ## split -/

/-- What `split` leaves of the allocated block `b`: the block itself, or its first
`nsize` bytes and a free rest of at least twice that. -/
def SplitOf (b : Block) (nsize : Nat) (M : List Block) : Prop :=
  (b.size - nsize < 2 * nsize ∧ M = [b]) ∨
    (2 * nsize ≤ b.size - nsize ∧ ∃ r s : Block, M = [r, s] ∧
      r.addr = b.addr ∧ r.size = nsize ∧ r.alloc = true ∧
      s.addr = b.addr + nsize ∧ s.size = b.size - nsize ∧ s.alloc = false)

theorem split_small {size : Nat} (hs : blockSize h a = some size) (hn : nsize ≤ size)
    (hlt : size < 2 ^ 62) (hsmall : size - nsize < 2 * nsize) : split h a nsize = some (a, h) := by
  have hdiff : wsub size nsize = size - nsize := wsub_eq hn (by omega)
  have hmod : 2 * nsize % 2 ^ 64 = 2 * nsize := Nat.mod_eq_of_lt (by omega)
  have hcond : ¬ (size - nsize ≥ 2 * nsize ∧ size - nsize ≥ minBlockSize) := by omega
  simp only [split, hs, hdiff, hmod, Option.bind_eq_bind, Option.bind_some]
  rw [if_neg hcond, Option.pure_def]

/-- The two pairs of tags that cut the block `b` in two. -/
theorem split_tags {r s : Block} (hi : LayoutInv h (L ++ b :: R)) (hL0 : L ≠ []) (hR0 : R ≠ [])
    (hr : r.addr = b.addr) (hs : s.addr = b.addr + r.size) (hsize : r.size + s.size = b.size) :
    ∃ h1 h2, blockSetSizeAndAllocated h r.addr r.size r.alloc = some h1 ∧
      blockNext h1 r.addr = some s.addr ∧
      blockSetSizeAndAllocated h1 s.addr s.size s.alloc = some h2 ∧
      LayoutInv h2 (L ++ [r, s] ++ R) ∧ Keeps (Set.Ico b.addr b.stop) h h2 ∧
      h2.flistFirst = h.flistFirst := by
  have hb : b ∈ L ++ b :: R := by simp
  obtain ⟨⟨hin, hend⟩, -⟩ := hi.inArena hb
  obtain ⟨hL, hR⟩ := tiles_mid.mp hi.tiles
  have hrstop : r.stop ≤ b.stop := by
    unfold Block.stop
    omega
  have hsstop : s.stop = b.stop := by
    unfold Block.stop
    omega
  have hrend : r.addr + r.size ≤ h.memMaxAddr := by omega
  obtain ⟨h1, hrun1, htag1, hk1, hfirst1⟩ := setTags_spec (b := r) hi.placed (hr ▸ hin) hrend
  have hp1 := hk1.placed hi.placed
  have hnext : blockNext h1 r.addr = some s.addr := by
    rw [hs, ← hr]
    exact htag1.blockNext hp1 (hk1.start ▸ hr ▸ hin) (hk1.max ▸ hrend)
  obtain ⟨h2, hrun2, htag2, hk2, hfirst2⟩ := setTags_spec (b := s) hp1
    (by rw [hk1.start]; omega) (by rw [hk1.max, hsstop]; exact hend)
  have htag1' : Tagged h2.mem r := by
    refine htag1.frame hk2 fun x hx => Or.inr (Or.inr ?_)
    have := (mem_tagBytes hx).1
    unfold Block.stop
    omega
  have hk : Keeps (Set.Ico b.addr b.stop) h h2 := by
    refine (hk1.mono fun x hx => ?_).trans (hk2.mono fun x hx => ?_)
    · have := mem_tagBytes hx
      exact ⟨hr ▸ this.1, lt_of_lt_of_le this.2 hrstop⟩
    · have := mem_tagBytes hx
      exact ⟨le_trans (by omega) this.1, hsstop ▸ this.2⟩
  have hM : Tiles b.addr [r, s] b.stop := ⟨hr, by rw [Block.stop, hr, hs], hsstop⟩
  refine ⟨h1, h2, hrun1, hnext, hrun2, ?_, hk, hfirst2.trans hfirst1⟩
  refine LayoutInv.retile (M := [b]) (by simpa using hi) hL0 hR0 hL hR hM hk fun c hc => ?_
  rcases List.mem_cons.mp hc with rfl | hc
  · exact htag1'
  · rw [List.mem_singleton.mp hc]
    exact htag2

theorem split_large (hi : HeapInv h (L ++ b :: R) fl) (hL0 : L ≠ []) (hR0 : R ≠ [])
    (halloc : b.alloc = true) (h8 : nsize % 8 = 0) (h32 : 32 ≤ nsize)
    (hlarge : 2 * nsize ≤ b.size - nsize) :
    ∃ h' M, split h b.addr nsize = some (b.addr, h') ∧ SplitOf b nsize M ∧
      HeapInv h' (L ++ M ++ R) ((b.addr + nsize) :: fl) ∧
      Keeps (unallocated (L ++ R)) h h' := by
  have hb : b ∈ L ++ b :: R := by simp
  have hb8 := b.size_mod
  have hmax := (hi.size_le hb).2
  let r : Block := ⟨b.addr, nsize, true, h8, h32⟩
  let s : Block := ⟨b.addr + nsize, b.size - nsize, false, by omega, by omega⟩
  obtain ⟨h1, h2, hrun1, hnext1, hrun2, hl2, hk2, hfirst2⟩ := split_tags (r := r) (s := s)
    hi.toLayoutInv hL0 hR0 rfl rfl (show nsize + (b.size - nsize) = b.size by omega)
  obtain ⟨hL, hR⟩ := tiles_mid.mp hi.tiles
  have hmem : ∀ a, a ∈ fl ↔ FreeAt (L ++ R) a := by
    intro a
    rw [hi.mem_free, freeAt_allocated halloc]
  have hf2 : FreeList h2 fl := hi.free.retile hl2 (hk2.start ▸ hL) (hk2.brk ▸ hR) hk2 hfirst2
    fun a ha => (hmem a).mp ha
  have hcut : L ++ [r, s] ++ R = (L ++ [r]) ++ s :: R := by simp
  have hmem2 : ∀ a, a ∈ fl ↔ FreeAt (L ++ [r] ++ R) a := by
    intro a
    rw [hmem, List.append_assoc, List.singleton_append, freeAt_allocated rfl]
  have hnext2 : blockNext h2 b.addr = some s.addr := hl2.blockNext (b := r) (by simp)
  obtain ⟨h3, hrun3, hi3, hk3⟩ := link_spec (hcut ▸ hl2) hf2 hmem2 rfl
  refine ⟨h3, [r, s], ?_, Or.inr ⟨hlarge, r, s, rfl, rfl, rfl, rfl, rfl, rfl, rfl⟩,
    hcut ▸ hi3, (hk2.mono fun x hx => hi.mem_unallocated_others hx).trans (hk3.mono ?_)⟩
  · have hdiff : wsub b.size nsize = b.size - nsize := wsub_eq (by omega) (by omega)
    have hmod : 2 * nsize % 2 ^ 64 = 2 * nsize := Nat.mod_eq_of_lt (by omega)
    have hcond : b.size - nsize ≥ 2 * nsize ∧ b.size - nsize ≥ minBlockSize :=
      ⟨hlarge, show 32 ≤ b.size - nsize by omega⟩
    have hset1 : blockSetSizeAndAllocated h b.addr nsize true = some h1 := hrun1
    have hnext1' : blockNext h1 b.addr = some s.addr := hnext1
    have hset2 : blockSetSizeAndAllocated h1 s.addr (b.size - nsize) false = some h2 := hrun2
    simp only [split, hi.blockSize hb, hdiff, hmod, Option.bind_eq_bind, Option.bind_some]
    rw [if_pos hcond]
    simp only [hset1, hnext1', hset2, hnext2, hrun3, Option.bind_some, Option.pure_def]
  · intro x hx c hc
    refine hx c ?_
    rcases List.mem_append.mp hc with hc | hc
    · simp [hc]
    · simp [hc]

/-- The free list after `split`: the rest of `b` is its new head. -/
def splitFree (b : Block) (nsize : Nat) (fl : List Nat) : List Nat :=
  if 2 * nsize ≤ b.size - nsize then (b.addr + nsize) :: fl else fl

/-- **`split`** of an allocated block. -/
theorem split_spec (hi : HeapInv h (L ++ b :: R) fl) (hL0 : L ≠ []) (hR0 : R ≠ [])
    (halloc : b.alloc = true) (h8 : nsize % 8 = 0) (h32 : 32 ≤ nsize) (hn : nsize ≤ b.size) :
    ∃ h' M, split h b.addr nsize = some (b.addr, h') ∧ SplitOf b nsize M ∧
      HeapInv h' (L ++ M ++ R) (splitFree b nsize fl) ∧ Keeps (unallocated (L ++ R)) h h' := by
  by_cases hlarge : 2 * nsize ≤ b.size - nsize
  · obtain ⟨h', M, hrun, hM, hi', hk⟩ := split_large hi hL0 hR0 halloc h8 h32 hlarge
    exact ⟨h', M, hrun, hM, by rwa [splitFree, if_pos hlarge], hk⟩
  · have hb : b ∈ L ++ b :: R := by simp
    have hsize := (hi.size_le hb).2
    have hrun := split_small (hi.blockSize hb) hn (by omega) (by omega)
    exact ⟨h, [b], hrun, Or.inl ⟨by omega, rfl⟩, by simpa [splitFree, hlarge] using hi,
      Keeps.refl _ _⟩

/-! ## Taking a free block -/

theorem freeAt_alloc (hfree : b.alloc = false) (hne : a ≠ b.addr) :
    FreeAt (L ++ b.setAlloc true :: R) a ↔ FreeAt (L ++ b :: R) a := by
  simp only [freeAt_append, freeAt_cons, Block.setAlloc, hfree]
  tauto

/-- The free block `b` is taken off the list, marked allocated and split. -/
theorem carve_spec (hi : HeapInv h (L ++ b :: R) fl) (hfree : b.alloc = false)
    (h8 : nsize % 8 = 0) (h32 : 32 ≤ nsize) (hn : nsize ≤ b.size) :
    ∃ h1 h2 h' M, pullFreeBlock h b.addr = some h1 ∧ blockSize h1 b.addr = some b.size ∧
      blockSetSizeAndAllocated h1 b.addr b.size true = some h2 ∧
      split h2 b.addr nsize = some (b.addr, h') ∧ SplitOf (b.setAlloc true) nsize M ∧
      HeapInv h' (L ++ M ++ R) (splitFree b nsize (fl.erase b.addr)) ∧
      Keeps (unallocated (L ++ R)) h h' := by
  have hb : b ∈ L ++ b :: R := by simp
  have hL0 := hi.left_ne_nil hfree
  have hR0 := hi.right_ne_nil hfree
  have hmem : b.addr ∈ fl := (hi.mem_free _).mpr ⟨b, hb, rfl, hfree⟩
  obtain ⟨h1, hrun1, hl1, hf1, hk1⟩ := pull_spec hi.toLayoutInv hi.free
    (fun c hc => (hi.mem_free c).mp hc) hmem
  rw [unallocated_of_free hfree] at hk1
  have hbs : L ++ b :: R = L ++ [b] ++ R := by simp
  have hmid := tiles_mid.mp hl1.tiles
  obtain ⟨h2, hrun2, hl2, hk2, hfirst⟩ := (hbs ▸ hl1).setTags (b := b.setAlloc true)
    hL0 hR0 hmid.1 hmid.2
  have herase : ∀ a, a ∈ fl.erase b.addr ↔ FreeAt (L ++ b.setAlloc true :: R) a := by
    intro a
    rw [hi.free.nodup.mem_erase_iff, hi.mem_free]
    constructor
    · rintro ⟨hne, ha⟩
      exact (freeAt_alloc hfree hne).mpr ha
    · intro ha
      have hne : a ≠ b.addr := by
        refine (hl2.tiles.freeAt_ne ?_ : a ≠ (b.setAlloc true).addr)
        simpa [freeAt_append, freeAt_cons, Block.setAlloc] using ha
      exact ⟨hne, (freeAt_alloc hfree hne).mp ha⟩
  have hb2 : b.setAlloc true ∈ L ++ b.setAlloc true :: R := by simp
  have hi2 : HeapInv h2 (L ++ b.setAlloc true :: R) (fl.erase b.addr) :=
    ⟨hl2, hf1.retag hl2 hb2 hk2 hfirst fun a ha => (herase a).mp ha, herase⟩
  obtain ⟨h', M, hrun3, hM, hi3, hk3⟩ := split_spec hi2 hL0 hR0 rfl h8 h32 hn
  refine ⟨h1, h2, h', M, hrun1, hl1.blockSize hb, hrun2, hrun3, hM, hi3,
    (hk1.trans (hk2.mono fun x hx => ?_)).trans hk3⟩
  exact hi2.mem_unallocated_others (mem_tagBytes hx)

/-! ## extend_heap -/

/-- The heap after a successful `mem_sbrk`, and with another epilogue. -/
def Heap.grow (h : Heap) (n : Nat) : Heap := { h with memBrk := h.memBrk + n }
def Heap.setEpilogue (h : Heap) (epilogue : Nat) : Heap := { h with epilogue }

theorem toInt_of_lt (hn : nsize < 2 ^ 31) : toInt nsize = (nsize : Int) := by
  unfold toInt
  rw [if_pos (by omega)]
  congr 1
  omega

theorem toInt_of_ge (hn : 2 ^ 31 ≤ nsize) (hn' : nsize < 2 ^ 32) : toInt nsize < 0 := by
  unfold toInt
  rw [if_neg (by omega)]
  omega

theorem memSbrk_eq (hn : nsize < 2 ^ 32) :
    memSbrk h (toInt nsize) =
      if nsize < 2 ^ 31 ∧ h.memBrk + nsize ≤ h.memMaxAddr then (h.memBrk, h.grow nsize)
      else (memError, h) := by
  unfold memSbrk
  by_cases hlt : nsize < 2 ^ 31
  · rw [toInt_of_lt hlt, Int.toNat_natCast]
    by_cases hbrk : h.memBrk + nsize ≤ h.memMaxAddr
    · rw [if_neg (by omega), if_pos ⟨hlt, hbrk⟩]
      rfl
    · rw [if_pos (by omega), if_neg (by omega)]
  · have := toInt_of_ge (by omega) hn
    rw [if_pos (by omega), if_neg (by omega)]

/-- `mem_sbrk` refuses and nothing changes. -/
theorem extendHeap_fail (hn : nsize < 2 ^ 32)
    (hno : ¬ (nsize < 2 ^ 31 ∧ h.memBrk + nsize ≤ h.memMaxAddr)) :
    extendHeap h nsize = some (null, h) := by
  unfold extendHeap
  simp only [memSbrk_eq hn, hno, ↓reduceIte, Option.pure_def]

theorem Placed.grow (hp : Placed h) (hbrk : h.memBrk + nsize ≤ h.memMaxAddr) :
    Placed (h.grow nsize) :=
  ⟨hp.start_pos, le_trans hp.start_le (Nat.le_add_right _ _), hbrk, hp.max_eq, hp.top⟩

theorem FreeList.grow (hf : FreeList h fl) : FreeList (h.grow nsize) fl :=
  ⟨hf.nodup, fun a ha => ⟨(hf.node a ha).inArena, (hf.node a ha).even⟩, hf.apart, hf.ring, hf.first⟩

theorem FreeList.setEpilogue (hf : FreeList h fl) : FreeList (h.setEpilogue a) fl :=
  ⟨hf.nodup, fun a ha => ⟨(hf.node a ha).inArena, (hf.node a ha).even⟩, hf.apart, hf.ring, hf.first⟩

/-- The blocks after `extend_heap`: the old epilogue `e` has become the block `r`,
and a new epilogue `n` follows. -/
structure ExtendOf (e r n : Block) (nsize : Nat) : Prop where
  addr : r.addr = e.addr
  size : r.size = nsize
  alloc : r.alloc = true
  next : n.addr = e.addr + nsize
  next_size : n.size = 32
  next_alloc : n.alloc = true

/-- What `h'` shares with `h` when the break has moved and the bytes from `a` on
have changed. -/
structure GrewFrom (a nsize : Nat) (h h' : Heap) : Prop where
  start : h'.memStartBrk = h.memStartBrk
  brk : h'.memBrk = h.memBrk + nsize
  prologue : h'.prologue = h.prologue
  mem : ∀ x < a, h'.mem x = h.mem x

/-- The epilogue of the layout is where `h.epilogue` points. -/
theorem LayoutInv.last_eq (hi : LayoutInv h (L ++ [b])) : b = epilogueBlock h := by
  simpa using hi.last

theorem LayoutInv.last_fields (hi : LayoutInv h (L ++ [b])) :
    h.epilogue = b.addr ∧ b.size = 32 ∧ b.alloc = true := by
  rw [hi.last_eq]
  exact ⟨rfl, rfl, rfl⟩

/-- The old epilogue is the last 32 bytes of the heap. -/
theorem LayoutInv.last_bounds (hi : LayoutInv h (L ++ [b])) :
    Tiles h.memStartBrk L b.addr ∧ b.addr + 32 = h.memBrk := by
  obtain ⟨hL, hend⟩ := tiles_mid.mp hi.tiles
  obtain ⟨-, hsize, -⟩ := hi.last_fields
  exact ⟨hL, hsize ▸ hend⟩

theorem ExtendOf.stops {r n : Block} (hext : ExtendOf b r n nsize) :
    r.stop = b.addr + nsize ∧ n.stop = b.addr + nsize + 32 := by
  unfold Block.stop
  rw [hext.addr, hext.size, hext.next, hext.next_size]
  exact ⟨rfl, rfl⟩

/-- The layout once the break has moved and both pairs of tags are written. -/
theorem extend_layout {r n : Block} (hi : LayoutInv h (L ++ [b])) (hext : ExtendOf b r n nsize)
    (hbrk : h.memBrk + nsize ≤ h.memMaxAddr) (hk : Keeps {x | b.addr ≤ x} (h.grow nsize) h')
    (hr : Tagged h'.mem r) (hn : Tagged h'.mem n) :
    LayoutInv (h'.setEpilogue n.addr) (L ++ [r, n]) := by
  obtain ⟨hL, hend⟩ := hi.last_bounds
  have hp := hk.placed (hi.placed.grow hbrk)
  have hstart : h'.memStartBrk = h.memStartBrk := hk.start
  have hbrk' : h'.memBrk = h.memBrk + nsize := hk.brk
  have hpro : h'.prologue = h.prologue := hk.prologue
  refine ⟨⟨hp.1, hp.2, hp.3, hp.4, hp.5⟩, ?_, by simp, ?_, ?_, ?_⟩
  · obtain ⟨hrs, hns⟩ := hext.stops
    have hend' : n.stop = h'.memBrk := by omega
    exact tiles_append.mpr ⟨b.addr, hstart ▸ hL, hext.addr, hext.next.trans hrs.symm, hend'⟩
  · have hhead := hi.head
    have hL0 : L ≠ [] := by
      rintro rfl
      have := hi.two
      simp at this
    rw [List.head?_append_of_ne_nil L hL0] at hhead ⊢
    rw [hhead, prologueBlock, prologueBlock]
    simp [Heap.setEpilogue, hpro]
  · have : n = epilogueBlock (h'.setEpilogue n.addr) := Block.ext rfl hext.next_size hext.next_alloc
    simpa using this
  · intro c hc
    simp only [List.mem_append, List.mem_cons, List.not_mem_nil, or_false] at hc
    rcases hc with hc | rfl | rfl
    · have hct : Tagged (h.grow nsize).mem c := hi.tagged c (by simp [hc])
      have hct' : Tagged h'.mem c :=
        hct.frame hk fun x hx => Or.inr (Or.inr (le_trans (hL.bounds hc).2 hx))
      exact hct'
    · exact hr
    · exact hn

/-- No free block is touched when the epilogue becomes a block. -/
theorem extend_free {r n : Block} (hi : HeapInv h (L ++ [b]) fl) (hext : ExtendOf b r n nsize)
    (hk : Keeps {x | b.addr ≤ x} (h.grow nsize) h') (hfirst : h'.flistFirst = h.flistFirst)
    (hl : LayoutInv (h'.setEpilogue n.addr) (L ++ [r, n])) :
    HeapInv (h'.setEpilogue n.addr) (L ++ [r, n]) fl := by
  obtain ⟨-, -, halloc⟩ := hi.last_fields
  have hfl : ∀ a, a ∈ fl ↔ FreeAt (L ++ [r, n]) a := by
    intro a
    rw [hi.mem_free]
    simp only [freeAt_append, freeAt_cons, freeAt_nil, halloc, hext.alloc, hext.next_alloc]
    tauto
  refine ⟨hl, (hi.free.grow.frame hk hfirst (fun a ha => ?_) fun x hx a ha => ?_).setEpilogue, hfl⟩
  · obtain ⟨c, hc, rfl, hcf⟩ := (hfl a).mp ha
    have hhead : readWord h'.mem c.addr = c.tag := (hl.tagged c hc).header
    rw [hhead, c.tag_mod, hcf]
    rfl
  · obtain ⟨c, hc, rfl, hcf⟩ := (hi.mem_free a).mp ha
    have hx' : b.addr ≤ x := hx
    rcases List.mem_append.mp hc with hc | hc
    · have := (hi.last_bounds.1.bounds hc).2
      have := c.size_ge
      unfold Block.stop at *
      omega
    · rw [List.mem_singleton.mp hc, halloc] at hcf
      cases hcf

/-- The two pairs of tags that `extend_heap` writes. -/
theorem extendTags_spec {r n : Block} (hi : LayoutInv h (L ++ [b])) (hext : ExtendOf b r n nsize)
    (hbrk : h.memBrk + nsize ≤ h.memMaxAddr) :
    ∃ h1 h2, blockSetSizeAndAllocated (h.grow nsize) r.addr r.size r.alloc = some h1 ∧
      h1.epilogue = h.epilogue ∧ blockNext h1 r.addr = some n.addr ∧
      blockSetSizeAndAllocated h1 n.addr n.size n.alloc = some h2 ∧
      Tagged h2.mem r ∧ Tagged h2.mem n ∧ Keeps {x | b.addr ≤ x} (h.grow nsize) h2 ∧
      h2.flistFirst = h.flistFirst := by
  obtain ⟨hL, hend⟩ := hi.last_bounds
  obtain ⟨hrs, hns⟩ := hext.stops
  have hstart := hL.le
  have ha := hext.addr
  have hna := hext.next
  have hp := hi.placed.grow hbrk
  obtain ⟨h1, hrun1, htag1, hk1, hfirst1⟩ := setTags_spec (b := r) hp
    (show h.memStartBrk ≤ r.addr by omega) (show r.stop ≤ h.memMaxAddr by omega)
  have hp1 := hk1.placed hp
  have hstart1 : h1.memStartBrk = h.memStartBrk := hk1.start
  have hmax1 : h1.memMaxAddr = h.memMaxAddr := hk1.max
  have hnext1 := htag1.blockNext hp1 (by omega) (by omega)
  obtain ⟨h2, hrun2, htag2, hk2, hfirst2⟩ := setTags_spec (b := n) hp1 (by omega) (by omega)
  have hafter : ∀ x, r.addr ≤ x → x ∈ {x | b.addr ≤ x} := fun x hx => (ha ▸ hx : b.addr ≤ x)
  refine ⟨h1, h2, hrun1, hk1.epilogue, ?_, hrun2, ?_, htag2, ?_, hfirst2.trans hfirst1⟩
  · rw [hnext1, hrs, hna]
  · exact htag1.frame hk2 fun x hx => by
      have := (mem_tagBytes hx).1
      omega
  · refine (hk1.mono fun x hx => ?_).trans (hk2.mono fun x hx => ?_)
    · exact hafter x (mem_tagBytes hx).1
    · have := (mem_tagBytes hx).1
      exact hafter x (by omega)

theorem extendHeap_spec (hi : HeapInv h (L ++ [b]) fl) (h8 : nsize % 8 = 0) (h32 : 32 ≤ nsize)
    (hn : nsize < 2 ^ 31) (hbrk : h.memBrk + nsize ≤ h.memMaxAddr) :
    ∃ h' r n, extendHeap h nsize = some (b.addr + 8, h') ∧ ExtendOf b r n nsize ∧
      HeapInv h' (L ++ [r, n]) fl ∧ GrewFrom b.addr nsize h h' := by
  obtain ⟨haddr, -, -⟩ := hi.last_fields
  have hend := hi.last_bounds.2
  have htop := hi.placed.top
  obtain ⟨r, n, hext⟩ : ∃ r n : Block, ExtendOf b r n nsize :=
    ⟨⟨b.addr, nsize, true, h8, h32⟩, ⟨b.addr + nsize, 32, true, rfl, le_refl _⟩,
      rfl, rfl, rfl, rfl, rfl, rfl⟩
  obtain ⟨h1, h2, hrun1, hep1, hnext1, hrun2, hr, hn2, hk, hfirst⟩ :=
    extendTags_spec hi.toLayoutInv hext hbrk
  have hl := extend_layout hi.toLayoutInv hext hbrk hk hr hn2
  have hs := hl.blockSize (b := r) (by simp)
  rw [hext.addr, hext.size] at hs
  have hsplit := split_small (h := h2) hs (le_refl nsize) (by omega) (by omega)
  refine ⟨h2.setEpilogue n.addr, r, n, ?_, hext, extend_free hi hext hk hfirst hl,
    ⟨hk.start, hk.brk, hk.prologue, fun x hx => hk.mem x (Nat.not_le.mpr hx)⟩⟩
  have hne : h.memBrk ≠ memError := by
    unfold memError
    omega
  have hep0 : (h.grow nsize).epilogue = b.addr := haddr
  have hep1' : h1.epilogue = b.addr := hep1.trans haddr
  have hep2 : h2.epilogue = b.addr := hk.epilogue.trans haddr
  rw [hext.addr, hext.size, hext.alloc] at hrun1
  rw [hext.addr] at hnext1
  rw [hext.next_size, hext.next_alloc] at hrun2
  have hmin : minBlockSize = 32 := rfl
  have hpay := payloadAt_zero (b := b.addr) (by omega)
  unfold extendHeap
  simp only [memSbrk_eq (h := h) (show nsize < 2 ^ 32 by omega), hn, hbrk, and_self, ↓reduceIte, hne,
    hep0, hrun1, hep1', hnext1, hmin, hrun2, hep2, hsplit, hpay, Option.bind_eq_bind,
    Option.bind_some, Option.pure_def, Heap.setEpilogue]

end CourseProjects.Malloc

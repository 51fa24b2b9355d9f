import CourseProjects.Malloc.Alloc

/-!
# `mm_malloc` and `mm_init`

`Allocated` lists what a request can do to the blocks of the heap: nothing, turn
the old epilogue into a block, or take a free block and perhaps split it.
`mmMalloc_spec` says that every request of at most `INT_MAX` bytes is one of
these and leaves the bytes of all allocated blocks alone.
-/

namespace CourseProjects.Malloc

variable {h h' : Heap} {a e nsize size : Nat} {b c p n : Block} {bs L M R : List Block}
  {fl : List Nat} {K K' : Block → Prop}

/-- What a request of `nsize` bytes, tags included, does to the blocks. -/
inductive Allocated (h : Heap) (nsize : Nat) : List Block → Nat → List Block → Prop
  | fail (bs : List Block) : Allocated h nsize bs null bs
  | extend (L : List Block) (e r n : Block) (hext : ExtendOf e r n nsize)
      (none : bestFit h nsize = some null) (room : h.memBrk + nsize ≤ h.memMaxAddr) :
      Allocated h nsize (L ++ [e]) (e.addr + 8) (L ++ [r, n])
  | carve (L R M : List Block) (b : Block) (free : b.alloc = false) (fits : nsize ≤ b.size)
      (split : SplitOf (b.setAlloc true) nsize M) (best : bestFit h nsize = some b.addr) :
      Allocated h nsize (L ++ b :: R) (b.addr + 8) (L ++ M ++ R)

/-- The arena stays, the break does not go back, and the blocks in `K` keep
their bytes. -/
structure Frame (K : Block → Prop) (h h' : Heap) : Prop where
  start : h'.memStartBrk = h.memStartBrk
  brk : h.memBrk ≤ h'.memBrk
  prologue : h'.prologue = h.prologue
  mem : ∀ c, K c → ∀ x, c.addr ≤ x → x < c.stop → h'.mem x = h.mem x

theorem Frame.refl (K : Block → Prop) (h : Heap) : Frame K h h :=
  ⟨rfl, le_refl _, rfl, fun _ _ _ _ _ => rfl⟩

/-- The allocated blocks before the epilogue. -/
def Held (bs : List Block) (epilogue : Nat) (c : Block) : Prop :=
  c ∈ bs ∧ c.alloc = true ∧ c.addr ≠ epilogue

theorem Keeps.frame (hk : Keeps (unallocated bs) h h') :
    Frame (fun c => c ∈ bs ∧ c.alloc = true) h h' where
  start := hk.start
  brk := hk.brk.ge
  prologue := hk.prologue
  mem c hc x hx hx' := hk.mem x fun hun => by
    have := hun c hc.1 hc.2
    omega

theorem Frame.mono (hf : Frame K h h') (hK : ∀ c, K' c → K c) : Frame K' h h' :=
  { hf with mem := fun c hc => hf.mem c (hK c hc) }

/-! ## mm_malloc -/

theorem mmMalloc_zero (hs : size ≤ 0) : mmMalloc h size = some (null, h) := by
  unfold mmMalloc
  rw [if_pos hs, Option.pure_def]

theorem mmMalloc_extend (hs : 0 < size) (hbest : bestFit h (paddedSize size) = some null) :
    mmMalloc h size = extendHeap h (paddedSize size) := by
  unfold mmMalloc
  unfold bestFit at hbest
  rw [if_neg (by omega)]
  by_cases hfirst : h.flistFirst = null
  · simp only [hfirst, ↓reduceIte]
  · rw [if_neg hfirst] at hbest
    simp only [hfirst, ↓reduceIte, hbest, Option.bind_eq_bind, Option.bind_some]

/-- The end of `mm_malloc`, once a block has been found. -/
def takeBest (h : Heap) (best nsize : Nat) : Option (Nat × Heap) := do
  let h ← pullFreeBlock h best
  let h ← blockSetSizeAndAllocated h best (← blockSize h best) true
  let (best, h) ← split h best nsize
  return (payloadAt best 0, h)

theorem mmMalloc_takeBest {best : Nat} (hpos : 0 < size)
    (hbest : bestFit h (paddedSize size) = some best) (hne : best ≠ null) :
    mmMalloc h size = takeBest h best (paddedSize size) := by
  unfold mmMalloc
  unfold bestFit at hbest
  rw [if_neg (by omega)]
  by_cases hfirst : h.flistFirst = null
  · rw [if_pos hfirst] at hbest
    exact absurd (Option.some.inj hbest).symm hne
  · rw [if_neg hfirst] at hbest
    simp only [hfirst, ↓reduceIte, hbest, hne, Option.bind_eq_bind, Option.bind_some, takeBest]

theorem LayoutInv.addr_ne_null (hi : LayoutInv h bs) (hb : b ∈ bs) : b.addr ≠ null := by
  have := (hi.inArena hb).1.1
  have := hi.placed.start_pos
  unfold null
  omega

/-- The payload of a block of the heap begins behind its header. -/
theorem LayoutInv.payloadAt_eq (hi : LayoutInv h bs) (hb : b ∈ bs) :
    payloadAt b.addr 0 = b.addr + 8 := by
  obtain ⟨hin, hmax⟩ := hi.inArena hb
  have hge := b.size_ge
  have hend := hin.2
  exact payloadAt_zero (by omega)

/-- Every layout ends with a block, the epilogue. -/
theorem LayoutInv.eq_append (hi : LayoutInv h bs) : ∃ L, bs = L ++ [epilogueBlock h] := by
  obtain ⟨L, hL⟩ := List.getLast?_eq_some_iff.mp hi.last
  exact ⟨L, hL⟩

/-- No free block fits and the break can move: the old epilogue becomes the block. -/
theorem mmMalloc_extends (hi : HeapInv h bs fl) (hpos : 0 < size) (hs : size ≤ intMax)
    (hbest : bestFit h (paddedSize size) = some null)
    (hroom : paddedSize size < 2 ^ 31 ∧ h.memBrk + paddedSize size ≤ h.memMaxAddr) :
    ∃ L h' r n, bs = L ++ [epilogueBlock h] ∧ mmMalloc h size = some (h.epilogue + 8, h') ∧
      ExtendOf (epilogueBlock h) r n (paddedSize size) ∧ HeapInv h' (L ++ [r, n]) fl ∧
      GrewFrom h.epilogue (paddedSize size) h h' := by
  obtain ⟨h8, -, h32, -⟩ := paddedSize_spec hs
  obtain ⟨L, rfl⟩ := hi.eq_append
  obtain ⟨h', r, n, hrun, hext, hi', hgrew⟩ := extendHeap_spec hi h8 h32 hroom.1 hroom.2
  exact ⟨L, h', r, n, rfl, (mmMalloc_extend hpos hbest).trans hrun, hext, hi', hgrew⟩

/-- The free block `b` is found and taken. -/
theorem mmMalloc_carves (hi : HeapInv h (L ++ b :: R) fl) (hpos : 0 < size) (hs : size ≤ intMax)
    (hfree : b.alloc = false) (hle : paddedSize size ≤ b.size)
    (hbest : bestFit h (paddedSize size) = some b.addr) :
    ∃ h' M, mmMalloc h size = some (b.addr + 8, h') ∧
      SplitOf (b.setAlloc true) (paddedSize size) M ∧
      HeapInv h' (L ++ M ++ R) (splitFree b (paddedSize size) (fl.erase b.addr)) ∧
      Keeps (unallocated (L ++ R)) h h' := by
  obtain ⟨h8, -, h32, -⟩ := paddedSize_spec hs
  obtain ⟨h1, h2, h', M, hpull, hsz, hset, hsplit, hM, hi', hk⟩ := carve_spec hi hfree h8 h32 hle
  have hb : b ∈ L ++ b :: R := by simp
  refine ⟨h', M, ?_, hM, hi', hk⟩
  rw [mmMalloc_takeBest hpos hbest (hi.addr_ne_null hb)]
  simp only [takeBest, hpull, hsz, hset, hsplit, hi.payloadAt_eq hb, Option.bind_eq_bind,
    Option.bind_some, Option.pure_def]

/-- **`mm_malloc`** of at most `INT_MAX` bytes. -/
theorem mmMalloc_spec (hi : HeapInv h bs fl) (hs : size ≤ intMax) :
    ∃ q h' bs' fl', mmMalloc h size = some (q, h') ∧ HeapInv h' bs' fl' ∧
      Allocated h (paddedSize size) bs q bs' ∧ Frame (Held bs h.epilogue) h h' ∧
      (q = null → h' = h) := by
  by_cases hpos : size ≤ 0
  · exact ⟨null, h, bs, fl, mmMalloc_zero hpos, hi, .fail bs, Frame.refl _ h, fun _ => rfl⟩
  obtain ⟨-, -, -, hmax⟩ := paddedSize_spec hs
  have hpos : 0 < size := Nat.lt_of_not_le hpos
  rcases bestFit_spec hi hmax with ⟨hbest, -⟩ | ⟨b, hb, hfree, hbest, hfirst⟩
  · by_cases hroom : paddedSize size < 2 ^ 31 ∧ h.memBrk + paddedSize size ≤ h.memMaxAddr
    · obtain ⟨L, h', r, n, rfl, hrun, hext, hi', hgrew⟩ := mmMalloc_extends hi hpos hs hbest hroom
      refine ⟨_, h', _, fl, hrun, hi', .extend L _ r n hext hbest hroom.2,
        ⟨hgrew.start, hgrew.brk ▸ Nat.le_add_right _ _, hgrew.prologue,
          fun c hc x _ hx => hgrew.mem x ?_⟩, fun hq => absurd hq ?_⟩
      · rcases List.mem_append.mp hc.1 with hcL | hcE
        · exact lt_of_lt_of_le hx (hi.last_bounds.1.bounds hcL).2
        · exact absurd (congrArg Block.addr (List.mem_singleton.mp hcE)) hc.2.2
      · exact Nat.succ_ne_zero _
    · have hrun := (mmMalloc_extend hpos hbest).trans (extendHeap_fail (by omega) hroom)
      exact ⟨null, h, bs, fl, hrun, hi, .fail bs, Frame.refl _ h, fun _ => rfl⟩
  · obtain ⟨L, R, rfl⟩ := List.append_of_mem hb
    obtain ⟨h', M, hrun, hM, hi', hk⟩ := mmMalloc_carves hi hpos hs hfree hfirst.fits hbest
    refine ⟨b.addr + 8, h', L ++ M ++ R, _, hrun, hi', .carve L R M b hfree hfirst.fits hM hbest,
      hk.frame.mono fun c hc => ⟨?_, hc.2.1⟩, fun hq => absurd hq (Nat.succ_ne_zero _)⟩
    have := hc.1
    simp only [List.mem_append, List.mem_cons] at this ⊢
    rcases this with hcL | rfl | hcR
    · exact Or.inl hcL
    · exact absurd hc.2.1 (by simp [hfree])
    · exact Or.inr hcR

/-! ## mm_init -/

theorem FreeList.nil (hfirst : h.flistFirst = null) : FreeList h [] :=
  ⟨List.nodup_nil, by simp, by simp, CyclicList.ring_nil, hfirst⟩

theorem Placed.of_brk (hp : Placed h) (hs : h'.memStartBrk = h.memStartBrk)
    (hb : h'.memBrk = h.memBrk) (hm : h'.memMaxAddr = h.memMaxAddr) : Placed h' where
  start_pos := hs ▸ hp.start_pos
  start_le := by rw [hs, hb]; exact hp.start_le
  brk_le := by rw [hb, hm]; exact hp.brk_le
  max_eq := by rw [hs, hm]; exact hp.max_eq
  top := hm ▸ hp.top

theorem memInit_placed (a : Arena) (mem : Bytes.Memory) : Placed (memInit a mem) :=
  ⟨a.start_pos, le_refl _, Nat.le_add_right _ _, rfl, a.start_le⟩

def Heap.setPrologue (h : Heap) (prologue : Nat) : Heap := { h with prologue }

theorem memSbrk_min (hbrk : h.memBrk + 32 ≤ h.memMaxAddr) :
    memSbrk h (toInt 32) = (h.memBrk, h.grow 32) := by
  rw [memSbrk_eq (by omega), if_pos ⟨by omega, hbrk⟩]

/-- The first `k` bytes of the arena at `s` are in use. -/
structure Used (h : Heap) (s k : Nat) : Prop where
  placed : Placed h
  start : h.memStartBrk = s
  max : h.memMaxAddr = s + maxHeap
  brk : h.memBrk = s + k

theorem Used.room {s k : Nat} (hu : Used h s k) (hk : k ≤ 64) :
    h.memBrk + 32 ≤ h.memMaxAddr ∧ h.memBrk ≠ memError := by
  have htop := hu.placed.top
  have hmax := hu.max
  have hbrk := hu.brk
  unfold maxHeap at hmax
  have hroom : h.memBrk + 32 ≤ h.memMaxAddr := by omega
  refine ⟨hroom, ?_⟩
  unfold memError
  omega

theorem Used.keeps {s k : Nat} {S : Set Nat} (hu : Used h s k) (hk : Keeps S h h') : Used h' s k :=
  ⟨hk.placed hu.placed, hk.start.trans hu.start, hk.max.trans hu.max, hk.brk.trans hu.brk⟩

/-- The block `b` at the break, and the break behind it. -/
theorem grow_tags {s k : Nat} (hu : Used h s k) (hk : k ≤ 64) (hb : b.addr = s + k)
    (hs : b.size = 32) :
    ∃ h', blockSetSizeAndAllocated (h.grow 32) h.memBrk 32 b.alloc = some h' ∧
      Tagged h'.mem b ∧ Keeps {x | b.addr ≤ x} (h.grow 32) h' ∧
      h'.flistFirst = h.flistFirst ∧ Used h' s (k + 32) := by
  have hroom := (hu.room hk).1
  have hba : b.addr = h.memBrk := hb.trans hu.brk.symm
  have hp := hu.placed.grow hroom
  obtain ⟨h', hrun, htag, hk', hfirst⟩ := setTags_spec (b := b) hp
    (hba ▸ hu.placed.start_le) (by rw [Block.stop, hba, hs]; exact hroom)
  rw [hba, hs] at hrun
  have hbrk : (h.grow 32).memBrk = s + (k + 32) := by
    show h.memBrk + 32 = s + (k + 32)
    rw [hu.brk, Nat.add_assoc]
  exact ⟨h', hrun, htag, hk'.mono fun x hx => (mem_tagBytes hx).1, hfirst,
    hk'.placed hp, hk'.start.trans hu.start, hk'.max.trans hu.max, hk'.brk.trans hbrk⟩

/-- The tags of a block in front of the change are kept. -/
theorem Tagged.before (ht : Tagged h.mem b) (hk : Keeps {x | a ≤ x} h h') (hb : b.stop ≤ a) :
    Tagged h'.mem b :=
  ht.frame hk fun _ hx => Or.inr (Or.inr (le_trans hb hx))

/-- The tags of a free block are no links. -/
theorem Tagged.links (ht : Tagged h.mem b) (hk : Keeps (linkBytes [c.addr]) h h')
    (hb : b = c ∨ b.stop ≤ c.addr) : Tagged h'.mem b := by
  refine ht.frame hk fun x hx => ?_
  obtain ⟨d, hd, hx⟩ := hx
  rw [List.mem_singleton.mp hd] at hx
  have := c.size_ge
  unfold Block.stop at *
  rcases hb with rfl | hb <;> omega

/-- The three blocks of `mm_init`, once their tags are written and the middle one
is on the list. -/
theorem HeapInv.initial {f : Block} (hp : Placed h) (hpa : p.addr = h.memStartBrk)
    (hps : p.size = 32) (hpb : p.alloc = true) (hfa : f.addr = p.addr + 32) (hfs : f.size = 32)
    (hfb : f.alloc = false) (hna : n.addr = p.addr + 64) (hns : n.size = 32) (hnb : n.alloc = true)
    (hbrk : h.memBrk = p.addr + 96) (hpro : h.prologue = p.addr) (hepi : h.epilogue = n.addr)
    (ht : ∀ b ∈ [p, f, n], Tagged h.mem b) (hf : FreeList h [f.addr]) :
    HeapInv h [p, f, n] [f.addr] := by
  refine ⟨⟨hp, ⟨hpa, ?_, ?_, ?_⟩, by simp, ?_, ?_, ht⟩, hf, fun a => ?_⟩
  · rw [Block.stop, hps, hfa]
  · rw [Block.stop, hfs, hfa, hna]
  · show n.stop = h.memBrk
    rw [Block.stop, hns, hna, hbrk]
  · have : p = prologueBlock h := Block.ext hpro.symm hps hpb
    rw [List.head?_cons, ← this]
  · have : n = epilogueBlock h := Block.ext hepi.symm hns hnb
    simp [← this]
  · simp only [freeAt_cons, freeAt_nil, hpb, hfb, hnb, List.mem_singleton]
    tauto

theorem mmInit_run {h1 h2 h3 h4 : Heap} {s : Nat} (hfirst : h.flistFirst = null)
    (hu0 : Used h s 0) (hu1 : Used h1 s 32) (hu3 : Used h3 s 64)
    (hrun1 : blockSetSizeAndAllocated ((h.setPrologue h.memBrk).grow 32) h.memBrk 32 true = some h1)
    (hrun2 : blockSetSizeAndAllocated (h1.grow 32) h1.memBrk 32 false = some h2)
    (hrun3 : insertFreeBlock h2 h1.memBrk = some h3)
    (hrun4 : blockSetSizeAndAllocated ((h3.setEpilogue h3.memBrk).grow 32) h3.memBrk 32 true =
      some h4) : mmInit h = some (0, h4) := by
  have hnull : ({ h with flistFirst := null } : Heap) = h := by rw [← hfirst]
  have hpro : ({ h.grow 32 with prologue := h.memBrk } : Heap) = (h.setPrologue h.memBrk).grow 32 :=
    rfl
  have hepi : ({ h3.grow 32 with epilogue := h3.memBrk } : Heap) =
      (h3.setEpilogue h3.memBrk).grow 32 := rfl
  have hmin : minBlockSize = 32 := rfl
  obtain ⟨hb0, hne0⟩ := hu0.room (by omega)
  obtain ⟨hb1, hne1⟩ := hu1.room (by omega)
  obtain ⟨hb3, hne3⟩ := hu3.room (by omega)
  unfold mmInit
  simp only [hnull, hmin, memSbrk_min hb0, hpro, hne0, hrun1, memSbrk_min hb1, hne1, hrun2, hrun3,
    memSbrk_min hb3, hepi, hne3, hrun4, ↓reduceIte, Option.bind_eq_bind, Option.bind_some,
    Option.pure_def]

/-- `mm_init` on an arena of which nothing is in use. -/
theorem mmInit_used {g : Heap} {s : Nat} (hu : Used g s 0) (hfirst0 : g.flistFirst = null) :
    ∃ h p f e, mmInit g = some (0, h) ∧ HeapInv h [p, f, e] [f.addr] ∧
      h.memStartBrk = s ∧ f.alloc = false ∧ p.addr = s ∧ f.addr = s + 32 ∧ f.size = 32 := by
  obtain ⟨p, hpa, hps, hpb⟩ : ∃ p : Block, p.addr = s + 0 ∧ p.size = 32 ∧ p.alloc = true :=
    ⟨⟨s, 32, true, rfl, le_refl _⟩, rfl, rfl, rfl⟩
  obtain ⟨f, hfa, hfs, hfb⟩ : ∃ f : Block, f.addr = s + 32 ∧ f.size = 32 ∧ f.alloc = false :=
    ⟨⟨s + 32, 32, false, rfl, le_refl _⟩, rfl, rfl, rfl⟩
  obtain ⟨n, hna, hns, hnb⟩ : ∃ n : Block, n.addr = s + 64 ∧ n.size = 32 ∧ n.alloc = true :=
    ⟨⟨s + 64, 32, true, rfl, le_refl _⟩, rfl, rfl, rfl⟩
  -- the prologue
  have hu0 : Used (g.setPrologue g.memBrk) s 0 :=
    ⟨hu.placed.of_brk rfl rfl rfl, hu.start, hu.max, hu.brk⟩
  obtain ⟨h1, hrun1, htag1, hk1, hfirst1, hu1⟩ := grow_tags hu0 (by omega) hpa hps
  -- the free block
  obtain ⟨h2, hrun2, htag2, hk2, hfirst2, hu2⟩ := grow_tags hu1 (by omega) hfa hfs
  have hnode : FreeNode h2 f.addr := by
    have hroom := (hu2.room (by omega)).1
    refine ⟨⟨?_, ?_⟩, ?_⟩
    · rw [hu2.start, hfa]
      omega
    · rw [hfa, Nat.add_assoc, ← hu2.brk]
      omega
    · rw [htag2.header, f.tag_mod, hfb]
      rfl
  obtain ⟨h3, hrun3, hf3, hk3⟩ := insertFreeBlock_spec hu2.placed
    (FreeList.nil (hfirst2.trans (hfirst1.trans hfirst0))) hnode (by simp) (by simp)
  -- the epilogue
  have hu3 := hu2.keeps hk3
  have hu3' : Used (h3.setEpilogue h3.memBrk) s 64 :=
    ⟨hu3.placed.of_brk rfl rfl rfl, hu3.start, hu3.max, hu3.brk⟩
  obtain ⟨h4, hrun4, htag4, hk4, hfirst4, hu4⟩ := grow_tags hu3' (by omega) hna hns
  have hpro : h4.prologue = p.addr :=
    (hk4.prologue.trans (hk3.prologue.trans (hk2.prologue.trans hk1.prologue))).trans
      (hu.brk.trans hpa.symm)
  have hepi : h4.epilogue = n.addr := hk4.epilogue.trans (hu3.brk.trans hna.symm)
  have hpf : p.stop = f.addr := by rw [Block.stop, hps, hpa, hfa]
  have hfn : f.stop = n.addr := by rw [Block.stop, hfs, hfa, hna]
  have hpn : p.stop ≤ n.addr := by rw [hpf, hfa, hna]; omega
  have htags : ∀ b ∈ [p, f, n], Tagged h4.mem b := by
    simp only [List.mem_cons, List.not_mem_nil, or_false]
    rintro b (rfl | rfl | rfl)
    · have h12 : Tagged h2.mem b := Tagged.before (h := h1.grow 32) htag1 hk2 hpf.le
      have h23 : Tagged h3.mem b := h12.links hk3 (Or.inr hpf.le)
      exact Tagged.before (h := (h3.setEpilogue h3.memBrk).grow 32) h23 hk4 hpn
    · have h23 : Tagged h3.mem b := htag2.links hk3 (Or.inl rfl)
      exact Tagged.before (h := (h3.setEpilogue h3.memBrk).grow 32) h23 hk4 hfn.le
    · exact htag4
  have hf4 : FreeList h4 [f.addr] := by
    refine (hf3.setEpilogue (a := h3.memBrk)).grow.frame hk4 hfirst4 (fun c hc => ?_)
      fun x hx c hc => ?_
    · rw [List.mem_singleton.mp hc, (htags f (by simp)).header, f.tag_mod, hfb]
      rfl
    · have hx' : n.addr ≤ x := hx
      rw [List.mem_singleton.mp hc]
      omega
  have hi4 : HeapInv h4 [p, f, n] [f.addr] :=
    HeapInv.initial hu4.placed (hpa.trans hu4.start.symm) hps hpb (by rw [hfa, hpa]) hfs hfb
      (by rw [hna, hpa]) hns hnb (by rw [hu4.brk, hpa]) hpro hepi htags hf4
  rw [hfb] at hrun2
  rw [hfa, ← hu1.brk] at hrun3
  exact ⟨h4, p, f, n, mmInit_run hfirst0 hu hu1 hu3 (hpb ▸ hrun1) hrun2 hrun3 (hnb ▸ hrun4), hi4,
    hu4.start, hfb, hpa, hfa, hfs⟩

/-- **`mm_init`** on a fresh arena: prologue, one free block, epilogue. -/
theorem mmInit_spec (a : Arena) (mem : Bytes.Memory) :
    ∃ h p f e, mmInit (memInit a mem) = some (0, h) ∧ HeapInv h [p, f, e] [f.addr] ∧
      h.memStartBrk = a.start ∧ f.alloc = false := by
  have hu : Used (memInit a mem) a.start 0 := ⟨memInit_placed a mem, rfl, rfl, rfl⟩
  obtain ⟨h, p, f, e, hrun, hi, hstart, hfree, -⟩ := mmInit_used hu rfl
  exact ⟨h, p, f, e, hrun, hi, hstart, hfree⟩

end CourseProjects.Malloc

import CourseProjects.Malloc.Contract

/-!
# `mm_realloc`

The branch that grows in place passes the payload to the block functions, so the
client's first word decides it, and the copying branch moves the whole block
size, end tag and next header included. `ReallocSafe` is the condition under
which neither shows; `realloc_contract` is about runs all of whose calls to
`mm_realloc` meet it.
-/

namespace CourseProjects.Malloc

open Transition Session Bytes

variable {s s' : Session} {h h1 h2 h3 : Heap} {q size ptr csize nsize w : Nat} {b c r : Block}
  {bs bs' : List Block} {fl fl' : List Nat} {l : Live} {a : Arena}

/-- What the copy of `csize` bytes writes over the end tag of a new block of
`csize + 8` bytes is the word after the old block; that word is then the tag of
the new block. -/
def CopySafe (h : Heap) (block csize nsize : Nat) : Prop :=
  csize + 8 < nsize ∨ ∃ best, bestFit h nsize = some best ∧
    ((best = null ∧ (h.memMaxAddr < h.memBrk + nsize ∨ block + csize = h.epilogue)) ∨
      (best ≠ null ∧ (best = block + csize ∨
        ∃ z, blockSize h best = some z ∧ nsize < z ∧ z - nsize < 2 * nsize)) ∨
      (blockSize h (block + csize) = some nsize ∧ blockAllocated h (block + csize) = some true))

/-- Either the block is large enough already, or the word that `mm_realloc` takes
for the size of the next block does not make it grow in place, and the copy is
harmless. -/
def ReallocSafe (h : Heap) (ptr size : Nat) : Prop :=
  ∃ csize, blockSize h (payloadToBlock ptr) = some csize ∧
    (paddedSize size ≤ csize ∨
      (∃ w, blockNextSize h ptr = some w ∧ wadd csize w < paddedSize size) ∧
        CopySafe h (payloadToBlock ptr) csize (paddedSize size))

/-! ## The exits -/

theorem mmRealloc_keep (hpos : 0 < size) (hne : ptr ≠ null)
    (hs : blockSize h (payloadToBlock ptr) = some csize) (hle : paddedSize size ≤ csize) :
    mmRealloc h ptr size = some (ptr, h) := by
  unfold mmRealloc
  rw [if_neg (Nat.not_le.mpr hpos), if_neg hne]
  simp only [hs, Option.bind_eq_bind, Option.bind_some, Option.pure_def]
  rcases Nat.eq_or_lt_of_le hle with heq | hlt
  · rw [if_pos heq]
  · rw [if_neg hlt.ne, if_pos hlt]

theorem mmRealloc_move (hpos : 0 < size) (hne : ptr ≠ null)
    (hs : blockSize h (payloadToBlock ptr) = some csize) (hlt : csize < paddedSize size)
    (hw : blockNextSize h ptr = some w) (hfit : wadd csize w < paddedSize size)
    (hmalloc : mmMalloc h size = some (q, h1)) :
    mmRealloc h ptr size = if q = null then some (null, h1) else do
      let h ← memmove h1 q ptr csize
      let h ← mmFree h ptr
      return (q, h) := by
  unfold mmRealloc
  rw [if_neg (Nat.not_le.mpr hpos), if_neg hne]
  simp only [hs, Option.bind_eq_bind, Option.bind_some, Option.pure_def]
  rw [if_neg hlt.ne', if_neg (Nat.not_lt.mpr hlt.le)]
  simp only [hw, Option.bind_some]
  rw [if_neg (Nat.not_le.mpr hfit)]
  simp only [hmalloc, Option.bind_some]

/-! ## The end tag after the copy -/

/-- A block of the client is followed by a block. -/
theorem LayoutInv.next_block (hi : LayoutInv h bs) (hb : Owned h bs b) :
    ∃ n ∈ bs, n.addr = b.stop ∧ n.addr ≠ h.prologue := by
  obtain ⟨hmem, -, hp, he⟩ := hb
  obtain ⟨L, p, n, R, rfl⟩ := hi.interior hmem hp he
  obtain ⟨hL, hadj, hadj', -⟩ := tiles_mid.mp hi.tiles
  have := hL.le
  have := p.size_ge
  have := b.size_ge
  refine ⟨n, by simp, hadj', ?_⟩
  have := hi.prologue_start
  unfold Block.stop at *
  omega

/-- The header of a block of the client is kept by a frame. -/
theorem Frame.header {K : Block → Prop} (hf : Frame K h h1) (hi : LayoutInv h bs) (hc : c ∈ bs)
    (hK : K c) : readWord h1.mem c.addr = c.tag := by
  rw [← (hi.tagged c hc).header]
  refine readWord_congr fun x hx hx' => hf.mem c hK x hx ?_
  have := c.size_ge
  unfold Block.stop
  omega

/-- The word after the old block is the tag of the new one, where the copy
reaches its end tag. -/
theorem copySafe_tag (hi : LayoutInv h bs) (hi' : LayoutInv h1 bs') (hb : Owned h bs b)
    (h8 : nsize % 8 = 0) (hlt : b.size < nsize) (hsafe : CopySafe h b.addr b.size nsize)
    (ha : Allocated h nsize bs q bs') (hf : Frame (Owned h bs) h h1) (hr : Owned h1 bs' r)
    (hq : r.addr + 8 = q) (hsize : r.size = b.size + 8) : readWord h1.mem b.stop = r.tag := by
  have hheader : b.stop = r.addr → readWord h1.mem b.stop = r.tag := by
    intro heq
    rw [heq, (hi'.tagged r hr.1).header]
  have hnsize : nsize = b.size + 8 → blockSize h b.stop = some nsize ∧
      blockAllocated h b.stop = some true → readWord h1.mem b.stop = r.tag := by
    rintro hn ⟨hs, halloc⟩
    obtain ⟨n, hmem, haddr, hnp⟩ := hi.next_block hb
    rw [← haddr, hi.blockSize hmem] at hs
    rw [← haddr, hi.blockAllocated hmem] at halloc
    have hns := Option.some.inj hs
    have hna := Option.some.inj halloc
    have hne : n.addr ≠ h.epilogue := by
      intro heq
      have hsz : n.size = 32 := by
        rw [hi.tiles.eq_of_addr hmem hi.epilogue_mem heq]
        rfl
      have := b.size_ge
      omega
    rw [← haddr, hf.header hi hmem ⟨hmem, hna, hnp, hne⟩, Block.tag, Block.tag, hns, hna, hr.2.1,
      hsize, hn]
  cases ha with
  | fail => exact absurd hq (Nat.succ_ne_zero _)
  | extend L e r' n hext none room =>
    have hrr : r = r' := hi'.tiles.eq_of_addr hr.1 (by simp) (by rw [hext.addr]; omega)
    have hrs : r.size = nsize := by rw [hrr, hext.size]
    rcases hsafe with hlarge | ⟨best, hbest, hcase⟩
    · omega
    · obtain rfl : best = null := Option.some.inj (hbest.symm.trans none)
      rcases hcase with ⟨-, hno | hepi⟩ | ⟨hne, -⟩ | hnext
      · omega
      · have hepi' : b.stop = h.epilogue := hepi
        rw [hi.last_fields.1] at hepi'
        exact hheader (by omega)
      · exact absurd rfl hne
      · exact hnsize (by omega) hnext
  | carve L R M c free fits split best =>
    have hrc : r.addr = c.addr := by omega
    have hb8 := b.size_mod
    obtain ⟨r', S, hM, hra, -, hrs, -, -⟩ := split.head fits rfl
    have hra' : r'.addr = c.addr := hra
    have hrr : r = r' := hi'.tiles.eq_of_addr hr.1 (by simp [hM]) (by omega)
    rw [← hrr] at hrs
    rcases hsafe with hlarge | ⟨best', hbest, hcase⟩
    · omega
    · obtain rfl : best' = c.addr := Option.some.inj (hbest.symm.trans best)
      rcases hcase with ⟨hnull, -⟩ | ⟨-, hnext | ⟨z, hz, hzn, hz2⟩⟩ | hnext
      · have := (hi.inArena (b := c) (by simp)).1.1
        have := hi.placed.start_pos
        unfold null at hnull
        omega
      · have hnext' : c.addr = b.stop := hnext
        exact hheader (by omega)
      · -- the new block is larger than the request, it has not been split
        rw [hi.blockSize (b := c) (by simp)] at hz
        obtain rfl := Option.some.inj hz
        have hsz : (c.setAlloc true).size = c.size := rfl
        rcases split with ⟨-, rfl⟩ | ⟨hle, -⟩
        · obtain ⟨rfl, -⟩ := List.cons.inj hM
          rw [hrr] at hsize
          omega
        · omega
      · exact hnsize (by omega) hnext

/-- The copy from the block `b` into the larger block `r` leaves tags and links
alone. -/
theorem copy_fill (hi : LayoutInv h bs) (hr : r ∈ bs) (hsize : b.size < r.size)
    (htag : r.size = b.size + 8 → readWord h.mem b.stop = r.tag) {x : Nat}
    (hx : ¬ (r.addr + 8 ≤ x ∧ x + 8 < r.stop)) :
    copyBytes h.mem (r.addr + 8) (b.addr + 8) b.size x = h.mem x := by
  have hb8 := b.size_mod
  have hr8 := r.size_mod
  have hstop : r.stop = r.addr + r.size := rfl
  have hbstop : b.stop = b.addr + b.size := rfl
  by_cases hin : r.addr + 8 ≤ x ∧ x < r.addr + 8 + b.size
  · -- only the end tag of `r` is left, and it is written with its own value
    have hsz : r.size = b.size + 8 := by omega
    have hword : readWord h.mem b.stop = readWord h.mem (r.stop - 8) := by
      rw [htag hsz, (hi.tagged r hr).endTag]
    obtain ⟨j, hj, rfl⟩ : ∃ j, j < 8 ∧ x = r.stop - 8 + j := ⟨x - (r.stop - 8), by omega, by omega⟩
    rw [show r.stop - 8 + j = r.addr + 8 + (b.size - 8 + j) by omega,
      copyBytes_of_mem (by omega), show b.addr + 8 + (b.size - 8 + j) = b.stop + j by omega,
      byte_eq_of_readBytes_eq hword hj]
    exact congrArg h.mem (by omega)
  · exact copyBytes_of_not_mem (by omega)

theorem memmove_eq (hi : LayoutInv h bs) (hb : Owned h bs b) (hr : r ∈ bs) (hsize : b.size < r.size) :
    memmove h (r.addr + 8) (b.addr + 8) b.size =
      some { h with mem := copyBytes h.mem (r.addr + 8) (b.addr + 8) b.size } := by
  obtain ⟨n, hn, haddr, -⟩ := hi.next_block hb
  have hb8 := b.size_mod
  have hr8 := r.size_mod
  have hbin := (hi.inArena hb.1).1
  have hrin := (hi.inArena hr).1
  have hnin := (hi.inArena hn).1
  have := n.size_ge
  have hbstop : b.stop = b.addr + b.size := rfl
  unfold InArena at hbin hrin hnin
  exact if_pos ⟨⟨by omega, by omega⟩, ⟨by omega, by omega⟩⟩

/-! ## One call -/

/-- The client's view of a successful call: the block with payload `q` has taken
the place of the one with payload `l.ptr`. -/
structure Moved (s : Session) (l : Live) (q size : Nat) (h : Heap) : Prop where
  inv : ∃ bs fl, SessionInv ⟨h, ⟨q, size⟩ :: drop s.live l.ptr⟩ bs fl
  start : h.memStartBrk = s.heap.memStartBrk
  contents : ∀ i, i < min l.size size → h.mem (q + i) = s.heap.mem (l.ptr + i)
  others : ∀ l' ∈ s.live, l'.ptr ≠ l.ptr → SamePayload s.heap h l'.ptr

/-- The request shrinks into the block. -/
theorem SessionInv.realloc_keep (hi : SessionInv s bs fl) (hc : Owned s.heap bs c)
    (hptr : c.addr + 8 = l.ptr) (hsize : size + 16 ≤ c.size) : Moved s l l.ptr size s.heap := by
  refine ⟨⟨bs, fl, hi.toHeapInv, hi.coalesced, hi.grown, ?_, ?_, fun d hd => ?_⟩, rfl,
    fun _ _ => rfl, fun l' _ _ n _ i _ => rfl⟩
  · refine List.nodup_cons.mpr ⟨fun hmem => ?_, hi.nodup.sublist (List.filter_sublist.map _)⟩
    obtain ⟨l', hl', heq⟩ := List.mem_map.mp hmem
    exact (mem_drop.mp hl').2 heq
  · rintro l' (_ | ⟨_, hl'⟩)
    · exact ⟨c, hc, hptr, hsize⟩
    · exact hi.block_of_live l' (mem_drop.mp hl').1
  · by_cases hdc : d.addr + 8 = l.ptr
    · exact ⟨⟨l.ptr, size⟩, List.mem_cons_self, hdc.symm⟩
    · obtain ⟨l', hl', hptr'⟩ := hi.live_of_block d hd
      exact ⟨l', List.mem_cons_of_mem _ (mem_drop.mpr ⟨hl', by rw [hptr']; exact hdc⟩), hptr'⟩

theorem Frame.trans {K : Block → Prop} (hf : Frame K h h1) (hf' : Frame K h1 h2) : Frame K h h2 where
  start := hf'.start.trans hf.start
  brk := le_trans hf.brk hf'.brk
  prologue := hf'.prologue.trans hf.prologue
  mem c hc x hx hx' := (hf'.mem c hc x hx hx').trans (hf.mem c hc x hx hx')

theorem copy_frame (hi : LayoutInv h bs) (hr : r ∈ bs) (hsize : b.size + 8 ≤ r.size) :
    Frame (fun c => Owned h bs c ∧ c ≠ r) h
      { h with mem := copyBytes h.mem (r.addr + 8) (b.addr + 8) b.size } := by
  refine ⟨rfl, le_refl _, rfl, fun c hc x hx hx' => copyBytes_of_not_mem ?_⟩
  have hne := (hi.tiles.disjoint hc.1.1 hr).resolve_left hc.2
  unfold Block.stop at *
  omega

theorem drop_cons_of_ne (hne : q ≠ ptr) : drop (⟨q, size⟩ :: s.live) ptr =
    ⟨q, size⟩ :: drop s.live ptr :=
  List.filter_cons_of_pos (by simpa using hne)

/-- The block of `l` is copied into the new block `r` and freed. -/
theorem SessionInv.copy_free (hi : SessionInv s bs fl) (hl : l ∈ s.live) (hb : Owned s.heap bs b)
    (hptr : b.addr + 8 = l.ptr) (hlsize : l.size + 16 ≤ b.size)
    (hi1 : SessionInv ⟨h1, ⟨q, size⟩ :: s.live⟩ bs' fl') (hf : Frame (Owned s.heap bs) s.heap h1)
    (hold : ∀ c, Owned s.heap bs c → Owned h1 bs' c ∧ c ≠ r) (hr : Owned h1 bs' r)
    (hq : r.addr + 8 = q) (hsize : b.size < r.size)
    (htag : r.size = b.size + 8 → readWord h1.mem b.stop = r.tag) :
    ∃ h2 h3, memmove h1 q l.ptr b.size = some h2 ∧ mmFree h2 l.ptr = some h3 ∧
      Moved s l q size h3 := by
  have hb8 := b.size_mod
  have hr8 := r.size_mod
  obtain ⟨hb1, hbr⟩ := hold b hb
  have hmove := memmove_eq hi1.toLayoutInv hb1 hr.1 hsize
  have hi2 := hi1.fill hr fun x hx => copy_fill hi1.toLayoutInv hr.1 hsize htag hx
  have hf2 := copy_frame (b := b) hi1.toLayoutInv hr.1 (by omega)
  generalize hh2 : ({ h1 with mem := copyBytes h1.mem (r.addr + 8) (b.addr + 8) b.size } : Heap) =
    h2 at *
  have hheld : Session.Holds ⟨h2, ⟨q, size⟩ :: s.live⟩ l.ptr := ⟨l, List.mem_cons_of_mem _ hl, rfl⟩
  obtain ⟨h3, bs3, fl3, hrun3, hi3, -, hf3, -⟩ := hi2.free_call hheld
  have hne : q ≠ l.ptr := by
    rintro rfl
    exact hbr (hi1.tiles.eq_of_addr hb1.1 hr.1 (by omega))
  rw [drop_cons_of_ne hne] at hi3
  have hown2 : ∀ c, Owned h1 bs' c → Owned h2 bs' c := fun c hc => by rw [← hh2]; exact hc
  refine ⟨h2, h3, by rw [← hq, ← hptr]; exact hmove, hrun3, ⟨⟨bs3, fl3, hi3⟩, ?_, ?_, ?_⟩⟩
  · exact hf3.start.trans (hf2.start.trans hf.start)
  · intro i hi
    have hstop : r.stop = r.addr + r.size := rfl
    have hbstop : b.stop = b.addr + b.size := rfl
    calc h3.mem (q + i) = h2.mem (q + i) :=
          hf3.mem r ⟨hown2 r hr, by rw [hq]; exact hne⟩ _ (by omega) (by omega)
      _ = h1.mem (b.addr + 8 + i) := by
          rw [← hh2, ← hq]
          exact copyBytes_of_mem (by omega)
      _ = s.heap.mem (l.ptr + i) := by
          rw [← hptr]
          exact hf.mem b hb _ (by omega) (by omega)
  · intro l' hl' hne'
    have hall : Frame (fun c => Owned s.heap bs c ∧ c.addr + 8 ≠ l.ptr) s.heap h3 := by
      refine ((hf.mono fun c hc => hc.1).trans (hf2.mono fun c hc => hold c hc.1)).trans
        (hf3.mono fun c hc => ⟨hown2 c (hold c hc.1).1, hc.2⟩)
    exact hi.samePayload hall hl' fun c hc hcp => ⟨hc, by rw [hcp]; exact hne'⟩

/-- **`mm_realloc`** that meets the condition. -/
theorem SessionInv.realloc_call (hi : SessionInv s bs fl) (hl : l ∈ s.live) (hpos : 0 < size)
    (hs : size ≤ intMax) (hsafe : ReallocSafe s.heap l.ptr size) :
    ∃ q h', mmRealloc s.heap l.ptr size = some (q, h') ∧
      ((q = null ∧ h' = s.heap) ∨ (q ≠ null ∧ Moved s l q size h')) := by
  obtain ⟨b, hb, hptr, hlsize⟩ := hi.block_of_live l hl
  have hblock := hi.payloadToBlock hb.1 hptr
  have hbs : blockSize s.heap (Malloc.payloadToBlock l.ptr) = some b.size := by
    rw [hblock, hi.blockSize hb.1]
  have hne := hi.ptr_ne_null hl
  obtain ⟨h8, hpad, -, -⟩ := paddedSize_spec hs
  obtain ⟨csize, hcsize, hcase⟩ := hsafe
  obtain rfl : csize = b.size := Option.some.inj (hcsize.symm.trans hbs)
  by_cases hle : paddedSize size ≤ b.size
  · exact ⟨l.ptr, s.heap, mmRealloc_keep hpos hne hbs hle,
      Or.inr ⟨hne, hi.realloc_keep hb hptr (le_trans hpad hle)⟩⟩
  have hlt : b.size < paddedSize size := Nat.lt_of_not_le hle
  obtain ⟨⟨w, hw, hfit⟩, hcopy⟩ := hcase.resolve_left hle
  rw [hblock] at hcopy
  obtain ⟨q, h1, bs1, fl1, hrun1, hi1, ha, hf1, hfail⟩ := hi.malloc_call hs
  have hmove := mmRealloc_move hpos hne hbs hlt hw hfit hrun1
  by_cases hq : q = null
  · rw [if_pos hq] at hmove
    exact ⟨null, h1, hmove, Or.inl ⟨rfl, hfail hq⟩⟩
  rw [if_neg hq] at hmove
  obtain ⟨r, hra, hrs, hnew, hown⟩ := ha.owned hi.toLayoutInv hi1.toLayoutInv hf1.prologue hq
  have hr : Owned h1 bs1 r := (hown r).mpr (Or.inr rfl)
  have htag := copySafe_tag hi.toLayoutInv hi1.toLayoutInv hb h8 hlt hcopy ha hf1 hr hra
  have hlive : hold s.live q size = ⟨q, size⟩ :: s.live := if_neg hq
  rw [hlive] at hi1
  obtain ⟨h2, h3, hrun2, hrun3, hmoved⟩ := hi.copy_free hl hb hptr hlsize hi1 hf1
    (fun c hc => ⟨(hown c).mpr (Or.inl hc), fun heq => hnew c hc (by rw [heq])⟩) hr hra (by omega) htag
  refine ⟨q, h3, ?_, Or.inr ⟨hq, hmoved⟩⟩
  rw [hmove]
  simp only [hrun2, hrun3, Option.bind_eq_bind, Option.bind_some, Option.pure_def]

/-! ## Runs -/

/-- What a call of `mm_realloc` for the live block `l` must do. -/
def Reallocates (s : Session) (l : Live) (n : Nat) : Prop :=
  ∃ q h, mmRealloc s.heap l.ptr n = some (q, h) ∧ (∃ as fl, WellFormed h as fl) ∧
    ((q = null ∧ h = s.heap) ∨
      (q ≠ null ∧ (∃ m, blockSize h (payloadToBlock q) = some m ∧ n + tagsSize ≤ m) ∧
        (∀ i, i < min l.size n → h.mem (q + i) = s.heap.mem (l.ptr + i)) ∧
        ∀ l' ∈ s.live, l'.ptr ≠ l.ptr →
          Live.Disjoint ⟨q, n⟩ l' ∧ SamePayload s.heap h l'.ptr))

/-- The calls of `mm_realloc` that meet the condition, and all other calls. -/
def Call.Guarded (s : Session) : Call → Prop
  | .realloc ptr size => ptr = null ∨ size = 0 ∨ ReallocSafe s.heap ptr size
  | _ => True

/-- The runs all of whose calls of `mm_realloc` meet the condition. -/
def guardedClient (a : Arena) : System Session Call := (client a).restrict Call.Guarded

theorem mmRealloc_zero : mmRealloc h ptr 0 = (mmFree h ptr).bind fun h => some (null, h) := by
  unfold mmRealloc
  rw [if_pos (Nat.le_refl 0)]
  rfl

theorem mmRealloc_null (hpos : 0 < size) : mmRealloc h null size = mmMalloc h size := by
  unfold mmRealloc
  rw [if_neg (Nat.not_le.mpr hpos), if_pos rfl]

theorem SessionInv.realloc_exec (hi : SessionInv s bs fl) (hlegal : s.Legal (.realloc ptr size))
    (hg : Call.Guarded s (.realloc ptr size)) :
    ∃ s' bs' fl', s.exec (.realloc ptr size) = some s' ∧ SessionInv s' bs' fl' ∧
      s'.heap.memStartBrk = s.heap.memStartBrk := by
  obtain ⟨hptr, hs⟩ := hlegal
  rcases Nat.eq_zero_or_pos size with rfl | hpos
  · -- the block is freed
    rcases hptr with rfl | hp
    · refine ⟨s, bs, fl, ?_, hi, rfl⟩
      simp only [exec, mmRealloc_zero, mmFree_null, hi.drop_null, Option.bind_eq_bind,
        Option.bind_some, ↓reduceIte, Option.pure_def]
    · obtain ⟨h', bs', fl', hrun, hi', -, hf, -⟩ := hi.free_call hp
      refine ⟨_, bs', fl', ?_, hi', hf.start⟩
      simp only [exec, mmRealloc_zero, hrun, Option.bind_eq_bind, Option.bind_some, ↓reduceIte,
        Option.pure_def]
  · have hne : size ≠ 0 := hpos.ne'
    by_cases hnull : ptr = null
    · subst hnull
      obtain ⟨q, h', bs', fl', hrun, hi', -, hf, -⟩ := hi.malloc_call hs
      refine ⟨_, bs', fl', ?_, hi', hf.start⟩
      simp only [exec, mmRealloc_null hpos, hrun, hne, hi.drop_null, Option.bind_eq_bind,
        Option.bind_some, ↓reduceIte, Option.pure_def]
      by_cases hq : q = null
      · simp only [hq, hold, ↓reduceIte]
      · simp only [hq, ↓reduceIte]
    · obtain ⟨l, hl, rfl⟩ := hptr.resolve_left hnull
      have hsafe := (hg.resolve_left hnull).resolve_left hne
      obtain ⟨q, h', hrun, ⟨rfl, rfl⟩ | ⟨hq, hm⟩⟩ := hi.realloc_call hl hpos hs hsafe
      · refine ⟨s, bs, fl, ?_, hi, rfl⟩
        simp only [exec, hrun, hne, Option.bind_eq_bind, Option.bind_some, ↓reduceIte,
          Option.pure_def]
      · obtain ⟨bs', fl', hi'⟩ := hm.inv
        refine ⟨_, bs', fl', ?_, hi', hm.start⟩
        simp only [exec, hrun, hne, hq, hold, Option.bind_eq_bind, Option.bind_some, ↓reduceIte,
          Option.pure_def]

theorem SessionInv.guarded_call (hi : SessionInv s bs fl) {c : Call} (hg : c.Guarded s)
    (hlegal : s.Legal c) :
    ∃ s' bs' fl', s.exec c = some s' ∧ SessionInv s' bs' fl' ∧
      s'.heap.memStartBrk = s.heap.memStartBrk := by
  cases c with
  | realloc ptr size => exact hi.realloc_exec hlegal hg
  | malloc size => exact hi.basic_call trivial hlegal
  | free ptr => exact hi.basic_call trivial hlegal
  | write ptr i v => exact hi.basic_call trivial hlegal

theorem guardedClient_inv (hs : (guardedClient a).Reachable s) :
    ∃ bs fl, SessionInv s bs fl := by
  refine System.Reachable.rule (I := fun s => ∃ bs fl, SessionInv s bs fl) ⟨?_, ?_⟩ hs
  · rintro s ⟨mem, h, hrun, rfl⟩
    obtain ⟨bs, fl, hi, -⟩ := SessionInv.init hrun
    exact ⟨bs, fl, hi⟩
  · rintro s c s' ⟨bs, fl, hi⟩ ⟨hg, hlegal, hexec⟩
    obtain ⟨s'', bs', fl', hexec', hi', -⟩ := hi.guarded_call hg hlegal
    obtain rfl : s'' = s' := Option.some.inj (hexec'.symm.trans hexec)
    exact ⟨bs', fl', hi'⟩

theorem SessionInv.reallocates (hi : SessionInv s bs fl) (hl : l ∈ s.live) (hpos : 0 < size)
    (hs : size ≤ intMax) (hsafe : ReallocSafe s.heap l.ptr size) : Reallocates s l size := by
  obtain ⟨q, h', hrun, ⟨rfl, rfl⟩ | ⟨hq, hm⟩⟩ := hi.realloc_call hl hpos hs hsafe
  · exact ⟨null, s.heap, hrun, ⟨_, fl, hi.toHeapInv.wellFormed⟩, Or.inl ⟨rfl, rfl⟩⟩
  · obtain ⟨bs', fl', hi'⟩ := hm.inv
    obtain ⟨c, hc, hptr, hsize⟩ := hi'.block_of_live _ List.mem_cons_self
    refine ⟨q, h', hrun, ⟨_, fl', hi'.toHeapInv.wellFormed⟩, Or.inr ⟨hq, ⟨c.size, ?_, hsize⟩,
      hm.contents, fun l' hl' hne => ⟨?_, hm.others l' hl' hne⟩⟩⟩
    · rw [hi'.payloadToBlock hc.1 hptr]
      exact hi'.blockSize hc.1
    · have hpw := (List.pairwise_cons.mp hi'.pairwise).1
      exact hpw l' (mem_drop.mpr ⟨hl', hne⟩)

/-- **`mm_realloc` keeps its contract in every run whose calls of `mm_realloc`
meet the condition**, and all these runs go on. -/
theorem guardedClient_realloc (hs : (guardedClient a).Reachable s) :
    (∃ as fl, WellFormed s.heap as fl) ∧
      (∀ c : Call, c.Guarded s → s.Legal c → (s.exec c).isSome = true) ∧
      ∀ l ∈ s.live, ∀ n, 0 < n → n ≤ intMax → ReallocSafe s.heap l.ptr n → Reallocates s l n := by
  obtain ⟨bs, fl, hi⟩ := guardedClient_inv hs
  refine ⟨⟨_, fl, hi.toHeapInv.wellFormed⟩, fun c hg hlegal => ?_,
    fun l hl n hpos hn hsafe => hi.reallocates hl hpos hn hsafe⟩
  obtain ⟨s', bs', fl', hexec, -⟩ := hi.guarded_call hg hlegal
  rw [hexec]
  rfl

theorem guardedClient_of_basic (hs : (basicClient a).Reachable s) : (guardedClient a).Reachable s := by
  refine hs.restrict_mono fun s c hc => ?_
  cases c with
  | realloc ptr size => exact hc.elim
  | malloc size => trivial
  | free ptr => trivial
  | write ptr i v => trivial

/-- A payload of zeros, grown by a copy. -/
theorem smallArena_realloc : ∃ s, script smallArena [.malloc 24, .malloc 8] = some s ∧
    Reallocates s ⟨4168, 24⟩ 100 := by
  have hrun : ((script smallArena [.malloc 24, .malloc 8]).any fun s =>
      ⟨4168, 24⟩ ∈ s.live ∧ blockSize s.heap (payloadToBlock 4168) = some 40 ∧
        blockNextSize s.heap 4168 = some 0 ∧ wadd 40 0 < paddedSize 100 ∧
        40 + 8 < paddedSize 100) = true := by decide +kernel
  obtain ⟨s, hs, hst⟩ := (Option.any_eq_true _ _).mp hrun
  obtain ⟨hl, hsize, hnext, hfit, hcopy⟩ := of_decide_eq_true hst
  have hreach := guardedClient_of_basic (script_reachable (by simp [Call.Basic]) hs)
  have hsafe : ReallocSafe s.heap 4168 100 := ⟨40, hsize, Or.inr ⟨⟨0, hnext, hfit⟩, Or.inl hcopy⟩⟩
  exact ⟨s, hs, (guardedClient_realloc hreach).2.2 _ hl 100 (by decide) (by decide) hsafe⟩

/-- A client that stores 32 in its first word, in an allocated block in front of
the epilogue: the assertion of `pull_free_block` fails on the epilogue. -/
theorem mmRealloc_payload_decides : ¬ ∀ (a : Arena) (s : Session), (client a).Reachable s →
    ∀ l ∈ s.live, ∀ n, 0 < n → n ≤ intMax → Reallocates s l n := by
  intro hall
  have hrun : ((script smallArena [.malloc 24, .write 4168 0 32]).any fun s =>
      ⟨4168, 24⟩ ∈ s.live ∧ (mmRealloc s.heap 4168 40).isNone) = true := by decide +kernel
  obtain ⟨s, hs, hst⟩ := (Option.any_eq_true _ _).mp hrun
  obtain ⟨hl, hnone⟩ := of_decide_eq_true hst
  have hreach := (script_reachable (by simp [Call.Basic]) hs).of_restrict
  obtain ⟨q, h, hrun', -⟩ := hall _ s hreach _ hl 40 (by decide) (by decide)
  have hrun'' : mmRealloc s.heap 4168 40 = some (q, h) := hrun'
  rw [hrun''] at hnone
  cases hnone

-- the copy of 40 bytes into a block of 48 puts the next header, 121, over the end tag
example : ((script smallArena [.malloc 24, .malloc 100, .realloc 4168 32]).any fun s =>
    blockSize s.heap 4320 = some 48 ∧ blockEndSize s.heap 4320 = some 120) = true := by
  decide +kernel

end CourseProjects.Malloc

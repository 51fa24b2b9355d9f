import CourseProjects.Malloc.Ownership
import CourseProjects.Malloc.Session

/-!
# The invariant of a run

`SessionInv` ties the client's payloads to the blocks of the heap. Each kind of
call has a step lemma that says that the call returns, that the invariant holds
again and which blocks keep their bytes; `basicClient_inv` is the run lemma for
`mm_malloc` and `mm_free`.
-/

namespace CourseProjects.Malloc

open Transition Session

variable {s s' : Session} {h h' : Heap} {q size ptr : Nat} {b c : Block} {bs bs' : List Block}
  {fl fl' : List Nat} {l : Live} {live : List Live} {a : Arena}

/-- **The invariant of a run.** -/
structure SessionInv (s : Session) (bs : List Block) (fl : List Nat) : Prop
    extends HeapInv s.heap bs fl where
  coalesced : Coalesced bs
  grown : s.heap.memStartBrk + 96 ≤ s.heap.memBrk
  nodup : (s.live.map Live.ptr).Nodup
  block_of_live : ∀ l ∈ s.live, ∃ c, Owned s.heap bs c ∧ c.addr + 8 = l.ptr ∧ l.size + 16 ≤ c.size
  live_of_block : ∀ c, Owned s.heap bs c → ∃ l ∈ s.live, l.ptr = c.addr + 8

theorem SessionInv.ptr_ne_null (hi : SessionInv s bs fl) (hl : l ∈ s.live) : l.ptr ≠ null := by
  obtain ⟨c, -, hptr, -⟩ := hi.block_of_live l hl
  rw [← hptr]
  exact Nat.succ_ne_zero _

/-- The block of a payload. -/
theorem SessionInv.payloadToBlock (hi : SessionInv s bs fl) (hc : c ∈ bs) (hptr : c.addr + 8 = ptr) :
    payloadToBlock ptr = c.addr := by
  have hin := (hi.inArena hc).1
  have := c.size_ge
  rw [← hptr]
  exact payloadToBlock_eq hi.placed ⟨hin.1, le_trans (by omega) hin.2⟩

/-! ## mm_init -/

theorem LayoutInv.three_le {p n : Block} (hi : LayoutInv h [p, b, n]) :
    h.memStartBrk + 96 ≤ h.memBrk := by
  obtain ⟨hp, hb, hn, hend⟩ := hi.tiles
  have := p.size_ge
  have := b.size_ge
  have := n.size_ge
  have hend' : n.stop = h.memBrk := hend
  unfold Block.stop at *
  omega

/-- The heap as `mm_init` leaves it. -/
theorem SessionInv.initial {p f e : Block} (hi : HeapInv h [p, f, e] fl) (hfree : f.alloc = false) :
    SessionInv ⟨h, []⟩ [p, f, e] fl := by
  have hp : p = prologueBlock h := by simpa using hi.head
  have he : e = epilogueBlock h := by simpa using hi.last
  refine ⟨hi, ?_, hi.three_le, by simp, by simp, fun c hc => ?_⟩
  · have hpa : p.alloc = true := by rw [hp]; rfl
    have hea : e.alloc = true := by rw [he]; rfl
    exact List.isChain_cons_cons.mpr ⟨Or.inl hpa, List.isChain_pair.mpr (Or.inr hea)⟩
  · obtain ⟨hmem, halloc, hcp, hce⟩ := hc
    simp only [List.mem_cons, List.not_mem_nil, or_false] at hmem
    rcases hmem with rfl | rfl | rfl
    · exact absurd (congrArg Block.addr hp) hcp
    · rw [hfree] at halloc
      cases halloc
    · exact absurd (congrArg Block.addr he) hce

theorem SessionInv.init {mem : Bytes.Memory} (hrun : mmInit (memInit a mem) = some (0, h)) :
    ∃ bs fl, SessionInv ⟨h, []⟩ bs fl ∧ h.memStartBrk = a.start := by
  obtain ⟨h', p, f, e, hrun', hi, hstart, hfree⟩ := mmInit_spec a mem
  obtain rfl : h' = h := by simpa [hrun'] using hrun
  exact ⟨[p, f, e], [f.addr], .initial hi hfree, hstart⟩

/-! ## mm_malloc -/

theorem SessionInv.malloc_call (hi : SessionInv s bs fl) (hs : size ≤ intMax) :
    ∃ q h' bs' fl', mmMalloc s.heap size = some (q, h') ∧
      SessionInv ⟨h', hold s.live q size⟩ bs' fl' ∧ Allocated s.heap (paddedSize size) bs q bs' ∧
      Frame (Owned s.heap bs) s.heap h' ∧ (q = null → h' = s.heap) := by
  obtain ⟨q, h', bs', fl', hrun, hi', ha, hf, hfail⟩ := mmMalloc_spec hi.toHeapInv hs
  have hf' : Frame (Owned s.heap bs) s.heap h' := hf.mono fun c hc => ⟨hc.1, hc.2.1, hc.2.2.2⟩
  refine ⟨q, h', bs', fl', hrun, ?_, ha, hf', hfail⟩
  have hco := ha.coalesced hi.toLayoutInv hi.coalesced
  have hgrown : h'.memStartBrk + 96 ≤ h'.memBrk := by
    rw [hf.start]
    exact le_trans hi.grown hf.brk
  by_cases hq : q = null
  · have hown : ∀ c, Owned h' bs' c ↔ Owned s.heap bs c := by
      cases ha with
      | fail => rw [hfail hq]; exact fun _ => Iff.rfl
      | extend => exact absurd hq (Nat.succ_ne_zero _)
      | carve => exact absurd hq (Nat.succ_ne_zero _)
    have hlive : hold s.live q size = s.live := if_pos hq
    rw [hlive]
    refine ⟨hi', hco, hgrown, hi.nodup, fun l hl => ?_, fun c hc => hi.live_of_block c ((hown c).mp hc)⟩
    obtain ⟨c, hc, hptr⟩ := hi.block_of_live l hl
    exact ⟨c, (hown c).mpr hc, hptr⟩
  · obtain ⟨r, hra, hrs, hnew, hown⟩ := ha.owned hi.toLayoutInv hi'.toLayoutInv hf.prologue hq
    have hlive : hold s.live q size = ⟨q, size⟩ :: s.live := if_neg hq
    have hpad := (paddedSize_spec hs).2.1
    rw [hlive]
    refine ⟨hi', hco, hgrown, List.nodup_cons.mpr ⟨?_, hi.nodup⟩, ?_, ?_⟩
    · intro hmem
      obtain ⟨l, hl, hlq⟩ := List.mem_map.mp hmem
      obtain ⟨c, hc, hptr, -⟩ := hi.block_of_live l hl
      have hlq' : l.ptr = q := hlq
      exact hnew c hc (by omega)
    · rintro l (_ | ⟨_, hl⟩)
      · exact ⟨r, (hown r).mpr (Or.inr rfl), hra, le_trans hpad hrs⟩
      · obtain ⟨c, hc, hptr⟩ := hi.block_of_live l hl
        exact ⟨c, (hown c).mpr (Or.inl hc), hptr⟩
    · intro c hc
      rcases (hown c).mp hc with hc | rfl
      · obtain ⟨l, hl, hptr⟩ := hi.live_of_block c hc
        exact ⟨l, List.mem_cons_of_mem _ hl, hptr⟩
      · exact ⟨⟨q, size⟩, List.mem_cons_self, hra.symm⟩

/-! ## mm_free -/

theorem mem_drop : l ∈ drop live ptr ↔ l ∈ live ∧ l.ptr ≠ ptr := by
  simp [drop]

theorem SessionInv.drop_null (hi : SessionInv s bs fl) : drop s.live null = s.live := by
  refine List.filter_eq_self.mpr fun l hl => ?_
  simpa using hi.ptr_ne_null hl

theorem mmFree_null : mmFree h null = some h := by
  simp [mmFree]

/-- `mm_free` of a payload the client holds. -/
theorem SessionInv.free_call (hi : SessionInv s bs fl) (hp : s.Holds ptr) :
    ∃ h' bs' fl', mmFree s.heap ptr = some h' ∧ SessionInv ⟨h', drop s.live ptr⟩ bs' fl' ∧
      (∀ c, Owned h' bs' c ↔ Owned s.heap bs c ∧ c.addr + 8 ≠ ptr) ∧
      Frame (fun c => Owned s.heap bs c ∧ c.addr + 8 ≠ ptr) s.heap h' ∧
      h'.memBrk = s.heap.memBrk := by
  obtain ⟨l, hl, rfl⟩ := hp
  obtain ⟨b, hb, hptr, -⟩ := hi.block_of_live l hl
  obtain ⟨hmem, halloc, hbp, hbe⟩ := hb
  obtain ⟨L, p, n, R, rfl⟩ := hi.interior hmem hbp hbe
  obtain ⟨h', hrun, hi', hk⟩ := mmFree_spec hi.toHeapInv halloc
  have haddr : ∀ c ∈ L ++ p :: b :: n :: R, c.addr + 8 ≠ l.ptr ↔ c ≠ b := by
    intro c hc
    constructor
    · rintro hne rfl
      exact hne hptr
    · intro hne heq
      exact hne (hi.tiles.eq_of_addr hc hmem (by omega))
  have hown : ∀ c, Owned h' (L ++ merged p (b.setAlloc false) n ++ R) c ↔
      Owned s.heap (L ++ p :: b :: n :: R) c ∧ c.addr + 8 ≠ l.ptr := by
    intro c
    rw [merged_owned hi.toLayoutInv hi'.toLayoutInv hk.prologue hk.epilogue]
    exact and_congr_right fun hc => (haddr c hc.1).symm
  refine ⟨h', _, _, hptr ▸ hrun, ⟨hi', merged_coalesced hi.coalesced, ?_, ?_, ?_, ?_⟩, hown, ?_,
    hk.brk⟩
  · show h'.memStartBrk + 96 ≤ h'.memBrk
    rw [hk.start, hk.brk]
    exact hi.grown
  · exact hi.nodup.sublist (List.filter_sublist.map _)
  · intro l' hl'
    obtain ⟨hl', hne⟩ := mem_drop.mp hl'
    obtain ⟨c, hc, hcl⟩ := hi.block_of_live l' hl'
    exact ⟨c, (hown c).mpr ⟨hc, by rw [hcl.1]; exact hne⟩, hcl⟩
  · intro c hc
    obtain ⟨hc, hne⟩ := (hown c).mp hc
    obtain ⟨l', hl', hcl⟩ := hi.live_of_block c hc
    exact ⟨l', mem_drop.mpr ⟨hl', by rw [hcl]; exact hne⟩, hcl⟩
  · refine hk.frame.mono fun c hc => ⟨?_, hc.1.2.1⟩
    have hcb := (haddr c hc.1.1).mp hc.2
    have := hc.1.1
    simp only [List.mem_append, List.mem_cons] at this ⊢
    tauto

/-! ## Writes of the client -/

/-- The bytes between the tags of an allocated block are no tag and no link. -/
theorem HeapInv.fill (hi : HeapInv h bs fl) (hb : b ∈ bs) (halloc : b.alloc = true)
    {m : Bytes.Memory} (hm : ∀ x, ¬ (b.addr + 8 ≤ x ∧ x + 8 < b.stop) → m x = h.mem x) :
    HeapInv { h with mem := m } bs fl := by
  have hk : Keeps {x | b.addr + 8 ≤ x ∧ x + 8 < b.stop} h { h with mem := m } :=
    ⟨rfl, rfl, rfl, rfl, rfl, hm⟩
  have htags : ∀ c ∈ bs, Tagged m c := by
    intro c hc
    refine (hi.tagged c hc).frame hk fun y hy => ?_
    obtain ⟨hy1, hy2⟩ : b.addr + 8 ≤ y ∧ y + 8 < b.stop := hy
    rcases hi.tiles.disjoint hb hc with rfl | hbc
    · omega
    · unfold Block.stop at *
      omega
  refine ⟨⟨hi.placed.of_brk rfl rfl rfl, hi.tiles, hi.two, hi.head, hi.last, htags⟩,
    hi.free.frame hk rfl (fun a ha => ?_) fun y hy a ha => ?_, hi.mem_free⟩
  · obtain ⟨c, hc, rfl, hfree⟩ := (hi.mem_free a).mp ha
    rw [(htags c hc).header, c.tag_mod, hfree]
    rfl
  · obtain ⟨c, hc, rfl, hfree⟩ := (hi.mem_free a).mp ha
    obtain ⟨hy1, hy2⟩ : b.addr + 8 ≤ y ∧ y + 8 < b.stop := hy
    have := c.size_ge
    rcases hi.tiles.disjoint hb hc with rfl | hbc
    · rw [halloc] at hfree
      cases hfree
    · unfold Block.stop at *
      omega

/-- The memory of the run changes between the tags of one of the client's blocks. -/
theorem SessionInv.fill (hi : SessionInv s bs fl) (hc : Owned s.heap bs c) {m : Bytes.Memory}
    (hm : ∀ x, ¬ (c.addr + 8 ≤ x ∧ x + 8 < c.stop) → m x = s.heap.mem x) :
    SessionInv ⟨{ s.heap with mem := m }, s.live⟩ bs fl :=
  ⟨hi.toHeapInv.fill hc.1 hc.2.1 hm, hi.coalesced, hi.grown, hi.nodup, hi.block_of_live,
    hi.live_of_block⟩

theorem SessionInv.write_call (hi : SessionInv s bs fl) {i : Nat} {v : UInt8}
    (hlegal : s.Legal (.write ptr i v)) :
    SessionInv ⟨{ s.heap with mem := Bytes.setByte s.heap.mem (ptr + i) v }, s.live⟩ bs fl := by
  obtain ⟨⟨l, hl, rfl⟩, n, hn, hin⟩ := hlegal
  obtain ⟨c, hc, hptr, -⟩ := hi.block_of_live l hl
  rw [hi.payloadToBlock hc.1 hptr, hi.blockSize hc.1] at hn
  obtain rfl := Option.some.inj hn
  have htags : tagsSize = 16 := rfl
  refine hi.fill hc fun x hx => Bytes.setByte_of_ne ?_
  unfold Block.stop at hx
  omega

/-! ## Runs -/

/-- Every legal call of a run without `mm_realloc` returns and keeps the invariant. -/
theorem SessionInv.basic_call (hi : SessionInv s bs fl) {c : Call} (hb : c.Basic)
    (hlegal : s.Legal c) :
    ∃ s' bs' fl', s.exec c = some s' ∧ SessionInv s' bs' fl' ∧
      s'.heap.memStartBrk = s.heap.memStartBrk := by
  cases c with
  | malloc size =>
    obtain ⟨q, h', bs', fl', hrun, hi', -, hf, -⟩ := hi.malloc_call hlegal
    refine ⟨_, bs', fl', ?_, hi', hf.start⟩
    simp only [exec, hrun, Option.bind_eq_bind, Option.bind_some, Option.pure_def]
  | free ptr =>
    rcases hlegal with rfl | hp
    · refine ⟨s, bs, fl, ?_, hi, rfl⟩
      simp only [exec, mmFree_null, hi.drop_null, Option.bind_eq_bind, Option.bind_some,
        Option.pure_def]
    · obtain ⟨h', bs', fl', hrun, hi', -, hf, -⟩ := hi.free_call hp
      refine ⟨_, bs', fl', ?_, hi', hf.start⟩
      simp only [exec, hrun, Option.bind_eq_bind, Option.bind_some, Option.pure_def]
  | realloc ptr size => exact hb.elim
  | write ptr i v => exact ⟨_, bs, fl, rfl, hi.write_call hlegal, rfl⟩

/-- **Runs of `mm_malloc` and `mm_free`** keep the invariant. -/
theorem basicClient_inv (hs : (basicClient a).Reachable s) :
    ∃ bs fl, SessionInv s bs fl ∧ s.heap.memStartBrk = a.start := by
  refine System.Reachable.rule (I := fun s => ∃ bs fl, SessionInv s bs fl ∧ s.heap.memStartBrk = a.start)
    ⟨?_, ?_⟩ hs
  · rintro s ⟨mem, h, hrun, rfl⟩
    exact SessionInv.init hrun
  · rintro s c s' ⟨bs, fl, hi, hstart⟩ ⟨hb, hlegal, hexec⟩
    obtain ⟨s'', bs', fl', hexec', hi', hstart'⟩ := hi.basic_call hb hlegal
    obtain rfl : s'' = s' := Option.some.inj (hexec'.symm.trans hexec)
    exact ⟨bs', fl', hi', hstart'.trans hstart⟩

end CourseProjects.Malloc

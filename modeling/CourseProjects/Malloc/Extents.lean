import CourseProjects.Lib.Gap
import CourseProjects.Malloc.WellFormed

/-!
# Free extents

No two neighbours are free, so the free blocks are the maximal gaps between the
allocated ones: the history of a run matters only through the blocks that are
still live and the break.
-/

namespace CourseProjects.Malloc

open Transition Session Intervals

variable {s t : Session} {h : Heap} {bs L R : List Block} {b c : Block} {fl : List Nat}
  {a e x : Nat} {ar : Arena}

/-- The walk from the first byte of the heap meets a block at `b`. -/
def OnWalk (h : Heap) (b : Nat) : Prop := ∃ as, Walk h (memHeapLo h) as h.memBrk ∧ b ∈ as

/-- Address and size of the free blocks. -/
def freeExtents (h : Heap) : Set (Nat × Nat) :=
  {e | OnWalk h e.1 ∧ blockAllocated h e.1 = some false ∧ blockSize h e.1 = some e.2}

/-- Address and size of the client's blocks. -/
def liveExtents (s : Session) : Set (Nat × Nat) :=
  {e | ∃ l ∈ s.live, e.1 = payloadToBlock l.ptr ∧ blockSize s.heap e.1 = some e.2}

/-- The bytes of prologue, epilogue and the client's blocks. -/
def allocatedBytes (s : Session) : Set Nat :=
  {x | (s.heap.prologue ≤ x ∧ x < s.heap.prologue + minBlockSize) ∨
    (s.heap.epilogue ≤ x ∧ x < s.heap.epilogue + minBlockSize) ∨
    ∃ e ∈ liveExtents s, e.1 ≤ x ∧ x < e.1 + e.2}

/-! ## The code's view and the layout -/

/-- The walk is determined by the sizes in the headers. -/
theorem Tiles.walk_unique (ht : Tiles a bs e) (hnext : ∀ b ∈ bs, blockNext h b.addr = some b.stop)
    {as : List Nat} (hw : Walk h a as e) : as = bs.map Block.addr := by
  induction bs generalizing a as with
  | nil =>
    cases as with
    | nil => rfl
    | cons b as =>
      obtain ⟨rfl, hlt, -⟩ := hw
      exact absurd (show a = e from ht) hlt.ne
  | cons b bs ih =>
    cases as with
    | nil =>
      have hlt := ht.lt_of_mem List.mem_cons_self
      rw [ht.1] at hlt
      exact absurd (show a = e from hw) hlt.ne
    | cons c as =>
      obtain ⟨rfl, -, d, hd, hw⟩ := hw
      rw [← ht.1, hnext b List.mem_cons_self] at hd
      obtain rfl := Option.some.inj hd
      rw [List.map_cons, ht.1, ih ht.2 (fun c hc => hnext c (List.mem_cons_of_mem _ hc)) hw]

theorem LayoutInv.onWalk (hi : LayoutInv h bs) {b : Nat} :
    OnWalk h b ↔ ∃ c ∈ bs, c.addr = b := by
  constructor
  · rintro ⟨as, hw, hb⟩
    rw [hi.tiles.walk_unique (fun c hc => hi.blockNext hc) hw] at hb
    exact List.mem_map.mp hb
  · rintro ⟨c, hc, rfl⟩
    exact ⟨_, hi.tiles.walk fun c hc => hi.blockNext hc, List.mem_map_of_mem hc⟩

theorem LayoutInv.mem_freeExtents (hi : LayoutInv h bs) {x : Nat × Nat} :
    x ∈ freeExtents h ↔ ∃ c ∈ bs, c.alloc = false ∧ x = (c.addr, c.size) := by
  constructor
  · rintro ⟨hw, halloc, hsize⟩
    obtain ⟨c, hc, hcx⟩ := hi.onWalk.mp hw
    rw [← hcx, hi.blockAllocated hc] at halloc
    rw [← hcx, hi.blockSize hc] at hsize
    exact ⟨c, hc, Option.some.inj halloc, Prod.ext hcx.symm (Option.some.inj hsize).symm⟩
  · rintro ⟨c, hc, hfree, rfl⟩
    exact ⟨hi.onWalk.mpr ⟨c, hc, rfl⟩, by rw [hi.blockAllocated hc, hfree], hi.blockSize hc⟩

theorem SessionInv.mem_liveExtents (hi : SessionInv s bs fl) {x : Nat × Nat} :
    x ∈ liveExtents s ↔ ∃ c, Owned s.heap bs c ∧ x = (c.addr, c.size) := by
  constructor
  · rintro ⟨l, hl, hx, hsize⟩
    obtain ⟨c, hc, hptr, -⟩ := hi.block_of_live l hl
    rw [hi.payloadToBlock hc.1 hptr] at hx
    rw [hx, hi.blockSize hc.1] at hsize
    exact ⟨c, hc, Prod.ext hx (Option.some.inj hsize).symm⟩
  · rintro ⟨c, hc, rfl⟩
    obtain ⟨l, hl, hptr⟩ := hi.live_of_block c hc
    exact ⟨l, hl, (hi.payloadToBlock hc.1 hptr.symm).symm, hi.blockSize hc.1⟩

/-- The allocated bytes are those of the blocks marked allocated. -/
theorem SessionInv.mem_allocatedBytes (hi : SessionInv s bs fl) :
    x ∈ allocatedBytes s ↔ ∃ c ∈ bs, c.alloc = true ∧ c.addr ≤ x ∧ x < c.stop := by
  constructor
  · rintro (hx | hx | ⟨e, he, hx⟩)
    · exact ⟨_, hi.prologue_mem, rfl, hx⟩
    · exact ⟨_, hi.epilogue_mem, rfl, hx⟩
    · obtain ⟨c, hc, rfl⟩ := hi.mem_liveExtents.mp he
      exact ⟨c, hc.1, hc.2.1, hx⟩
  · rintro ⟨c, hc, halloc, hx⟩
    by_cases hp : c.addr = s.heap.prologue
    · have hcp := hi.tiles.eq_of_addr hc hi.prologue_mem hp
      exact Or.inl (by subst hcp; exact hx)
    · by_cases he : c.addr = s.heap.epilogue
      · have hce := hi.tiles.eq_of_addr hc hi.epilogue_mem he
        exact Or.inr (Or.inl (by subst hce; exact hx))
      · exact Or.inr (Or.inr ⟨_, hi.mem_liveExtents.mpr ⟨c, ⟨hc, halloc, hp, he⟩, rfl⟩, hx⟩)

/-! ## Free blocks are gaps -/

theorem Tiles.cover (ht : Tiles a bs e) (hx : a ≤ x ∧ x < e) :
    ∃ c ∈ bs, c.addr ≤ x ∧ x < c.stop := by
  induction bs generalizing a with
  | nil =>
    have : a = e := ht
    omega
  | cons b bs ih =>
    by_cases hb : x < b.stop
    · exact ⟨b, List.mem_cons_self, by rw [ht.1]; exact hx.1, hb⟩
    · obtain ⟨c, hc, hcx⟩ := ih ht.2 ⟨by omega, hx.2⟩
      exact ⟨c, List.mem_cons_of_mem _ hc, hcx⟩

/-- A free block with its neighbours, which are allocated. -/
theorem SessionInv.neighbours (hi : SessionInv s bs fl) (hb : b ∈ bs) (hfree : b.alloc = false) :
    ∃ L p n R, bs = L ++ p :: b :: n :: R ∧ p.alloc = true ∧ n.alloc = true := by
  obtain ⟨hp, he⟩ := hi.free_interior hb hfree
  obtain ⟨L, p, n, R, rfl⟩ := hi.interior hb hp he
  obtain ⟨-, hpb, -⟩ := coalesced_append.mp hi.coalesced
  obtain ⟨hleft, hbn⟩ := List.isChain_cons_cons.mp hpb
  have hright := (List.isChain_cons_cons.mp hbn).1
  exact ⟨L, p, n, R, rfl, by simpa [hfree] using hleft, by simpa [hfree] using hright⟩

/-- **A free block is a maximal gap.** -/
theorem SessionInv.gap (hi : SessionInv s bs fl) (hb : b ∈ bs) (hfree : b.alloc = false) :
    Gap (allocatedBytes s) b.addr b.size := by
  obtain ⟨L, p, n, R, rfl, hp, hn⟩ := hi.neighbours hb hfree
  obtain ⟨-, hadj1, hadj2, -⟩ := tiles_mid.mp hi.tiles
  have := b.size_ge
  have := p.size_ge
  have := n.size_ge
  refine ⟨by omega, fun x hx hx' hxA => ?_, ⟨p.stop - 1, ?_, ?_⟩, ?_⟩
  · obtain ⟨c, hc, halloc, hcx⟩ := hi.mem_allocatedBytes.mp hxA
    rcases hi.tiles.disjoint hb hc with rfl | hbc
    · rw [halloc] at hfree
      cases hfree
    · unfold Block.stop at *
      omega
  · refine hi.mem_allocatedBytes.mpr ⟨p, by simp, hp, ?_, ?_⟩ <;> unfold Block.stop <;> omega
  · unfold Block.stop at *
    omega
  · refine hi.mem_allocatedBytes.mpr ⟨n, by simp, hn, ?_, ?_⟩ <;> unfold Block.stop at * <;> omega

/-- The free extents are the maximal gaps between the allocated blocks. -/
theorem SessionInv.freeExtents_eq (hi : SessionInv s bs fl) :
    freeExtents s.heap = {e | Gap (allocatedBytes s) e.1 e.2} := by
  ext ⟨u, n⟩
  constructor
  · intro hx
    obtain ⟨c, hc, hfree, heq⟩ := hi.mem_freeExtents.mp hx
    rw [heq]
    exact hi.gap hc hfree
  · intro hgap
    have hgap' : Gap (allocatedBytes s) u n := hgap
    obtain ⟨v, hv, hvu⟩ := hgap'.before
    obtain ⟨p, hp, -, hpv⟩ := hi.mem_allocatedBytes.mp hv
    obtain ⟨q, hq, -, hqe⟩ := hi.mem_allocatedBytes.mp hgap'.after
    have hpb := hi.tiles.bounds hp
    have hqb := hi.tiles.bounds hq
    have hn := hgap'.pos
    obtain ⟨c, hc, hcu⟩ := hi.tiles.cover (show s.heap.memStartBrk ≤ u ∧ u < s.heap.memBrk by omega)
    have hfree : c.alloc = false := by
      by_contra halloc
      have halloc' : c.alloc = true := by simpa using halloc
      exact hgap'.outside u (le_refl u) (by omega) (hi.mem_allocatedBytes.mpr ⟨c, hc, halloc', hcu⟩)
    obtain ⟨rfl, rfl⟩ := hgap'.eq_of_mem (hi.gap hc hfree) ⟨le_refl u, by omega⟩ hcu
    exact hi.mem_freeExtents.mpr ⟨c, hc, hfree, rfl⟩

/-! ## Runs -/

/-- Next to a free block is an allocated one. -/
theorem SessionInv.adjacent (hi : SessionInv s bs fl) {u v : Nat} (hu : OnWalk s.heap u)
    (hnext : blockNext s.heap u = some v) (hv : OnWalk s.heap v) :
    blockAllocated s.heap u = some true ∨ blockAllocated s.heap v = some true := by
  obtain ⟨b, hb, rfl⟩ := hi.onWalk.mp hu
  obtain ⟨c, hc, rfl⟩ := hi.onWalk.mp hv
  rw [hi.blockNext hb] at hnext
  have hstop := Option.some.inj hnext
  rw [hi.blockAllocated hb, hi.blockAllocated hc]
  cases hfree : b.alloc with
  | true => exact Or.inl rfl
  | false =>
    obtain ⟨L, p, n, R, rfl, -, hn⟩ := hi.neighbours hb hfree
    obtain ⟨-, -, hadj, -⟩ := tiles_mid.mp hi.tiles
    have hcn : c = n := hi.tiles.eq_of_addr hc (by simp) (by rw [← hstop, hadj])
    exact Or.inr (by rw [hcn, hn])

/-- The allocated bytes are determined by the break and the client's blocks. -/
theorem allocatedBytes_congr (hp : t.heap.prologue = s.heap.prologue)
    (he : t.heap.epilogue = s.heap.epilogue) (hl : liveExtents t = liveExtents s) :
    allocatedBytes t = allocatedBytes s := by
  unfold allocatedBytes
  rw [hp, he, hl]

/-- With nothing live there is one gap. -/
theorem SessionInv.gap_of_empty (hi : SessionInv s bs fl) (hl : s.live = []) {u n : Nat} :
    Gap (allocatedBytes s) u n ↔ u = s.heap.prologue + minBlockSize ∧
      n = s.heap.epilogue - (s.heap.prologue + minBlockSize) := by
  have hstart := hi.prologue_start
  have hend := hi.epilogue_end
  have hgrown := hi.grown
  have hmin : minBlockSize = 32 := rfl
  have hmem : ∀ x, x ∈ allocatedBytes s ↔
      (s.heap.prologue ≤ x ∧ x < s.heap.prologue + 32) ∨
        (s.heap.epilogue ≤ x ∧ x < s.heap.epilogue + 32) := by
    intro x
    constructor
    · rintro (hx | hx | ⟨e, ⟨l, hmem, -⟩, -⟩)
      · exact Or.inl hx
      · exact Or.inr hx
      · rw [hl] at hmem
        cases hmem
    · rintro (hx | hx)
      · exact Or.inl hx
      · exact Or.inr (Or.inl hx)
  have hgap : Gap (allocatedBytes s) (s.heap.prologue + 32)
      (s.heap.epilogue - (s.heap.prologue + 32)) := by
    refine ⟨by omega, fun x hx hx' hxA => ?_, ⟨s.heap.prologue + 31, ?_, rfl⟩, ?_⟩
    · have := (hmem x).mp hxA
      omega
    · exact (hmem _).mpr (by omega)
    · exact (hmem _).mpr (by omega)
  rw [hmin]
  constructor
  · intro hg
    have hpos := hg.pos
    obtain ⟨v, hv, rfl⟩ := hg.before
    have hv' := (hmem v).mp hv
    have hafter := (hmem _).mp hg.after
    have hfirst : v + 1 ∉ allocatedBytes s := hg.outside _ (le_refl _) (by omega)
    rw [hmem] at hfirst
    refine hg.eq_of_mem hgap (x := v + 1) ⟨le_refl _, by omega⟩ ?_
    omega
  · rintro ⟨rfl, rfl⟩
    exact hgap

/-- **Full coalescing.** No two neighbours are free; the free extents are the
maximal gaps between the allocated blocks, so they depend on the break and the
live blocks only; and with nothing live one free block spans the heap. -/
theorem basicClient_coalesced (hs : (basicClient ar).Reachable s) :
    (∀ u v, OnWalk s.heap u → blockNext s.heap u = some v → OnWalk s.heap v →
        blockAllocated s.heap u = some true ∨ blockAllocated s.heap v = some true) ∧
      freeExtents s.heap = {e | Gap (allocatedBytes s) e.1 e.2} ∧
      (∀ t, (basicClient ar).Reachable t → t.heap.memBrk = s.heap.memBrk →
        liveExtents t = liveExtents s → freeExtents t.heap = freeExtents s.heap) ∧
      (s.live = [] → freeExtents s.heap =
        {(s.heap.prologue + minBlockSize,
          s.heap.epilogue - (s.heap.prologue + minBlockSize))}) := by
  obtain ⟨bs, fl, hi, hstart⟩ := basicClient_inv hs
  refine ⟨fun u v hu hnext hv => hi.adjacent hu hnext hv, hi.freeExtents_eq,
    fun t ht hbrk hlive => ?_, fun hl => ?_⟩
  · obtain ⟨bs', fl', hi', hstart'⟩ := basicClient_inv ht
    have hpro : t.heap.prologue = s.heap.prologue := by
      rw [hi'.prologue_start, hi.prologue_start, hstart', hstart]
    have hepi : t.heap.epilogue = s.heap.epilogue := by
      have := hi'.epilogue_end
      have := hi.epilogue_end
      omega
    rw [hi'.freeExtents_eq, hi.freeExtents_eq, allocatedBytes_congr hpro hepi hlive]
  · rw [hi.freeExtents_eq]
    ext ⟨u, n⟩
    exact (hi.gap_of_empty hl).trans Prod.mk_inj.symm

/-- Both blocks freed, in either order. -/
def smallFreed (first second : Nat) : List Call :=
  [.malloc 24, .malloc 8, .free first, .free second]

theorem smallFreed_coalesced : ∃ s t, script smallArena (smallFreed 4168 4136) = some s ∧
    script smallArena (smallFreed 4136 4168) = some t ∧ s.live = [] ∧
      freeExtents t.heap = freeExtents s.heap ∧
      freeExtents s.heap = {(s.heap.prologue + minBlockSize,
        s.heap.epilogue - (s.heap.prologue + minBlockSize))} := by
  have hrun : ((script smallArena (smallFreed 4168 4136)).any fun s => s.live = [] ∧
      ((script smallArena (smallFreed 4136 4168)).any fun t => t.live = [] ∧
        t.heap.memBrk = s.heap.memBrk)) = true := by decide +kernel
  obtain ⟨s, hs, hst⟩ := (Option.any_eq_true _ _).mp hrun
  obtain ⟨hlive, ht⟩ := of_decide_eq_true hst
  obtain ⟨t, ht, hts⟩ := (Option.any_eq_true _ _).mp ht
  obtain ⟨hlive', hbrk⟩ := of_decide_eq_true hts
  have hbasic : ∀ x y, ∀ c ∈ smallFreed x y, c.Basic := by simp [smallFreed, Call.Basic]
  obtain ⟨-, -, hsame, hone⟩ := basicClient_coalesced (script_reachable (hbasic _ _) hs)
  refine ⟨s, t, hs, ht, hlive, hsame t (script_reachable (hbasic _ _) ht) hbrk ?_, hone hlive⟩
  simp [liveExtents, hlive, hlive']

end CourseProjects.Malloc

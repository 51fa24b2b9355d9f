import CourseProjects.Malloc.WellFormed

/-!
# What the client is promised

The payloads handed out are aligned, lie in the heap and do not overlap, and no
call of the allocator changes a byte of a payload the client keeps.
-/

namespace CourseProjects.Malloc

open Transition Session

variable {s s' : Session} {h h' : Heap} {bs bs' : List Block} {b c : Block} {fl fl' : List Nat}
  {a e q size : Nat} {ar : Arena} {l l' : Live}

/-- The first `size` bytes of two live payloads do not overlap. -/
def Live.Disjoint (l l' : Live) : Prop := l.ptr + l.size ≤ l'.ptr ∨ l'.ptr + l'.size ≤ l.ptr

/-- The requested bytes of a live payload are aligned and lie in the heap. -/
def Live.Ok (h : Heap) (l : Live) : Prop :=
  l.ptr % alignment = 0 ∧ memHeapLo h ≤ l.ptr ∧ l.ptr + l.size ≤ h.memBrk

/-- The payload at `ptr` has the same bytes in `h'` as in `h`. -/
def SamePayload (h h' : Heap) (ptr : Nat) : Prop :=
  ∀ n, blockSize h (payloadToBlock ptr) = some n →
    ∀ i, i + tagsSize < n → h'.mem (ptr + i) = h.mem (ptr + i)

/-- A call of the allocator, not a write of the client. -/
def Call.Allocator : Call → Prop
  | .write _ _ _ => False
  | _ => True

/-! ## Alignment and place -/

theorem Tiles.aligned (ht : Tiles a bs e) (ha : a % 8 = 0) (hb : b ∈ bs) : b.addr % 8 = 0 := by
  induction bs generalizing a with
  | nil => cases hb
  | cons c bs ih =>
    have hca := ht.1
    have := c.size_mod
    rcases List.mem_cons.mp hb with rfl | hb
    · omega
    · refine ih ht.2 ?_ hb
      unfold Block.stop
      omega

theorem SessionInv.live_ok (hi : SessionInv s bs fl) (ha : s.heap.memStartBrk % 8 = 0)
    (hl : l ∈ s.live) : l.Ok s.heap := by
  obtain ⟨c, hc, hptr, hsize⟩ := hi.block_of_live l hl
  have hb := hi.tiles.bounds hc.1
  have hal := hi.tiles.aligned ha hc.1
  unfold Block.stop at hb
  refine ⟨?_, ?_, by omega⟩
  · show l.ptr % 8 = 0
    omega
  · show s.heap.memStartBrk ≤ l.ptr
    omega

/-- Two payloads of the client lie in two blocks. -/
theorem SessionInv.live_disjoint (hi : SessionInv s bs fl) (hl : l ∈ s.live) (hl' : l' ∈ s.live)
    (hne : l.ptr ≠ l'.ptr) : l.Disjoint l' := by
  obtain ⟨c, hc, hptr, hsize⟩ := hi.block_of_live l hl
  obtain ⟨c', hc', hptr', hsize'⟩ := hi.block_of_live l' hl'
  unfold Live.Disjoint
  rcases hi.tiles.disjoint hc.1 hc'.1 with rfl | hcc
  · exact absurd (hptr.symm.trans hptr') hne
  · unfold Block.stop at hcc
    omega

theorem SessionInv.pairwise (hi : SessionInv s bs fl) : s.live.Pairwise Live.Disjoint := by
  have hnodup := List.pairwise_map.mp hi.nodup
  refine hnodup.imp_of_mem fun hl hl' hne => hi.live_disjoint hl hl' hne

/-! ## Frames -/

/-- A frame over the blocks of the client keeps their payloads. -/
theorem SessionInv.samePayload {K : Block → Prop} (hi : SessionInv s bs fl)
    (hf : Frame K s.heap h') (hl : l ∈ s.live)
    (hK : ∀ c, Owned s.heap bs c → c.addr + 8 = l.ptr → K c) : SamePayload s.heap h' l.ptr := by
  obtain ⟨c, hc, hptr, -⟩ := hi.block_of_live l hl
  intro n hn i hin
  rw [hi.payloadToBlock hc.1 hptr, hi.blockSize hc.1] at hn
  obtain rfl := Option.some.inj hn
  have htags : tagsSize = 16 := rfl
  refine hf.mem c (hK c hc hptr) _ (by omega) ?_
  unfold Block.stop
  omega

theorem SessionInv.frame_call (hi : SessionInv s bs fl) {c : Call} (hb : c.Basic)
    (hc : c.Allocator) (hlegal : s.Legal c) (hexec : s.exec c = some s') (hl : l ∈ s.live)
    (hl' : l ∈ s'.live) : SamePayload s.heap s'.heap l.ptr := by
  cases c with
  | malloc size =>
    obtain ⟨q, h', bs', fl', hrun, -, -, hf, -⟩ := hi.malloc_call hlegal
    simp only [exec, hrun, Option.bind_eq_bind, Option.bind_some, Option.pure_def,
      Option.some.injEq] at hexec
    subst hexec
    exact hi.samePayload hf hl fun c hc _ => hc
  | free ptr =>
    rcases hlegal with rfl | hp
    · simp only [exec, mmFree_null, Option.bind_eq_bind, Option.bind_some, Option.pure_def,
        Option.some.injEq] at hexec
      subst hexec
      exact hi.samePayload (Frame.refl (Owned s.heap bs) s.heap) hl fun c hc _ => hc
    · obtain ⟨h', bs', fl', hrun, -, -, hf, -⟩ := hi.free_call hp
      simp only [exec, hrun, Option.bind_eq_bind, Option.bind_some, Option.pure_def,
        Option.some.injEq] at hexec
      subst hexec
      have hne := (mem_drop.mp hl').2
      exact hi.samePayload hf hl fun c hc hptr => ⟨hc, hptr.symm ▸ hne⟩
  | realloc ptr size => exact hb.elim
  | write ptr i v => exact hc.elim

/-- **The contract of `mm_malloc` and `mm_free`**, for a heap that starts at a
multiple of 8. The payload that a request returns is live in the next state. -/
theorem basicClient_contract (ha : ar.start % 8 = 0) (hs : (basicClient ar).Reachable s) :
    (∀ l ∈ s.live, l.Ok s.heap) ∧ s.live.Pairwise Live.Disjoint ∧
      (∀ size q h', 0 < size → size ≤ intMax → mmMalloc s.heap size = some (q, h') → q ≠ null →
        Live.Ok h' ⟨q, size⟩ ∧ ∀ l ∈ s.live, Live.Disjoint ⟨q, size⟩ l) ∧
      ∀ (c : Call) (s' : Session), c.Basic → c.Allocator → s.Legal c → s.exec c = some s' →
        ∀ l ∈ s.live, l ∈ s'.live → SamePayload s.heap s'.heap l.ptr := by
  obtain ⟨bs, fl, hi, hstart⟩ := basicClient_inv hs
  have ha' : s.heap.memStartBrk % 8 = 0 := by rw [hstart, ha]
  refine ⟨fun l hl => hi.live_ok ha' hl, hi.pairwise, fun size q h' _ hsize hrun hq => ?_,
    fun c s' hb hc hlegal hexec l hl hl' => hi.frame_call hb hc hlegal hexec hl hl'⟩
  obtain ⟨q', h'', bs', fl', hrun', hi', -, hf, -⟩ := hi.malloc_call hsize
  obtain ⟨rfl, rfl⟩ : q' = q ∧ h'' = h' := by simpa [hrun'] using hrun
  have hlive : hold s.live q' size = ⟨q', size⟩ :: s.live := if_neg hq
  rw [hlive] at hi'
  have hstart' : h''.memStartBrk % 8 = 0 := by rw [hf.start, ha']
  exact ⟨hi'.live_ok hstart' List.mem_cons_self, (List.pairwise_cons.mp hi'.pairwise).1⟩

theorem smallCalls_contract : ∃ s, script smallArena smallCalls = some s ∧
    (∀ l ∈ s.live, l.Ok s.heap) ∧ s.live.Pairwise Live.Disjoint ∧
      (∀ size q h', 0 < size → size ≤ intMax → mmMalloc s.heap size = some (q, h') → q ≠ null →
        Live.Ok h' ⟨q, size⟩ ∧ ∀ l ∈ s.live, Live.Disjoint ⟨q, size⟩ l) ∧
      ∀ (c : Call) (s' : Session), c.Basic → c.Allocator → s.Legal c → s.exec c = some s' →
        ∀ l ∈ s.live, l ∈ s'.live → SamePayload s.heap s'.heap l.ptr := by
  have hrun : (script smallArena smallCalls).isSome = true := by decide +kernel
  obtain ⟨s, hs⟩ := Option.isSome_iff_exists.mp hrun
  exact ⟨s, hs, basicClient_contract (by decide)
    (script_reachable (by simp [smallCalls, Call.Basic]) hs)⟩

end CourseProjects.Malloc

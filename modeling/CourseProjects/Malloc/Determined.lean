import CourseProjects.Malloc.Contract
import CourseProjects.Malloc.Extents
import CourseProjects.Malloc.Placement

/-!
# What the answers depend on

Two heaps with the same blocks and the same free list give the same answers and go on
having the same blocks and the same free list, whatever the other bytes are. So the
payloads that a run hands out depend on the requests alone: not on what was in the arena,
and not on what the client writes.
-/

namespace CourseProjects.Malloc

open Transition Session

variable {h h₁ h₂ : Heap} {a e nsize size ptr : Nat} {b c p n : Block} {bs bs₁ bs₂ L R M M' : List Block}
  {fl : List Nat} {s s₁ s₂ t : Session} {ar : Arena}

/-! ## One layout for each heap -/

theorem Block.eq_of_tag (ha : b.addr = c.addr) (ht : b.tag = c.tag) : b = c := by
  have hb := b.size_mod
  have hc := c.size_mod
  unfold Block.tag at ht
  cases hbb : b.alloc <;> cases hcb : c.alloc <;>
    simp only [hbb, hcb, Bool.toNat_false, Bool.toNat_true] at ht
  · exact Block.ext ha (by omega) (hbb.trans hcb.symm)
  · omega
  · omega
  · exact Block.ext ha (by omega) (hbb.trans hcb.symm)

/-- Blocks that tile the same range and have the same headers are the same. -/
theorem Tiles.eq_of_headers {m : Bytes.Memory} (ht₁ : Tiles a bs₁ e) (ht₂ : Tiles a bs₂ e)
    (hm₁ : ∀ b ∈ bs₁, readWord m b.addr = b.tag) (hm₂ : ∀ b ∈ bs₂, readWord m b.addr = b.tag) :
    bs₁ = bs₂ := by
  induction bs₁ generalizing a bs₂ with
  | nil =>
    cases bs₂ with
    | nil => rfl
    | cons c bs₂ =>
      have := ht₂.size_le List.mem_cons_self
      have := c.size_ge
      have hae : a = e := ht₁
      omega
  | cons b bs₁ ih =>
    cases bs₂ with
    | nil =>
      have := ht₁.size_le List.mem_cons_self
      have := b.size_ge
      have hae : a = e := ht₂
      omega
    | cons c bs₂ =>
      have haddr : b.addr = c.addr := ht₁.1.trans ht₂.1.symm
      have htag : b.tag = c.tag := by
        rw [← hm₁ b List.mem_cons_self, ← hm₂ c List.mem_cons_self, haddr]
      obtain rfl := Block.eq_of_tag haddr htag
      rw [ih ht₁.2 ht₂.2 (fun d hd => hm₁ d (List.mem_cons_of_mem _ hd))
        fun d hd => hm₂ d (List.mem_cons_of_mem _ hd)]

theorem LayoutInv.unique (h₁ : LayoutInv h bs₁) (h₂ : LayoutInv h bs₂) : bs₁ = bs₂ :=
  h₁.tiles.eq_of_headers h₂.tiles (fun b hb => (h₁.tagged b hb).header)
    fun b hb => (h₂.tagged b hb).header

theorem Tiles.end_unique {e' : Nat} (ht : Tiles a bs e) (ht' : Tiles a bs e') : e = e' := by
  induction bs generalizing a with
  | nil => exact Eq.trans (Eq.symm ht) ht'
  | cons b bs ih => exact ih ht.2 ht'.2

/-! ## Two heaps -/

/-- Two heaps in the same place with the same blocks and the same free list. -/
structure Twin (h₁ h₂ : Heap) (bs : List Block) (fl : List Nat) : Prop where
  left : HeapInv h₁ bs fl
  right : HeapInv h₂ bs fl
  start : h₁.memStartBrk = h₂.memStartBrk

theorem Twin.symm (ht : Twin h₁ h₂ bs fl) : Twin h₂ h₁ bs fl :=
  ⟨ht.right, ht.left, ht.start.symm⟩

theorem Twin.brk (ht : Twin h₁ h₂ bs fl) : h₁.memBrk = h₂.memBrk :=
  ht.left.tiles.end_unique (ht.start ▸ ht.right.tiles)

theorem Twin.max (ht : Twin h₁ h₂ bs fl) : h₁.memMaxAddr = h₂.memMaxAddr := by
  rw [ht.left.placed.max_eq, ht.right.placed.max_eq, ht.start]

theorem Twin.epilogue (ht : Twin h₁ h₂ bs fl) : epilogueBlock h₁ = epilogueBlock h₂ :=
  Option.some.inj (ht.left.last.symm.trans ht.right.last)

/-- The first of the smallest blocks that fit is one block. -/
theorem FirstBest.unique (ht : Tiles a bs e) (hb : FirstBest bs fl nsize b)
    (hc : FirstBest bs fl nsize c) (hbm : b ∈ bs) (hcm : c ∈ bs) (hbf : b.alloc = false)
    (hcf : c.alloc = false) : b = c := by
  have hsize : b.size = c.size :=
    le_antisymm (hb.smallest c hcm hcf hc.fits) (hc.smallest b hbm hbf hb.fits)
  obtain ⟨l1, l2, hl, hfirst⟩ := hb.first
  obtain ⟨m1, m2, hm, hfirst'⟩ := hc.first
  refine ht.eq_of_addr hbm hcm ?_
  rcases List.append_eq_append_iff.mp (hl.symm.trans hm) with ⟨u, hu, hu'⟩ | ⟨u, hu, hu'⟩
  · cases u with
    | nil => exact (List.cons.inj hu').1
    | cons x u =>
      have hx : b.addr = x := (List.cons.inj hu').1
      have := hfirst' b hbm (by simp [hu, hx]) hb.fits
      omega
  · cases u with
    | nil => exact (List.cons.inj hu').1.symm
    | cons x u =>
      have hx : c.addr = x := (List.cons.inj hu').1
      have := hfirst c hcm (by simp [hu, hx]) hc.fits
      omega

theorem SplitOf.unique (h : SplitOf b nsize M) (h' : SplitOf b nsize M') : M = M' := by
  rcases h with ⟨hlt, rfl⟩ | ⟨hle, r, d, rfl, hra, hrs, hrb, hda, hds, hdb⟩
  · rcases h' with ⟨-, rfl⟩ | ⟨hle, -⟩
    · rfl
    · omega
  · rcases h' with ⟨hlt, -⟩ | ⟨-, r', d', rfl, hra', hrs', hrb', hda', hds', hdb'⟩
    · omega
    · rw [Block.ext (hra.trans hra'.symm) (hrs.trans hrs'.symm) (hrb.trans hrb'.symm),
        Block.ext (hda.trans hda'.symm) (hds.trans hds'.symm) (hdb.trans hdb'.symm)]

theorem ExtendOf.unique {r n r' n' : Block} (h : ExtendOf b r n nsize)
    (h' : ExtendOf b r' n' nsize) : r = r' ∧ n = n' :=
  ⟨Block.ext (h.addr.trans h'.addr.symm) (h.size.trans h'.size.symm) (h.alloc.trans h'.alloc.symm),
    Block.ext (h.next.trans h'.next.symm) (h.next_size.trans h'.next_size.symm)
      (h.next_alloc.trans h'.next_alloc.symm)⟩

theorem Twin.bestFit (ht : Twin h₁ h₂ bs fl) (hn : nsize ≤ 2 ^ 31 + 16) :
    bestFit h₁ nsize = bestFit h₂ nsize := by
  rcases bestFit_spec ht.left hn with ⟨h1, hnone⟩ | ⟨b, hb, hbf, h1, hbest⟩ <;>
    rcases bestFit_spec ht.right hn with ⟨h2, hnone'⟩ | ⟨c, hc, hcf, h2, hbest'⟩
  · rw [h1, h2]
  · have := hnone c hc hcf
    have := hbest'.fits
    omega
  · have := hnone' b hb hbf
    have := hbest.fits
    omega
  · rw [h1, h2, hbest.unique ht.left.tiles hbest' hb hc hbf hcf]

/-! ## The same answers -/

theorem Twin.extends (ht : Twin h₁ h₂ bs fl) (hpos : 0 < size) (hs : size ≤ intMax)
    (hbest : Malloc.bestFit h₁ (paddedSize size) = some null)
    (hroom : paddedSize size < 2 ^ 31 ∧ h₁.memBrk + paddedSize size ≤ h₁.memMaxAddr) :
    ∃ q h₁' h₂' bs' fl', mmMalloc h₁ size = some (q, h₁') ∧ mmMalloc h₂ size = some (q, h₂') ∧
      Twin h₁' h₂' bs' fl' := by
  obtain ⟨-, -, -, hmax⟩ := paddedSize_spec hs
  have hbest' : Malloc.bestFit h₂ (paddedSize size) = some null := ht.bestFit hmax ▸ hbest
  obtain ⟨L, h₁', r, n, hL, hrun, hext, hi, hgrew⟩ := mmMalloc_extends ht.left hpos hs hbest hroom
  obtain ⟨L', h₂', r', n', hL', hrun', hext', hi', hgrew'⟩ := mmMalloc_extends ht.right hpos hs hbest'
    (by rw [← ht.brk, ← ht.max]; exact hroom)
  rw [← ht.epilogue] at hL' hext'
  obtain rfl : L = L' := List.append_cancel_right (hL.symm.trans hL')
  obtain ⟨rfl, rfl⟩ := hext.unique hext'
  have hepi : h₁.epilogue = h₂.epilogue := congrArg Block.addr ht.epilogue
  refine ⟨_, h₁', h₂', _, fl, hrun, hepi ▸ hrun', hi, hi', ?_⟩
  rw [hgrew.start, hgrew'.start, ht.start]

theorem Twin.carves (ht : Twin h₁ h₂ bs fl) (hpos : 0 < size) (hs : size ≤ intMax)
    (hb : b ∈ bs) (hfree : b.alloc = false) (hle : paddedSize size ≤ b.size)
    (hbest : Malloc.bestFit h₁ (paddedSize size) = some b.addr) :
    ∃ q h₁' h₂' bs' fl', mmMalloc h₁ size = some (q, h₁') ∧ mmMalloc h₂ size = some (q, h₂') ∧
      Twin h₁' h₂' bs' fl' := by
  obtain ⟨-, -, -, hmax⟩ := paddedSize_spec hs
  have hbest' : Malloc.bestFit h₂ (paddedSize size) = some b.addr := ht.bestFit hmax ▸ hbest
  obtain ⟨L, R, rfl⟩ := List.append_of_mem hb
  obtain ⟨h₁', M, hrun, hM, hi, hk⟩ := mmMalloc_carves ht.left hpos hs hfree hle hbest
  obtain ⟨h₂', M', hrun', hM', hi', hk'⟩ := mmMalloc_carves ht.right hpos hs hfree hle hbest'
  obtain rfl := hM.unique hM'
  refine ⟨_, h₁', h₂', _, _, hrun, hrun', hi, hi', ?_⟩
  rw [hk.start, hk'.start, ht.start]

/-- The same payload, or `NULL` from both. -/
theorem Twin.malloc (ht : Twin h₁ h₂ bs fl) (hs : size ≤ intMax) :
    ∃ q h₁' h₂' bs' fl', mmMalloc h₁ size = some (q, h₁') ∧ mmMalloc h₂ size = some (q, h₂') ∧
      Twin h₁' h₂' bs' fl' := by
  by_cases hpos : 0 < size
  · obtain ⟨-, -, -, hmax⟩ := paddedSize_spec hs
    rcases bestFit_spec ht.left hmax with ⟨hbest, -⟩ | ⟨b, hb, hfree, hbest, hfirst⟩
    · by_cases hroom : paddedSize size < 2 ^ 31 ∧ h₁.memBrk + paddedSize size ≤ h₁.memMaxAddr
      · exact ht.extends hpos hs hbest hroom
      · have hroom' : ¬ (paddedSize size < 2 ^ 31 ∧ h₂.memBrk + paddedSize size ≤ h₂.memMaxAddr) := by
          rwa [← ht.brk, ← ht.max]
        exact ⟨null, h₁, h₂, bs, fl,
          (mmMalloc_extend hpos hbest).trans (extendHeap_fail (by omega) hroom),
          (mmMalloc_extend hpos (ht.bestFit hmax ▸ hbest)).trans (extendHeap_fail (by omega) hroom'),
          ht⟩
    · exact ht.carves hpos hs hb hfree hfirst.fits hbest
  · exact ⟨null, h₁, h₂, bs, fl, mmMalloc_zero (Nat.le_of_not_lt hpos),
      mmMalloc_zero (Nat.le_of_not_lt hpos), ht⟩

theorem Twin.free (ht : Twin h₁ h₂ bs fl) (hc : Owned h₁ bs c) :
    ∃ h₁' h₂' bs' fl', mmFree h₁ (c.addr + 8) = some h₁' ∧ mmFree h₂ (c.addr + 8) = some h₂' ∧
      Twin h₁' h₂' bs' fl' := by
  obtain ⟨hmem, halloc, hcp, hce⟩ := hc
  obtain ⟨L, p, n, R, rfl⟩ := ht.left.interior hmem hcp hce
  obtain ⟨h₁', hrun, hi, hk⟩ := mmFree_spec ht.left halloc
  obtain ⟨h₂', hrun', hi', hk'⟩ := mmFree_spec ht.right halloc
  refine ⟨h₁', h₂', _, _, hrun, hrun', hi, hi', ?_⟩
  rw [hk.start, hk'.start, ht.start]

theorem Twin.freeExtents (ht : Twin h₁ h₂ bs fl) : freeExtents h₁ = freeExtents h₂ :=
  Set.ext fun _ => ht.left.mem_freeExtents.trans ht.right.mem_freeExtents.symm

/-! ## Two runs -/

/-- Two clients with the same payloads and twin heaps. -/
structure Alike (s t : Session) : Prop where
  live : s.live = t.live
  left : ∃ bs fl, SessionInv s bs fl
  right : ∃ bs fl, SessionInv t bs fl
  twin : ∃ bs fl, Twin s.heap t.heap bs fl

theorem Twin.write (ht : Twin h₁ h₂ bs fl) (hc : Owned h₁ bs c) {m : Bytes.Memory}
    (hm : ∀ x, ¬ (c.addr + 8 ≤ x ∧ x + 8 < c.stop) → m x = h₁.mem x) :
    Twin { h₁ with mem := m } h₂ bs fl :=
  ⟨ht.left.fill hc.1 hc.2.1 hm, ht.right, ht.start⟩

theorem Alike.malloc (ha : Alike s t) (hs : size ≤ intMax) {s' : Session}
    (hrun : s.exec (.malloc size) = some s') :
    ∃ t', t.exec (.malloc size) = some t' ∧ Alike s' t' := by
  obtain ⟨bs, fl, ht⟩ := ha.twin
  obtain ⟨bs₁, fl₁, hi₁⟩ := ha.left
  obtain ⟨bs₂, fl₂, hi₂⟩ := ha.right
  obtain ⟨q, h₁', h₂', bs', fl', hrun₁, hrun₂, ht'⟩ := ht.malloc hs
  obtain ⟨q₁, k₁, bs₁', fl₁', hcall₁, hi₁', -⟩ := hi₁.malloc_call hs
  obtain ⟨q₂, k₂, bs₂', fl₂', hcall₂, hi₂', -⟩ := hi₂.malloc_call hs
  obtain ⟨rfl, rfl⟩ : q = q₁ ∧ h₁' = k₁ := by simpa [hrun₁] using hcall₁
  obtain ⟨rfl, rfl⟩ : q = q₂ ∧ h₂' = k₂ := by simpa [hrun₂] using hcall₂
  simp only [exec, hrun₁, Option.bind_eq_bind, Option.bind_some, Option.pure_def,
    Option.some.injEq] at hrun
  subst hrun
  refine ⟨⟨h₂', hold t.live q size⟩, ?_, ?_, ⟨bs₁', fl₁', hi₁'⟩, ⟨bs₂', fl₂', hi₂'⟩, bs', fl', ht'⟩
  · simp only [exec, hrun₂, Option.bind_eq_bind, Option.bind_some, Option.pure_def]
  · exact congrArg (hold · q size) ha.live

theorem Alike.free (ha : Alike s t) (hp : ptr = null ∨ s.Holds ptr) {s' : Session}
    (hrun : s.exec (.free ptr) = some s') :
    ∃ t', t.exec (.free ptr) = some t' ∧ Alike s' t' := by
  obtain ⟨bs, fl, ht⟩ := ha.twin
  obtain ⟨bs₁, fl₁, hi₁⟩ := ha.left
  obtain ⟨bs₂, fl₂, hi₂⟩ := ha.right
  rcases hp with rfl | hp
  · simp only [exec, mmFree_null, hi₁.drop_null, Option.bind_eq_bind, Option.bind_some,
      Option.pure_def, Option.some.injEq] at hrun
    subst hrun
    refine ⟨t, ?_, ha⟩
    simp only [exec, mmFree_null, hi₂.drop_null, Option.bind_eq_bind, Option.bind_some,
      Option.pure_def]
  · obtain ⟨k₁, bs₁', fl₁', hcall₁, hi₁', -⟩ := hi₁.free_call hp
    obtain ⟨k₂, bs₂', fl₂', hcall₂, hi₂', -⟩ := hi₂.free_call (by
      unfold Holds at hp ⊢
      rwa [← ha.live])
    obtain ⟨l, hl, rfl⟩ := hp
    obtain ⟨c, hc, hptr, -⟩ := hi₁.block_of_live l hl
    obtain rfl : bs₁ = bs := hi₁.toLayoutInv.unique ht.left.toLayoutInv
    obtain ⟨h₁', h₂', bs', fl', hrun₁, hrun₂, ht'⟩ := ht.free hc
    rw [hptr] at hrun₁ hrun₂
    obtain rfl : h₁' = k₁ := Option.some.inj (hrun₁.symm.trans hcall₁)
    obtain rfl : h₂' = k₂ := Option.some.inj (hrun₂.symm.trans hcall₂)
    simp only [exec, hrun₁, Option.bind_eq_bind, Option.bind_some, Option.pure_def,
      Option.some.injEq] at hrun
    subst hrun
    refine ⟨⟨h₂', drop t.live l.ptr⟩, ?_, ?_, ⟨bs₁', fl₁', hi₁'⟩, ⟨bs₂', fl₂', hi₂'⟩, bs', fl', ht'⟩
    · simp only [exec, hrun₂, Option.bind_eq_bind, Option.bind_some, Option.pure_def]
    · exact congrArg (drop · l.ptr) ha.live

/-- A write of one client does not show in the layout. -/
theorem Alike.write (ha : Alike s t) {i : Nat} {v : UInt8} (hlegal : s.Legal (.write ptr i v))
    {s' : Session} (hrun : s.exec (.write ptr i v) = some s') : Alike s' t := by
  obtain ⟨bs, fl, ht⟩ := ha.twin
  obtain ⟨bs₁, fl₁, hi₁⟩ := ha.left
  have hi₁' := hi₁.write_call hlegal
  obtain ⟨⟨l, hl, rfl⟩, m, hm, hin⟩ := hlegal
  obtain ⟨c, hc, hptr, -⟩ := hi₁.block_of_live l hl
  rw [hi₁.payloadToBlock hc.1 hptr, hi₁.blockSize hc.1] at hm
  obtain rfl := Option.some.inj hm
  obtain rfl : bs₁ = bs := hi₁.toLayoutInv.unique ht.left.toLayoutInv
  have htags : tagsSize = 16 := rfl
  cases hrun
  refine ⟨ha.live, ⟨_, _, hi₁'⟩, ha.right, _, fl, ht.write hc fun x hx => Bytes.setByte_of_ne ?_⟩
  unfold Block.stop at hx
  omega

instance (c : Call) : Decidable c.Allocator :=
  match c with
  | .write _ _ _ => isFalse id
  | .malloc _ | .free _ | .realloc _ _ => isTrue trivial

theorem Session.run_cons {c : Call} {cs : List Call} :
    Session.run s (c :: cs) = some t ↔
      s.Legal c ∧ ∃ s', s.exec c = some s' ∧ Session.run s' cs = some t := by
  by_cases hlegal : s.Legal c
  · have hg : guard (s.Legal c) = some () := if_pos hlegal
    rw [Session.run, hg, and_iff_right hlegal]
    exact (Option.bind_eq_some_iff (x := s.exec c))
  · have hg : (guard (s.Legal c) : Option Unit) = none := if_neg hlegal
    rw [Session.run, hg]
    refine iff_of_false ?_ fun h => hlegal h.1
    intro h
    cases h

/-- A run and the run of the same requests in which the client writes nothing. -/
theorem Alike.run (ha : Alike s t) {cs : List Call} (hcs : ∀ c ∈ cs, c.Basic) {s' : Session}
    (hrun : Session.run s cs = some s') :
    ∃ t', Session.run t (cs.filter fun c => c.Allocator) = some t' ∧ Alike s' t' := by
  induction cs generalizing s t with
  | nil =>
    cases hrun
    exact ⟨t, rfl, ha⟩
  | cons c cs ih =>
    have hb := hcs c List.mem_cons_self
    have htail : ∀ d ∈ cs, d.Basic := fun d hd => hcs d (List.mem_cons_of_mem _ hd)
    obtain ⟨hlegal, s₁, hexec, hrest⟩ := Session.run_cons.mp hrun
    cases c with
    | malloc size =>
      obtain ⟨t₁, hexec', ha₁⟩ := ha.malloc hlegal hexec
      obtain ⟨t', hrun', ha'⟩ := ih ha₁ htail hrest
      exact ⟨t', Session.run_cons.mpr ⟨hlegal, t₁, hexec', hrun'⟩, ha'⟩
    | free ptr =>
      obtain ⟨t₁, hexec', ha₁⟩ := ha.free hlegal hexec
      obtain ⟨t', hrun', ha'⟩ := ih ha₁ htail hrest
      have hlegal' : t.Legal (.free ptr) := by
        unfold Legal Holds at hlegal ⊢
        rwa [← ha.live]
      exact ⟨t', Session.run_cons.mpr ⟨hlegal', t₁, hexec', hrun'⟩, ha'⟩
    | realloc ptr size => exact hb.elim
    | write ptr i v => exact ih (ha.write hlegal hexec) htail hrest

/-! ## Two arenas -/

/-- The three blocks of `mm_init` in two heaps at the same place. -/
theorem Alike.initial {p f e p' f' e' : Block} (hi : HeapInv h₁ [p, f, e] [f.addr])
    (hi' : HeapInv h₂ [p', f', e'] [f'.addr]) (hstart : h₁.memStartBrk = h₂.memStartBrk)
    (hfree : f.alloc = false) (hfree' : f'.alloc = false) (hsize : f.size = f'.size) :
    Alike ⟨h₁, []⟩ ⟨h₂, []⟩ := by
  have hp : p = prologueBlock h₁ := by simpa using hi.head
  have he : e = epilogueBlock h₁ := by simpa using hi.last
  have hp' : p' = prologueBlock h₂ := by simpa using hi'.head
  have he' : e' = epilogueBlock h₂ := by simpa using hi'.last
  obtain ⟨hpa, hfa, hea, -⟩ := hi.tiles
  obtain ⟨hpa', hfa', hea', -⟩ := hi'.tiles
  have hpp : p = p' := by
    refine Block.ext (hpa.trans (hstart.trans hpa'.symm)) ?_ ?_ <;> rw [hp, hp'] <;> rfl
  subst hpp
  obtain rfl : f = f' := Block.ext (hfa.trans hfa'.symm) hsize (hfree.trans hfree'.symm)
  have hee : e = e' := by
    refine Block.ext (hea.trans hea'.symm) ?_ ?_ <;> rw [he, he'] <;> rfl
  subst hee
  exact ⟨rfl, ⟨_, _, .initial hi hfree⟩, ⟨_, _, .initial hi' hfree'⟩, _, _, hi, hi', hstart⟩

/-- `mm_init` does not depend on what was in the arena. -/
theorem Alike.init (ar : Arena) (mem mem' : Bytes.Memory) {h h' : Heap}
    (hrun : mmInit (memInit ar mem) = some (0, h)) (hrun' : mmInit (memInit ar mem') = some (0, h')) :
    Alike ⟨h, []⟩ ⟨h', []⟩ := by
  obtain ⟨k, p, f, e, hk, hi, hstart, hfree, -, -, hsize⟩ :=
    mmInit_used (g := memInit ar mem) ⟨memInit_placed ar mem, rfl, rfl, rfl⟩ rfl
  obtain ⟨k', p', f', e', hk', hi', hstart', hfree', -, -, hsize'⟩ :=
    mmInit_used (g := memInit ar mem') ⟨memInit_placed ar mem', rfl, rfl, rfl⟩ rfl
  obtain rfl : k = h := by simpa [hk] using hrun
  obtain rfl : k' = h' := by simpa [hk'] using hrun'
  exact .initial hi hi' (hstart.trans hstart'.symm) hfree hfree' (hsize.trans hsize'.symm)

/-- **The answers depend on the requests.** Two runs that make the same requests, in the same
arena with other bytes in it and with other writes of the client, hand out the same payloads,
and end with the same break and the same free blocks. -/
theorem answers_determined {mem mem' : Bytes.Memory} {h h' : Heap} {cs cs' : List Call}
    (hinit : mmInit (memInit ar mem) = some (0, h)) (hinit' : mmInit (memInit ar mem') = some (0, h'))
    (hcs : ∀ c ∈ cs, c.Basic) (hcs' : ∀ c ∈ cs', c.Basic)
    (hsame : (cs.filter fun c => c.Allocator) = cs'.filter fun c => c.Allocator)
    (hrun : Session.run ⟨h, []⟩ cs = some s) (hrun' : Session.run ⟨h', []⟩ cs' = some t) :
    s.live = t.live ∧ s.heap.memBrk = t.heap.memBrk ∧ freeExtents s.heap = freeExtents t.heap := by
  -- both runs are compared with the run of the second arena that writes nothing
  obtain ⟨u, hu, ha⟩ := (Alike.init ar mem mem' hinit hinit').run hcs hrun
  obtain ⟨u', hu', ha'⟩ := (Alike.init ar mem' mem' hinit' hinit').run hcs' hrun'
  rw [hsame, hu'] at hu
  obtain rfl := Option.some.inj hu
  obtain ⟨bs, fl, ht⟩ := ha.twin
  obtain ⟨bs', fl', ht'⟩ := ha'.twin
  refine ⟨ha.live.trans ha'.live.symm, ht.brk.trans ht'.brk.symm, ?_⟩
  rw [ht.freeExtents, ht'.freeExtents]

/-- The same requests, with no write before the last ones and another one after them. -/
def otherCalls : List Call :=
  [.malloc 24, .malloc 8, .malloc 100, .write 4136 0 1, .free 4168, .free 4136]

/-- An arena that is not zero. -/
def usedMemory : Bytes.Memory := fun _ => 255

theorem smallCalls_determined : ∃ s t, script smallArena smallCalls = some s ∧
    (∃ h, mmInit (memInit smallArena usedMemory) = some (0, h) ∧
      Session.run ⟨h, []⟩ otherCalls = some t) ∧
    s.live = t.live ∧ s.heap.memBrk = t.heap.memBrk ∧ freeExtents s.heap = freeExtents t.heap := by
  have hrun : ((mmInit (memInit smallArena fun _ => 0)).any fun r => r.1 = 0 ∧
      (Session.run ⟨r.2, []⟩ smallCalls).isSome) = true := by decide +kernel
  have hrun' : ((mmInit (memInit smallArena usedMemory)).any fun r => r.1 = 0 ∧
      (Session.run ⟨r.2, []⟩ otherCalls).isSome) = true := by decide +kernel
  obtain ⟨⟨r, h⟩, hinit, hr⟩ := (Option.any_eq_true _ _).mp hrun
  obtain ⟨⟨r', h'⟩, hinit', hr'⟩ := (Option.any_eq_true _ _).mp hrun'
  obtain ⟨rfl, hs⟩ := of_decide_eq_true hr
  obtain ⟨rfl, ht⟩ := of_decide_eq_true hr'
  obtain ⟨s, hs⟩ := Option.isSome_iff_exists.mp hs
  obtain ⟨t, ht⟩ := Option.isSome_iff_exists.mp ht
  have hscript : script smallArena smallCalls = some s := by
    rw [script, hinit]
    exact hs
  have hsame : (smallCalls.filter fun c => c.Allocator) = otherCalls.filter fun c => c.Allocator :=
    rfl
  exact ⟨s, t, hscript, ⟨h', hinit', ht⟩, answers_determined hinit hinit'
    (by simp [smallCalls, Call.Basic]) (by simp [otherCalls, Call.Basic]) hsame hs ht⟩

end CourseProjects.Malloc

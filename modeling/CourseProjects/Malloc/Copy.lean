import CourseProjects.Malloc.Realloc

/-!
# The copy of `mm_realloc`

`memmove` is given the size of the old block with both tags, so it reads the end
tag of the old block and the header behind it, whatever the sizes are.
-/

namespace CourseProjects.Malloc

open Transition Session

variable {s : Session} {h h1 h' : Heap} {bs bs' : List Block} {fl fl' as : List Nat}
  {a b e n p q size csize : Nat} {c r : Block} {l : Live}

/-- The bytes between the header and the end tag of the block with payload `p`. -/
def payloadBytes (h : Heap) (p : Nat) : Set Nat :=
  {x | ∃ n, blockSize h (payloadToBlock p) = some n ∧ p ≤ x ∧ x + tagsSize < p + n}

/-- `mm_realloc` gets to its `memmove`: it has found the block too small, not grown
in place, and `mm_malloc` has given `q`. -/
structure Copies (h : Heap) (p size csize q : Nat) (h1 : Heap) : Prop where
  request : 0 < size
  pointer : p ≠ null
  block : blockSize h (payloadToBlock p) = some csize
  grows : csize < paddedSize size
  moves : ∃ w, blockNextSize h p = some w ∧ wadd csize w < paddedSize size
  malloc : mmMalloc h size = some (q, h1)
  found : q ≠ null

/-- The copy keeps to the two payloads, and the heap is well formed after the call. -/
structure Confined (h : Heap) (p size csize q : Nat) (h1 : Heap) : Prop where
  reads : ∀ x, p ≤ x → x < p + csize → x ∈ payloadBytes h p
  writes : ∀ x, q ≤ x → x < q + csize → x ∈ payloadBytes h1 q
  result : ∃ h', mmRealloc h p size = some (q, h') ∧ ∃ as fl, WellFormed h' as fl

theorem Copies.run (hc : Copies h p size csize q h1) : mmRealloc h p size = do
    let h ← memmove h1 q p csize
    let h ← mmFree h p
    return (q, h) := by
  obtain ⟨w, hw, hfit⟩ := hc.moves
  rw [mmRealloc_move hc.request hc.pointer hc.block hc.grows hw hfit hc.malloc, if_neg hc.found]

/-- The `n`-th block of the walk from `a`. -/
def nthBlock (h : Heap) : Nat → Nat → Option Nat
  | 0, a => some a
  | n + 1, a => if a < h.memBrk then (blockNext h a).bind (nthBlock h n) else none

theorem Walk.nthBlock_mem (hw : Walk h a as h.memBrk) (hn : nthBlock h n a = some b)
    (hlt : b < h.memBrk) : b ∈ as := by
  induction n generalizing a as with
  | zero =>
    cases hn
    cases as with
    | nil => exact absurd hw hlt.ne
    | cons c as => exact hw.1 ▸ List.mem_cons_self
  | succ n ih =>
    unfold nthBlock at hn
    split_ifs at hn with ha
    obtain ⟨c, hc, hn⟩ := Option.bind_eq_some_iff.mp hn
    cases as with
    | nil => exact absurd hw ha.ne
    | cons d as =>
      obtain ⟨rfl, -, c', hc', hw⟩ := hw
      rw [hc] at hc'
      cases hc'
      exact List.mem_cons_of_mem _ (ih hw hn)

/-! ## What is read -/

/-- The bytes that are read outside the payload are the two words behind it. -/
theorem read_outside_iff (hs : blockSize h (payloadToBlock p) = some csize) {x : Nat}
    (hx : p ≤ x ∧ x < p + csize) : x ∉ payloadBytes h p ↔ p + csize ≤ x + tagsSize := by
  constructor
  · intro hout
    by_contra hlt
    exact hout ⟨csize, hs, hx.1, by omega⟩
  · rintro hle ⟨n, hn, -, hlt⟩
    rw [hs] at hn
    cases hn
    omega

/-- **No call that copies is confined**: in any well-formed heap the copy reads the
end tag of the old block and the header of the next. -/
theorem copy_not_confined (hw : WellFormed h as fl) (hb : b ∈ as) (hp : payloadToBlock p = b)
    (hc : Copies h p size csize q h1) : ¬ Confined h p size csize q h1 := by
  intro hconf
  obtain ⟨n, bit, hok⟩ := hw.blocks b hb
  have hsize := hc.block
  rw [hp, hok.size] at hsize
  cases hsize
  have hlarge : 32 ≤ csize := hok.large
  have hlast : p + csize - 1 ∉ payloadBytes h p := by
    rw [read_outside_iff hc.block (by omega)]
    unfold tagsSize wordSize
    omega
  exact hlast (hconf.reads _ (by omega) (by omega))

/-- A payload of 24 bytes that is copied to one of 100 bytes. -/
theorem smallArena_not_confined : ∃ s h1, script smallArena [.malloc 24, .malloc 8] = some s ∧
    Copies s.heap 4168 100 40 4208 h1 ∧ ¬ Confined s.heap 4168 100 40 4208 h1 := by
  have hrun : ((script smallArena [.malloc 24, .malloc 8]).any fun s =>
      nthBlock s.heap 2 (memHeapLo s.heap) = some 4160 ∧ 4160 < s.heap.memBrk ∧
      blockSize s.heap (payloadToBlock 4168) = some 40 ∧ blockNextSize s.heap 4168 = some 0 ∧
      ((mmMalloc s.heap 100).any fun r => r.1 = 4208)) = true := by
    decide +kernel
  obtain ⟨s, hs, hst⟩ := (Option.any_eq_true _ _).mp hrun
  obtain ⟨hwalk, hlt, hsize, hnext, hmalloc⟩ := of_decide_eq_true hst
  obtain ⟨⟨q, h1⟩, hmalloc, hq⟩ := (Option.any_eq_true _ _).mp hmalloc
  obtain rfl : q = 4208 := of_decide_eq_true hq
  have hcopies : Copies s.heap 4168 100 40 4208 h1 := ⟨by decide, by decide, hsize,
    by decide +kernel, ⟨0, hnext, by decide +kernel⟩, hmalloc, by decide⟩
  obtain ⟨as, fl, hw⟩ :=
    (basicClient_wellFormed (script_reachable (by simp [Call.Basic]) hs)).1
  exact ⟨s, h1, hs, hcopies,
    copy_not_confined hw (hw.walk.nthBlock_mem hwalk hlt) (by decide +kernel) hcopies⟩

/-! ## What is written -/

theorem writes_confined_iff (hs : blockSize h1 (payloadToBlock q) = some n) (hpos : 0 < csize) :
    (∀ x, q ≤ x → x < q + csize → x ∈ payloadBytes h1 q) ↔ csize + tagsSize ≤ n := by
  constructor
  · intro hall
    obtain ⟨m, hm, -, hlt⟩ := hall (q + csize - 1) (by omega) (by omega)
    rw [hs] at hm
    cases hm
    omega
  · intro hle x hx hx'
    exact ⟨n, hs, hx, by omega⟩

/-- When the copy writes to the payload only, the heap is well formed after the call. -/
theorem SessionInv.copy_wellFormed (hi : SessionInv s bs fl) (hl : l ∈ s.live) (hs : size ≤ intMax)
    (hc : Copies s.heap l.ptr size csize q h1)
    (hwrites : ∀ x, q ≤ x → x < q + csize → x ∈ payloadBytes h1 q) :
    ∃ h', mmRealloc s.heap l.ptr size = some (q, h') ∧ ∃ as fl, WellFormed h' as fl := by
  obtain ⟨b, hb, hptr, hlsize⟩ := hi.block_of_live l hl
  have hbs : b.size = csize := by
    have hblock := hc.block
    rw [hi.payloadToBlock hb.1 hptr, hi.blockSize hb.1] at hblock
    exact Option.some.inj hblock
  subst hbs
  have hgrows := hc.grows
  have hb32 := b.size_ge
  obtain ⟨q', h1', bs1, fl1, hrun1, hi1, ha, hf1, -⟩ := hi.malloc_call hs
  obtain ⟨rfl, rfl⟩ : q' = q ∧ h1' = h1 := by simpa using hrun1.symm.trans hc.malloc
  obtain ⟨r, hra, hrs, hnew, hown⟩ :=
    ha.owned hi.toLayoutInv hi1.toLayoutInv hf1.prologue hc.found
  have hr : Owned h1' bs1 r := (hown r).mpr (Or.inr rfl)
  have hlive : hold s.live q' size = ⟨q', size⟩ :: s.live := if_neg hc.found
  rw [hlive] at hi1
  have hsize : blockSize h1' (Malloc.payloadToBlock q') = some r.size := by
    rw [hi1.payloadToBlock hr.1 hra]
    exact hi1.blockSize hr.1
  have hroom := (writes_confined_iff hsize (by omega)).mp hwrites
  have htags : tagsSize = 16 := rfl
  obtain ⟨h2, h3, hrun2, hrun3, hmoved⟩ := hi.copy_free hl hb hptr hlsize hi1 hf1
    (fun c hc => ⟨(hown c).mpr (Or.inl hc), fun heq => hnew c hc (by rw [heq])⟩) hr hra (by omega)
    fun heq => absurd heq (by omega)
  obtain ⟨bs3, fl3, hi3⟩ := hmoved.inv
  refine ⟨h3, ?_, _, fl3, hi3.toHeapInv.wellFormed⟩
  rw [hc.run]
  simp only [hrun2, hrun3, Option.bind_eq_bind, Option.bind_some, Option.pure_def]

/-! ## A damaged end tag -/

theorem not_wellFormed (hn : nthBlock h n (memHeapLo h) = some b) (hlt : b < h.memBrk)
    (hne : blockSize h b ≠ blockEndSize h b) : ¬ ∃ as fl, WellFormed h as fl := by
  rintro ⟨as, fl, hw⟩
  obtain ⟨m, bit, hok⟩ := hw.blocks b (hw.walk.nthBlock_mem hn hlt)
  exact hne (hok.size.trans hok.endSize.symm)

/-- The header of the second block is copied over the end tag of the new one. -/
theorem copy_damages_endTag : ∃ s h1 h', (basicClient smallArena).Reachable s ∧ s.Holds 4168 ∧
    Copies s.heap 4168 32 40 4328 h1 ∧ mmRealloc s.heap 4168 32 = some (4328, h') ∧
      (¬ ∃ as fl, WellFormed h' as fl) ∧ ¬ Confined s.heap 4168 32 40 4328 h1 := by
  have hrun : ((script smallArena [.malloc 24, .malloc 100]).any fun s => s.Holds 4168 ∧
      blockSize s.heap (payloadToBlock 4168) = some 40 ∧ blockNextSize s.heap 4168 = some 0 ∧
      ((mmMalloc s.heap 32).any fun r => r.1 = 4328) ∧
      ((mmRealloc s.heap 4168 32).any fun r => r.1 = 4328 ∧
        nthBlock r.2 3 (memHeapLo r.2) = some 4320 ∧ 4320 < r.2.memBrk ∧
          blockSize r.2 4320 ≠ blockEndSize r.2 4320)) = true := by
    decide +kernel
  obtain ⟨s, hs, hst⟩ := (Option.any_eq_true _ _).mp hrun
  obtain ⟨hheld, hsize, hnext, hmalloc, hrealloc⟩ := of_decide_eq_true hst
  obtain ⟨⟨q, h1⟩, hmalloc, hq⟩ := (Option.any_eq_true _ _).mp hmalloc
  obtain ⟨⟨q', h'⟩, hrealloc, hdamage⟩ := (Option.any_eq_true _ _).mp hrealloc
  obtain rfl : q = 4328 := of_decide_eq_true hq
  obtain ⟨rfl, hwalk, hlt, hne⟩ := of_decide_eq_true hdamage
  have hcopies : Copies s.heap 4168 32 40 4328 h1 := ⟨by decide, by decide, hsize,
    by decide +kernel, ⟨0, hnext, by decide +kernel⟩, hmalloc, by decide⟩
  have hdamaged := not_wellFormed hwalk hlt hne
  refine ⟨s, h1, h', script_reachable (by simp [Call.Basic]) hs, hheld, hcopies, hrealloc, hdamaged,
    fun hconf => ?_⟩
  obtain ⟨h'', hrealloc', hwell⟩ := hconf.result
  cases hrealloc.symm.trans hrealloc'
  exact hdamaged hwell

end CourseProjects.Malloc

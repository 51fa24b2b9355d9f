import CourseProjects.Lib.Peak
import CourseProjects.Malloc.Determined
import CourseProjects.Malloc.Package

/-!
# `eval_mm_util` and `eval_mm_speed`

After a package has passed, the driver runs the trace again, to see how much of the heap
is in use at most, and again and again to see how long it takes. These runs have no way
out but `app_error`, which ends the program. The package of `mm.c` answers as it did the
first time, so they come to their end.
-/

namespace CourseProjects.Malloc

open Session

/-- What a run of `eval_mm_util` comes to: the two numbers that it divides, the `0` for a
payload that `add_range` does not accept, or the message of `app_error`. -/
inductive Util
  | ratio (maxTotalSize : Int) (heapsize : Nat)
  | zero
  | exit (msg : String)
  deriving DecidableEq

def memHeapsize (h : Heap) : Nat := wsub h.memBrk h.memStartBrk

/-- The sum of the sizes of the blocks that are out, and the largest that it was. -/
structure Totals where
  totalSize : Int
  maxTotalSize : Int

def Totals.grow (t : Totals) (size : Int) : Totals :=
  let totalSize := t.totalSize + size
  ⟨totalSize, if totalSize > t.maxTotalSize then totalSize else t.maxTotalSize⟩

namespace Driver

def utilStep (al : Allocator) (tracenum i : Nat) (op : TraceOp) (d : Driver) (t : Totals) :
    Option (Except Util Totals × Driver) :=
  match op.type with
  | .alloc => do
    let (p, heap) := al.mmMalloc i d.heap op.size
    let d := { d with heap }
    if p = null then return (.error (.exit "mm_malloc failed in eval_mm_util"), d)
    let (ok, d) ← d.addRange p op.size tracenum i
    if ok = false then return (.error .zero, d)
    return (.ok (t.grow op.size), d.remember op p)
  | .realloc => do
    let oldp := d.blocks op.index
    let (newp, heap) := al.mmRealloc i d.heap oldp op.size
    let d := { d with heap }
    if newp = null then return (.error (.exit "mm_realloc failed in eval_mm_util"), d)
    let d := { d with ranges := removeRange d.ranges oldp }
    let (ok, d) ← d.addRange newp op.size tracenum i
    if ok = false then return (.error .zero, d)
    let oldsize := d.blockSizes op.index
    return (.ok (t.grow (op.size - oldsize)), d.remember op newp)
  | .free => do
    let size := d.blockSizes op.index
    let p := d.blocks op.index
    let d := { d with ranges := removeRange d.ranges p }
    return (.ok { t with totalSize := t.totalSize - size }, { d with heap := al.mmFree i d.heap p })

def utilOps (al : Allocator) (tracenum : Nat) :
    Nat → Driver → Totals → List TraceOp → Option (Util × Driver)
  | _, d, t, [] => some (.ratio t.maxTotalSize (memHeapsize d.heap), d)
  | i, d, t, op :: ops => do
    match ← d.utilStep al tracenum i op t with
    | (.error u, d) => return (u, d)
    | (.ok t, d) => utilOps al tracenum (i + 1) d t ops

/-- One request of `eval_mm_speed`, which looks at no range and keeps no sizes. -/
def speedStep (al : Allocator) (i : Nat) (op : TraceOp) (d : Driver) : Except String Driver :=
  match op.type with
  | .alloc =>
    let (p, heap) := al.mmMalloc i d.heap op.size
    if p = null then .error "mm_malloc error in eval_mm_speed"
    else .ok { d with
      heap := { heap with mem := memset heap.mem p (fillByte op.index) op.size.toNat }
      blocks := Function.update d.blocks op.index p }
  | .realloc =>
    let oldp := d.blocks op.index
    let (newp, heap) := al.mmRealloc i d.heap oldp op.size
    if newp = null then .error "mm_realloc error in eval_mm_speed"
    else .ok { d with
      heap := { heap with mem := memset heap.mem newp (fillByte op.index) op.size.toNat }
      blocks := Function.update d.blocks op.index newp }
  | .free => .ok { d with heap := al.mmFree i d.heap (d.blocks op.index) }

def speedOps (al : Allocator) : Nat → Driver → List TraceOp → Except String Driver
  | _, d, [] => .ok d
  | i, d, op :: ops => do speedOps al (i + 1) (← d.speedStep al i op) ops

end Driver

def evalMmUtil (al : Allocator) (tracenum : Nat) (d : Driver) (trace : List TraceOp) :
    Option (Util × Driver) :=
  let (r, d) := d.started al
  if r < 0 then some (.exit "mm_init failed in eval_mm_util", d)
  else Driver.utilOps al tracenum 0 d ⟨0, 0⟩ trace

/-- The range list is left as it is. -/
def evalMmSpeed (al : Allocator) (d : Driver) (trace : List TraceOp) : Except String Driver :=
  let (r, heap) := al.mmInit (memResetBrk d.heap)
  if r < 0 then .error "mm_init failed in eval_mm_speed"
  else Driver.speedOps al 0 { d with heap } trace

/-- Every call of `eval_mm_util` comes back. -/
def UtilReturns (tracenum i : Nat) (d : Driver) (t : Totals) (ops : List TraceOp) : Prop :=
  ReturnsAlong Prod.fst (fun i op (s s' : Driver × Totals) =>
    s.1.utilStep mm tracenum i op s.2 = some (.ok s'.2, s'.1)) i (d, t) ops

/-- Every call of `eval_mm_speed` comes back. -/
def SpeedReturns : Nat → Driver → List TraceOp → Prop :=
  ReturnsAlong id fun i op d d' => d.speedStep mm i op = .ok d'

/-! ## What is out -/

/-- The size of the last block of every id, and the sum of the sizes of those that have not
been given back. -/
structure Sizes where
  size : Nat → Int
  total : Int

def Sizes.next (s : Sizes) (op : TraceOp) : Sizes :=
  match op.type with
  | .alloc => ⟨Function.update s.size op.index op.size, s.total + op.size⟩
  | .realloc => ⟨Function.update s.size op.index op.size, s.total - s.size op.index + op.size⟩
  | .free => ⟨s.size, s.total - s.size op.index⟩

/-- The sums that are met in the course of a trace. -/
def totals (ops : List TraceOp) : Set Int := Peak.values Sizes.next Sizes.total ⟨fun _ => 0, 0⟩ ops

/-- The heaps lie at the same place, are as large, and the same blocks of them are free. -/
structure SameExtents (h h' : Heap) : Prop where
  start : h'.memStartBrk = h.memStartBrk
  max : h'.memMaxAddr = h.memMaxAddr
  brk : h'.memBrk = h.memBrk
  free : freeExtents h' = freeExtents h

def liveSize (live : List Live) : Nat := (live.map Live.size).sum

variable {h h' : Heap} {d d' e e' : Driver} {g : Ledger} {op : TraceOp} {ops : List TraceOp}
  {bs bs' : List Block} {fl fl' : List Nat} {live : List Live} {b : Live} {s t s' : Session}
  {ids : Nat → Bool} {size q q' ptr i tracenum : Nat}

/-! ## Calls -/

theorem exec_malloc (hrun : mmMalloc s.heap size = some (q, h)) :
    s.exec (.malloc size) = some ⟨h, hold s.live q size⟩ := by
  simp only [exec, hrun, Option.bind_eq_bind, Option.bind_some, Option.pure_def]

theorem exec_free (hrun : mmFree s.heap ptr = some h) :
    s.exec (.free ptr) = some ⟨h, drop s.live ptr⟩ := by
  simp only [exec, hrun, Option.bind_eq_bind, Option.bind_some, Option.pure_def]

theorem hold_inj (heq : hold live q size = hold live q' size) : q = q' := by
  unfold hold at heq
  by_cases hq : q = null <;> by_cases hq' : q' = null
  · rw [hq, hq']
  · rw [if_pos hq, if_neg hq'] at heq
    exact absurd heq.symm (List.cons_ne_self _ _)
  · rw [if_neg hq, if_pos hq'] at heq
    exact absurd heq (List.cons_ne_self _ _)
  · rw [if_neg hq, if_neg hq'] at heq
    exact congrArg Live.ptr (List.cons.inj heq).1

theorem Alike.symm (ha : Alike s t) : Alike t s := by
  obtain ⟨bs, fl, ht⟩ := ha.twin
  exact ⟨ha.live.symm, ha.right, ha.left, bs, fl, ht.symm⟩

/-- The fill byte of one client does not show in the layout. -/
theorem Alike.memset (ha : Alike s t) (hb : b ∈ s.live) (v : UInt8) :
    Alike ⟨{ s.heap with mem := Malloc.memset s.heap.mem b.ptr v b.size }, s.live⟩ t := by
  obtain ⟨bs, fl, ht⟩ := ha.twin
  obtain ⟨bs₁, fl₁, hi₁⟩ := ha.left
  obtain ⟨c, hc, hptr, hsize⟩ := hi₁.block_of_live b hb
  obtain rfl : bs₁ = bs := hi₁.toLayoutInv.unique ht.left.toLayoutInv
  refine ⟨ha.live, ⟨_, _, hi₁.memset hb v⟩, ha.right, _, fl, ht.write hc fun x hx => ?_⟩
  refine memset_of_not_mem ?_
  unfold Block.stop at hx
  omega

/-! ## A run again -/

/-- The driver `e` is where `d` was in the run before. -/
structure Replays (d : Driver) (g : Ledger) (e : Driver) : Prop where
  alike : Alike ⟨d.heap, g.live⟩ ⟨e.heap, g.live⟩
  block : ∀ i b, g.ids i = some b → e.blocks i = b.ptr

/-- `mm_malloc` gives the payload that it gave. -/
theorem Replays.alloc (hr : Replays d g e) (hs : Serves d g bs fl) (htype : op.type = .alloc)
    (hpos : 0 < op.size) (hsmall : op.size ≤ intMax)
    (hstep : d.step mm tracenum i op = some (true, d'))
    (hs' : Serves d' (g.next op (d'.blocks op.index) d'.heap.mem) bs' fl') :
    Returns e op ∧ ∃ q h, d'.blocks op.index = q ∧ mm.mmMalloc i e.heap op.size = (q, h) ∧
      InPlace h g.live q op.size ∧
      h.memStartBrk = e.heap.memStartBrk ∧ e.heap.memBrk ≤ h.memBrk ∧ ∀ e' : Driver,
        e'.heap = { h with mem := memset h.mem q (fillByte op.index) op.size.toNat } →
        e'.blocks = Function.update e.blocks op.index q →
        Replays d' (g.next op (d'.blocks op.index) d'.heap.mem) e' := by
  have hsize : toSize op.size = op.size.toNat := toSize_eq hpos hsmall
  have hle : op.size.toNat ≤ intMax := by omega
  obtain ⟨q, k, -, -, hrun, -⟩ := hs.session.malloc_call hle
  obtain ⟨t, hexec, ha⟩ := hr.alike.malloc hle (exec_malloc (s := ⟨d.heap, g.live⟩) hrun)
  obtain ⟨bs₂, fl₂, hi₂⟩ := hr.alike.right
  obtain ⟨q₂, h, bs₂', fl₂', hrun₂, hi₂', -, hf, -⟩ := hi₂.malloc_call hle
  rw [exec_malloc hrun₂] at hexec
  obtain rfl := Option.some.inj hexec
  obtain rfl : q = q₂ := hold_inj ha.live
  obtain ⟨ranges, rfl⟩ := step_alloc htype hstep
  have hans : mm.mmMalloc i d.heap op.size = (q, k) := mm_malloc_eq hsize hrun
  have hans₂ : mm.mmMalloc i e.heap op.size = (q, h) := mm_malloc_eq hsize hrun₂
  rw [blocks_remember, hans, Ledger.next, htype] at hs' ⊢
  have hne : q ≠ null := hs'.session.ptr_ne_null List.mem_cons_self
  have hlive : hold g.live q op.size.toNat = ⟨q, op.size.toNat⟩ :: g.live := if_neg hne
  rw [hlive] at ha hi₂'
  have hstart : h.memStartBrk = e.heap.memStartBrk := hf.start
  have hal : h.memStartBrk % 8 = 0 := by
    obtain ⟨bs, fl, ht⟩ := hr.alike.twin
    rw [hstart, ← ht.start]
    exact hs.aligned
  refine ⟨returns_alloc htype hsize hrun₂, q, h, rfl, hans₂, hi₂'.inPlace hal, hstart, hf.brk,
    fun e' heap blocks => ⟨?_, ?_⟩⟩
  · rw [heap]
    exact ((ha.memset List.mem_cons_self _).symm.memset List.mem_cons_self _).symm
  · intro j b hb
    rw [blocks]
    rcases ids_hold hb with ⟨rfl, rfl⟩ | ⟨hj, hb⟩
    · exact Function.update_self ..
    · rw [Function.update_of_ne hj]
      exact hr.block j b hb

theorem Replays.free (hr : Replays d g e) (hs : Serves d g bs fl) (htype : op.type = .free)
    (hb : g.ids op.index = some b) (hstep : d.step mm tracenum i op = some (true, d')) :
    Returns e op ∧
      (mm.mmFree i e.heap (e.blocks op.index)).memStartBrk = e.heap.memStartBrk ∧
      e.heap.memBrk ≤ (mm.mmFree i e.heap (e.blocks op.index)).memBrk ∧ ∀ e' : Driver,
        e'.heap = mm.mmFree i e.heap (e.blocks op.index) → e'.blocks = e.blocks →
        Replays d' (g.next op (d'.blocks op.index) d'.heap.mem) e' := by
  have hptr := (hs.agrees.block op.index b hb).1
  have hmem := hs.agrees.mem _ b hb
  obtain ⟨k, -, -, hrun, -⟩ := hs.session.free_call (holds_of_mem hmem)
  obtain ⟨t, hexec, ha⟩ := hr.alike.free (Or.inr ⟨b, hmem, rfl⟩)
    (exec_free (s := ⟨d.heap, g.live⟩) hrun)
  obtain ⟨bs₂, fl₂, hi₂⟩ := hr.alike.right
  obtain ⟨h, -, -, hrun₂, -, -, hf, -⟩ := hi₂.free_call (holds_of_mem hmem)
  rw [exec_free hrun₂] at hexec
  obtain rfl := Option.some.inj hexec
  obtain ⟨ranges, rfl⟩ := step_free htype hstep
  rw [← hptr] at hrun
  rw [← hr.block _ b hb] at hrun₂
  have hans : mm.mmFree i d.heap (d.blocks op.index) = k := mm_free_eq hrun
  have hans₂ : mm.mmFree i e.heap (e.blocks op.index) = h := mm_free_eq hrun₂
  rw [hans, hans₂, Ledger.next, htype, hb]
  refine ⟨returns_free htype hrun₂, hf.start, hf.brk, fun e' heap blocks => ⟨?_, fun j c hc => ?_⟩⟩
  · rw [heap]
    exact ha
  · rw [blocks]
    exact hr.block j c (ids_release hc).2

/-! ## What is out at most -/

theorem SessionInv.heapsize (hi : SessionInv ⟨h, live⟩ bs fl) :
    memHeapsize h = h.memBrk - h.memStartBrk := by
  have hle : h.memStartBrk ≤ h.memBrk := hi.placed.start_le
  have hbrk : h.memBrk ≤ h.memMaxAddr := hi.placed.brk_le
  have htop : h.memMaxAddr + 2 ^ 31 ≤ 2 ^ 64 := hi.placed.top
  exact wsub_eq hle (by omega)

theorem Twin.sameExtents {h₁ h₂ : Heap} (ht : Twin h₁ h₂ bs fl) : SameExtents h₁ h₂ :=
  ⟨ht.start.symm, ht.max.symm, ht.brk.symm, ht.freeExtents.symm⟩

theorem SameExtents.heapsize (hs : SameExtents h h') : memHeapsize h' = memHeapsize h := by
  unfold memHeapsize
  rw [hs.brk, hs.start]

/-- The payloads that are out do not fill the heap. -/
theorem SessionInv.liveSize_lt (hi : SessionInv ⟨h, live⟩ bs fl) :
    liveSize live < h.memBrk - h.memStartBrk := by
  have hgrown : h.memStartBrk + 96 ≤ h.memBrk := hi.grown
  have hsum := @Peak.sum_le_of_apart (h.memStartBrk + 8) h.memBrk
    (live.map fun b => (b.ptr, b.size)) ?_ ?_
  · rw [List.map_map] at hsum
    have hsum' : liveSize live ≤ h.memBrk - (h.memStartBrk + 8) := hsum
    omega
  · intro p hp
    obtain ⟨b, hb, rfl⟩ := List.mem_map.mp hp
    obtain ⟨c, hc, hptr, hsize⟩ := hi.block_of_live b hb
    have hin := hi.tiles.bounds hc.1
    unfold Block.stop at hin
    simp only at hin ⊢
    omega
  · exact List.pairwise_map.mpr hi.pairwise

theorem liveSize_drop (hn : (live.map Live.ptr).Nodup) (hb : b ∈ live) :
    liveSize live = b.size + liveSize (drop live b.ptr) := by
  induction live with
  | nil => cases hb
  | cons a live ih =>
    obtain ⟨ha, hn⟩ := List.nodup_cons.mp hn
    have hcons : ∀ live, liveSize (a :: live) = a.size + liveSize live := fun _ => List.sum_cons
    rw [hcons]
    rcases List.mem_cons.mp hb with rfl | hb
    · have hdrop : drop (b :: live) b.ptr = live := by
        rw [drop, List.filter_cons_of_neg (by simp)]
        refine List.filter_eq_self.mpr fun c hc => decide_eq_true fun heq => ha ?_
        exact heq ▸ List.mem_map_of_mem hc
      rw [hdrop]
    · have hne : a.ptr ≠ b.ptr := fun heq => ha (heq ▸ List.mem_map_of_mem hb)
      have hdrop : drop (a :: live) b.ptr = a :: drop live b.ptr :=
        List.filter_cons_of_pos (decide_eq_true hne)
      rw [hdrop, hcons, ih hn hb]
      omega

/-- The sums of the trace are those of the ledger. -/
structure Sums (g : Ledger) (s : Sizes) : Prop where
  total : s.total = liveSize g.live
  size : ∀ i b, g.ids i = some b → s.size i = b.size

theorem Sums.alloc {s : Sizes} (hg : Sums g s) (hpos : 0 < op.size) (htype : op.type = .alloc)
    (m : Bytes.Memory) : Sums (g.next op q m) (s.next op) := by
  have hnat : (op.size.toNat : Int) = op.size := Int.toNat_of_nonneg hpos.le
  rw [Ledger.next, Sizes.next, htype]
  refine ⟨?_, fun i b hb => ?_⟩
  · change s.total + op.size = ((op.size.toNat + liveSize g.live : Nat) : Int)
    rw [Int.natCast_add, hnat, hg.total, Int.add_comm]
  · rcases ids_hold hb with ⟨rfl, rfl⟩ | ⟨hi, hb⟩
    · exact (Function.update_self ..).trans hnat.symm
    · exact (Function.update_of_ne hi ..).trans (hg.size i b hb)

theorem Sums.free {s : Sizes} (hg : Sums g s) (htype : op.type = .free)
    (hb : g.ids op.index = some b) (hmem : b ∈ g.live) (hn : (g.live.map Live.ptr).Nodup)
    (m : Bytes.Memory) : Sums (g.next op q m) (s.next op) := by
  rw [Ledger.next, Sizes.next, htype, hb]
  refine ⟨?_, fun i c hc => hg.size i c (ids_release hc).2⟩
  change s.total - s.size op.index = (liveSize (drop g.live b.ptr) : Int)
  rw [hg.total, hg.size _ b hb, liveSize_drop hn hmem]
  omega

/-! ## eval_mm_util -/

/-- The driver `e` of `eval_mm_util` is where the driver `d` of `eval_mm_valid` was. -/
structure Again (d : Driver) (g : Ledger) (e : Driver) (s : Sizes) : Prop where
  replays : Replays d g e
  booked : ∃ stored, Agrees e { g with stored := stored }
  sums : Sums g s

/-- The largest sum so far is below the size of the heap. -/
def Bounded (t : Totals) (h : Heap) : Prop := t.maxTotalSize < (h.memBrk : Int) - h.memStartBrk

theorem Again.total_lt {s : Sizes} (ha : Again d g e s) :
    s.total < (e.heap.memBrk : Int) - e.heap.memStartBrk := by
  obtain ⟨bs, fl, hi⟩ := ha.replays.alike.right
  have hlt := hi.liveSize_lt
  rw [ha.sums.total]
  omega

theorem grow_max (t : Totals) (n : Int) :
    (t.grow n).maxTotalSize = max t.maxTotalSize (t.totalSize + n) := by
  simp only [Totals.grow]
  split_ifs <;> omega

theorem Again.step {s : Sizes} {t : Totals} (ha : Again d g e s) (hs : Serves d g bs fl)
    (ht : Tracks g ids) (hv : ValidTrace ids (op :: ops)) (hplain : Plain op)
    (hstep : d.step mm tracenum i op = some (true, d'))
    (hs' : Serves d' (g.next op (d'.blocks op.index) d'.heap.mem) bs' fl')
    (htotal : t.totalSize = s.total) (hmax : s.total ≤ t.maxTotalSize) :
    Returns e op ∧ ∃ t' e', e.utilStep mm tracenum i op t = some (.ok t', e') ∧
      Again d' (g.next op (d'.blocks op.index) d'.heap.mem) e' (s.next op) ∧
      t'.totalSize = (s.next op).total ∧
      t'.maxTotalSize = max t.maxTotalSize (s.next op).total ∧ e'.errors = e.errors ∧
      e'.heap.memStartBrk = e.heap.memStartBrk ∧ e.heap.memBrk ≤ e'.heap.memBrk := by
  obtain ⟨stored, hbook⟩ := ha.booked
  obtain ⟨-, -, ⟨htype, hpos⟩ | ⟨b, htype, -⟩ | ⟨b, htype, hb⟩⟩ := hv.cases ht 0 d.heap.mem
  · obtain ⟨hret, q, h, hq, hans, hplace, hstart, hbrk, hnext⟩ :=
      ha.replays.alloc hs htype hpos hplain.small hstep hs'
    have hbook' := hbook.heap h
    have hadd := hbook'.addRange hplace hpos tracenum i
    have hsum : (s.next op).total = s.total + op.size := by rw [Sizes.next, htype]
    refine ⟨hret, t.grow op.size, Driver.remember
      { e with heap := h, ranges := ⟨q, q + op.size.toNat - 1⟩ :: e.ranges } op q, ?_,
      ⟨hnext _ rfl rfl, ?_, ha.sums.alloc hpos htype _⟩, ?_, ?_, rfl, hstart, hbrk⟩
    · rw [Driver.utilStep, htype]
      simp only [hans]
      rw [if_neg hplace.nonNull, hadd]
      rfl
    · rw [hq, Ledger.next, htype]
      exact ⟨_, hbook'.hold hplace hpos rfl⟩
    · rw [hsum, ← htotal]
      rfl
    · rw [grow_max, hsum, htotal]
  · exact absurd htype hplain.noRealloc
  · obtain ⟨hret, hstart, hbrk, hnext⟩ := ha.replays.free hs htype hb hstep
    have hmem := hs.agrees.mem _ b hb
    have hsum : (s.next op).total = s.total - b.size := by
      rw [Sizes.next, htype, ← ha.sums.size _ b hb]
    have hblock : e.blocks op.index = b.ptr ∧ e.blockSizes op.index = b.size :=
      hbook.block op.index b hb
    refine ⟨hret, { t with totalSize := t.totalSize - b.size },
      { e with heap := mm.mmFree i e.heap b.ptr, ranges := removeRange e.ranges b.ptr }, ?_,
      ⟨hnext _ (by rw [hblock.1]) rfl, ?_, ha.sums.free htype hb hmem hs.session.nodup _⟩, ?_, ?_, rfl,
      ?_, ?_⟩
    · rw [Driver.utilStep, htype, hblock.1, hblock.2]
      rfl
    · rw [Ledger.next, htype, hb]
      exact ⟨_, (hbook.release hb).heap _⟩
    · rw [hsum, htotal]
    · rw [hsum]
      change t.maxTotalSize = _
      omega
    · rw [← hstart, hblock.1]
    · rw [← hblock.1]
      exact hbrk

theorem evalOps_cons {r : Int} (hrun : Driver.evalOps mm tracenum i d (op :: ops) = some (r, d'))
    (hr : r = 1) : ∃ d₁, d.step mm tracenum i op = some (true, d₁) ∧
      Driver.evalOps mm tracenum (i + 1) d₁ ops = some (r, d') := by
  obtain ⟨⟨ok, d₁⟩, hstep, hrest⟩ := Option.bind_eq_some_iff.mp hrun
  cases ok with
  | true => exact ⟨d₁, hstep, hrest⟩
  | false =>
    cases hrest
    cases hr

/-- A request that has gone through once. -/
theorem Serves.next (hs : Serves d g bs fl) (ht : Tracks g ids) (hv : ValidTrace ids (op :: ops))
    (hplain : Plain op) (hstep : d.step mm tracenum i op = some (true, d')) :
    ∃ bs' fl', Serves d' (g.next op (d'.blocks op.index) d'.heap.mem) bs' fl' := by
  obtain ⟨-, d₁, -, ⟨hstep', -, -, hs'⟩ | ⟨hstep', -⟩⟩ := hs.step ht hv hplain tracenum i
  · obtain rfl : d' = d₁ := by simpa [hstep] using hstep'
    exact hs'
  · simp [hstep] at hstep'

theorem Again.utilOps {s : Sizes} {t : Totals} (ha : Again d g e s) (hs : Serves d g bs fl)
    (ht : Tracks g ids) (hv : ValidTrace ids ops) (hplain : ∀ op ∈ ops, Plain op)
    (hrun : Driver.evalOps mm tracenum i d ops = some (1, d')) (htotal : t.totalSize = s.total)
    (hmax : s.total ≤ t.maxTotalSize) (hbound : Bounded t e.heap) :
    UtilReturns tracenum i e t ops ∧
      ∃ m e', Driver.utilOps mm tracenum i e t ops = some (.ratio m (memHeapsize e'.heap), e') ∧
      e'.errors = e.errors ∧ SameExtents d'.heap e'.heap ∧
      IsGreatest (insert t.maxTotalSize (Peak.values Sizes.next Sizes.total s ops)) m ∧
      m < memHeapsize e'.heap := by
  induction ops generalizing d g e s t bs fl ids i with
  | nil =>
    cases hrun
    obtain ⟨bs, fl, htwin⟩ := ha.replays.alike.twin
    refine ⟨trivial, t.maxTotalSize, e, rfl, rfl, htwin.sameExtents, ?_, ?_⟩
    · rw [Peak.values_nil]
      refine ⟨Or.inl rfl, ?_⟩
      rintro n (rfl | rfl)
      · exact le_refl _
      · exact hmax
    · obtain ⟨bs', fl', hi⟩ := ha.replays.alike.right
      unfold Bounded at hbound
      have hle : e.heap.memStartBrk ≤ e.heap.memBrk := hi.placed.start_le
      rw [hi.heapsize]
      omega
  | cons op ops ih =>
    obtain ⟨d₁, hstep, hrest⟩ := evalOps_cons hrun rfl
    have hp := hplain op List.mem_cons_self
    obtain ⟨bs', fl', hs'⟩ := hs.next ht hv hp hstep
    obtain ⟨hv', ht', -⟩ := hv.cases ht (d₁.blocks op.index) d₁.heap.mem
    obtain ⟨hret, t', e₁, hutil, ha', htotal', hmax', herr, hstart', hbrk⟩ :=
      ha.step hs ht hv hp hstep hs' htotal hmax
    have hbound' : Bounded t' e₁.heap := by
      have hlt := ha'.total_lt
      unfold Bounded at hbound ⊢
      omega
    obtain ⟨hall, m, e', hrun', herr', hsize', hgreat, hm⟩ :=
      ih ha' hs' ht' hv' (fun o ho => hplain o (List.mem_cons_of_mem _ ho)) hrest htotal'
        (by omega) hbound'
    refine ⟨returnsAlong_cons (e₁, t') hret (fun s'' hs'' => ?_) hall, m, e', ?_,
      herr'.trans herr, hsize', ?_, hm⟩
    · cases hutil.symm.trans hs''
      rfl
    · rw [Driver.utilOps, hutil]
      exact hrun'
    · rw [hmax'] at hgreat
      exact Peak.greatest_cons hmax hgreat

/-! ## eval_mm_speed -/

theorem Replays.speedOps (hr : Replays d g e) (hs : Serves d g bs fl) (ht : Tracks g ids)
    (hv : ValidTrace ids ops) (hplain : ∀ op ∈ ops, Plain op)
    (hrun : Driver.evalOps mm tracenum i d ops = some (1, d')) :
    SpeedReturns i e ops ∧
      ∃ e', Driver.speedOps mm i e ops = .ok e' ∧ SameExtents d'.heap e'.heap := by
  induction ops generalizing d g e bs fl ids i with
  | nil =>
    cases hrun
    obtain ⟨bs, fl, htwin⟩ := hr.alike.twin
    exact ⟨trivial, e, rfl, htwin.sameExtents⟩
  | cons op ops ih =>
    obtain ⟨d₁, hstep, hrest⟩ := evalOps_cons hrun rfl
    have hp := hplain op List.mem_cons_self
    have hrest' : ∀ op ∈ ops, Plain op := fun o ho => hplain o (List.mem_cons_of_mem _ ho)
    obtain ⟨bs', fl', hs'⟩ := hs.next ht hv hp hstep
    obtain ⟨hv', ht', -⟩ := hv.cases ht (d₁.blocks op.index) d₁.heap.mem
    obtain ⟨-, -, ⟨htype, hpos⟩ | ⟨b, htype, -⟩ | ⟨b, htype, hb⟩⟩ := hv.cases ht 0 d.heap.mem
    · obtain ⟨hret, q, h, -, hans, hplace, -, -, hnext⟩ :=
        hr.alloc hs htype hpos hp.small hstep hs'
      obtain ⟨e₁, hspeed, hheap, hblocks⟩ : ∃ e₁, e.speedStep mm i op = .ok e₁ ∧
          e₁.heap = { h with mem := memset h.mem q (fillByte op.index) op.size.toNat } ∧
          e₁.blocks = Function.update e.blocks op.index q := by
        rw [Driver.speedStep, htype]
        simp only [hans]
        rw [if_neg hplace.nonNull]
        exact ⟨_, rfl, rfl, rfl⟩
      obtain ⟨hall, e', hrun', hend⟩ := ih (hnext e₁ hheap hblocks) hs' ht' hv' hrest' hrest
      refine ⟨returnsAlong_cons e₁ hret (fun e'' he'' => ?_) hall, e', ?_, hend⟩
      · cases hspeed.symm.trans he''
        rfl
      · rw [Driver.speedOps, hspeed]
        exact hrun'
    · exact absurd htype hp.noRealloc
    · obtain ⟨hret, -, -, hnext⟩ := hr.free hs htype hb hstep
      obtain ⟨e₁, hspeed, hheap, hblocks⟩ : ∃ e₁, e.speedStep mm i op = .ok e₁ ∧
          e₁.heap = mm.mmFree i e.heap (e.blocks op.index) ∧ e₁.blocks = e.blocks := by
        rw [Driver.speedStep, htype]
        exact ⟨_, rfl, rfl, rfl⟩
      obtain ⟨hall, e', hrun', hend⟩ := ih (hnext e₁ hheap hblocks) hs' ht' hv' hrest' hrest
      refine ⟨returnsAlong_cons e₁ hret (fun e'' he'' => ?_) hall, e', ?_, hend⟩
      · cases hspeed.symm.trans he''
        rfl
      · rw [Driver.speedOps, hspeed]
        exact hrun'

/-! ## The three runs of a trace -/

/-- The first run and one after it, behind `mm_init`. -/
theorem started_again {ar : Arena} (ha : ar.start % 8 = 0) (hd : OnArena ar d.heap)
    (he : OnArena ar e.heap) (hrun : evalMmValid mm tracenum d ops = some (1, d')) :
    Driver.evalOps mm tracenum 0 (d.started mm).2 ops = some (1, d') ∧
      ∃ h' bs fl bs' fl', mmInit (memResetBrk e.heap) = some (0, h') ∧
        h'.memStartBrk + 96 ≤ h'.memBrk ∧ Serves (d.started mm).2 Ledger.empty bs fl ∧
        Serves (e.started mm).2 Ledger.empty bs' fl' ∧
        ∀ e₀ : Driver, e₀.heap = h' → Replays (d.started mm).2 Ledger.empty e₀ := by
  obtain ⟨h, p, f, l, hinit, hi, hstart, hfree, hsize, hbrk⟩ := mm_started hd
  obtain ⟨h', p', f', l', hinit', hi', hstart', hfree', hsize', hbrk'⟩ := mm_started he
  have halike : Alike ⟨h, []⟩ ⟨h', []⟩ :=
    .initial hi hi' (hstart.trans hstart'.symm) hfree hfree' (hsize.trans hsize'.symm)
  refine ⟨?_, h', _, _, _, _, hinit', by rw [hstart', hbrk'],
    serves_started hinit hi hfree (by rw [hstart, ha]),
    serves_started hinit' hi' hfree' (by rw [hstart', ha]), fun e₀ heq => ⟨?_, ?_⟩⟩
  · rw [evalMmValid, started_mm hinit] at hrun
    rw [started_mm hinit]
    exact hrun
  · rw [heq, started_mm hinit]
    exact halike
  · intro i b hb
    cases hb

theorem evalMmUtil_mm {ar : Arena} (ha : ar.start % 8 = 0) (hd : OnArena ar d.heap)
    (he : OnArena ar e.heap) (hv : ValidTrace (fun _ => false) ops) (hplain : ∀ op ∈ ops, Plain op)
    (hrun : evalMmValid mm tracenum d ops = some (1, d')) :
    UtilReturns tracenum 0 (e.started mm).2 ⟨0, 0⟩ ops ∧
      ∃ m e', evalMmUtil mm tracenum e ops = some (.ratio m (memHeapsize d'.heap), e') ∧
      IsGreatest (totals ops) m ∧ m < memHeapsize d'.heap ∧ e'.errors = e.errors ∧
      SameExtents d'.heap e'.heap := by
  obtain ⟨hfirst, h', bs, fl, bs', fl', hinit', hbrk', hs, hs', hreplays⟩ := started_again ha hd he hrun
  have hagain : Again (d.started mm).2 Ledger.empty (e.started mm).2 ⟨fun _ => 0, 0⟩ :=
    ⟨hreplays _ (by rw [started_mm hinit']), ⟨_, hs'.agrees⟩, rfl, by
      intro i b hb
      cases hb⟩
  have hbound : Bounded ⟨0, 0⟩ (e.started mm).2.heap := by
    rw [started_mm hinit']
    unfold Bounded
    simp only
    omega
  obtain ⟨hall, m, e', hutil, herr, hheap, hgreat, hm⟩ :=
    hagain.utilOps hs (fun _ => rfl) hv hplain hfirst rfl (le_refl _) hbound
  have hgreat' : IsGreatest (insert 0 (totals ops)) m := hgreat
  have hzero : 0 ∈ totals ops := Peak.value_mem
  rw [Set.insert_eq_of_mem hzero] at hgreat'
  rw [started_mm hinit'] at hutil herr
  rw [hheap.heapsize] at hutil hm
  refine ⟨hall, m, e', ?_, hgreat', hm, herr, hheap⟩
  rw [evalMmUtil, started_mm hinit']
  exact hutil

theorem evalMmSpeed_mm {ar : Arena} (ha : ar.start % 8 = 0) (hd : OnArena ar d.heap)
    (he : OnArena ar e.heap) (hv : ValidTrace (fun _ => false) ops) (hplain : ∀ op ∈ ops, Plain op)
    (hrun : evalMmValid mm tracenum d ops = some (1, d')) :
    SpeedReturns 0 { e with heap := (mm.mmInit (memResetBrk e.heap)).2 } ops ∧
      ∃ e', evalMmSpeed mm e ops = .ok e' ∧ SameExtents d'.heap e'.heap := by
  obtain ⟨hfirst, h', bs, fl, bs', fl', hinit', -, hs, -, hreplays⟩ := started_again ha hd he hrun
  obtain ⟨hall, e', hspeed, hend⟩ :=
    (hreplays { e with heap := h' } rfl).speedOps hs (fun _ => rfl) hv hplain hfirst
  rw [evalMmSpeed, mm_init_eq hinit']
  exact ⟨hall, e', hspeed, hend⟩

/-- **The runs after the first.** When the package of `mm.c` has passed on a trace without
reallocations, `eval_mm_util` comes to a ratio, of the largest sum of sizes that was out to
the size of the heap, and that is less than 1; and `eval_mm_speed` comes to its end. No call
of theirs faults, and both leave the heap as large as the first run did, with the same blocks
free. -/
theorem mm_measured {ar : Arena} (ha : ar.start % 8 = 0) (hd : OnArena ar d.heap)
    (he : OnArena ar e.heap) (hv : ValidTrace (fun _ => false) ops) (hplain : ∀ op ∈ ops, Plain op)
    (hrun : evalMmValid mm tracenum d ops = some (1, d')) :
    (UtilReturns tracenum 0 (e.started mm).2 ⟨0, 0⟩ ops ∧
      ∃ m e', evalMmUtil mm tracenum e ops = some (.ratio m (memHeapsize d'.heap), e') ∧
        IsGreatest (totals ops) m ∧ m < memHeapsize d'.heap ∧ e'.errors = e.errors ∧
        SameExtents d'.heap e'.heap) ∧
      SpeedReturns 0 { e with heap := (mm.mmInit (memResetBrk e.heap)).2 } ops ∧
      ∃ e', evalMmSpeed mm e ops = .ok e' ∧ SameExtents d'.heap e'.heap :=
  ⟨evalMmUtil_mm ha hd he hv hplain hrun, evalMmSpeed_mm ha hd he hv hplain hrun⟩

theorem reuse_measured : ∃ d', evalMmValid mm 0 worn reuse = some (1, d') ∧
    (UtilReturns 0 0 (worn.started mm).2 ⟨0, 0⟩ reuse ∧
      ∃ m e', evalMmUtil mm 0 worn reuse = some (.ratio m (memHeapsize d'.heap), e') ∧
        IsGreatest (totals reuse) m ∧ m < memHeapsize d'.heap ∧ e'.errors = [] ∧
        SameExtents d'.heap e'.heap) ∧
      SpeedReturns 0 { worn with heap := (mm.mmInit (memResetBrk worn.heap)).2 } reuse ∧
      ∃ e', evalMmSpeed mm worn reuse = .ok e' ∧ SameExtents d'.heap e'.heap := by
  have hrun : ((evalMmValid mm 0 worn reuse).any fun r => r.1 = 1) = true := by decide +kernel
  obtain ⟨⟨r, d'⟩, hvalid, hr⟩ := (Option.any_eq_true _ _).mp hrun
  obtain rfl : r = 1 := of_decide_eq_true hr
  have harena : OnArena smallArena worn.heap := ⟨rfl, rfl⟩
  exact ⟨d', hvalid, mm_measured (by decide) harena ⟨rfl, rfl⟩
    (by simp [ValidTrace, reuse]) (by decide) hvalid⟩

end CourseProjects.Malloc

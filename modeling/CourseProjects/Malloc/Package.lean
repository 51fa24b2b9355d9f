import Mathlib.Algebra.Ring.Nat
import CourseProjects.Malloc.Contract
import CourseProjects.Malloc.Placement
import CourseProjects.Malloc.Validity

/-!
# `eval_mm_valid` on `mm.c`

The driver is linked with the package of `mm.c`. Every answer but `NULL` is correct, so on
a trace without reallocations the driver has nothing to say but `mm_malloc failed.`, and
that only when the arena is used up.
-/

namespace CourseProjects.Malloc

open Session

/-- An `int` as a `size_t`. -/
def toSize (size : Int) : Nat := (size % 2 ^ 64).toNat

/-- The package of `mm.c`. What stands for a call that faults is never met, see
`ReturnsAlong`. -/
def mm : Allocator where
  mmInit h := (Malloc.mmInit h).getD (-1, h)
  mmMalloc _ h size := (Malloc.mmMalloc h (toSize size)).getD (null, h)
  mmRealloc _ h p size := (Malloc.mmRealloc h p (toSize size)).getD (null, h)
  mmFree _ h p := (Malloc.mmFree h p).getD h

/-- The call that the driver makes for a request comes back. -/
def Returns (d : Driver) (op : TraceOp) : Prop :=
  match op.type with
  | .alloc => (Malloc.mmMalloc d.heap (toSize op.size)).isSome = true
  | .realloc => (Malloc.mmRealloc d.heap (d.blocks op.index) (toSize op.size)).isSome = true
  | .free => (Malloc.mmFree d.heap (d.blocks op.index)).isSome = true

/-- Every call of a run comes back. The states of the run hold a driver each, and `next` says
how a request that is not the last one ends. -/
def ReturnsAlong {σ : Type} (driver : σ → Driver) (next : Nat → TraceOp → σ → σ → Prop) :
    Nat → σ → List TraceOp → Prop
  | _, _, [] => True
  | i, s, op :: ops =>
    Returns (driver s) op ∧ ∀ s', next i op s s' → ReturnsAlong driver next (i + 1) s' ops

/-- Every call of `eval_mm_valid` comes back. -/
def ReturnsAll (tracenum : Nat) : Nat → Driver → List TraceOp → Prop :=
  ReturnsAlong id fun i op d d' => d.step mm tracenum i op = some (true, d')

/-- A request that `mm.c` serves: no reallocation, and a size that is an `int`. -/
structure Plain (op : TraceOp) : Prop where
  noRealloc : op.type ≠ .realloc
  small : op.size ≤ intMax

instance (op : TraceOp) : Decidable (Plain op) :=
  decidable_of_iff (op.type ≠ .realloc ∧ op.size ≤ intMax) ⟨fun h => ⟨h.1, h.2⟩, fun h => ⟨h.1, h.2⟩⟩

/-- The bytes that the requests take from the arena if no block is used twice. -/
def demand (ops : List TraceOp) : Nat :=
  (ops.map fun op => if op.type = .alloc then paddedSize op.size.toNat else 0).sum

variable {h h' : Heap} {d d' : Driver} {g : Ledger} {op : TraceOp} {ops : List TraceOp}
  {bs : List Block} {fl : List Nat} {b : Live} {c : Block} {m : Bytes.Memory} {ids : Nat → Bool}
  {size i p tracenum : Nat} {σ : Type} {driver : σ → Driver}
  {next : Nat → TraceOp → σ → σ → Prop} {s : σ}

/-- A run of which every request has one outcome. -/
theorem returnsAlong_cons (s' : σ) (hret : Returns (driver s) op)
    (hone : ∀ s'', next i op s s'' → s'' = s') (hrest : ReturnsAlong driver next (i + 1) s' ops) :
    ReturnsAlong driver next i s (op :: ops) :=
  ⟨hret, fun _ h => hone _ h ▸ hrest⟩

/-- The place of the arena, which `mem_init` fixes. -/
structure OnArena (ar : Arena) (h : Heap) : Prop where
  start : h.memStartBrk = ar.start
  max : h.memMaxAddr = ar.start + maxHeap

/-- The run stops at an allocation for which there is no room. -/
def OutOfRoom (tracenum i : Nat) (d : Driver) (ops : List TraceOp) (d' : Driver) : Prop :=
  ∃ pre op post, ops = pre ++ op :: post ∧ op.type = .alloc ∧
    d'.errors = (d.mallocError tracenum (i + pre.length) "mm_malloc failed.").errors ∧
    d'.heap.memStartBrk + maxHeap < d'.heap.memBrk + paddedSize op.size.toNat ∧
    d'.heap.memBrk ≤ d.heap.memBrk + demand pre

/-! ## One call of the package -/

/-- The break moves by the padded size at most, and a request that is turned down does not
fit into the arena. -/
theorem mmMalloc_room (hi : HeapInv h bs fl) (hpos : 0 < size) (hs : size ≤ intMax) :
    ∃ q h', mmMalloc h size = some (q, h') ∧ h'.memBrk ≤ h.memBrk + paddedSize size ∧
      (q = null → h.memStartBrk + maxHeap < h.memBrk + paddedSize size) := by
  obtain ⟨-, -, -, hmax⟩ := paddedSize_spec hs
  rcases bestFit_spec hi hmax with ⟨hbest, -⟩ | ⟨b, hb, hfree, hbest, hfirst⟩
  · by_cases hroom : paddedSize size < 2 ^ 31 ∧ h.memBrk + paddedSize size ≤ h.memMaxAddr
    · obtain ⟨-, h', r, n, -, hrun, -, -, hgrew⟩ := mmMalloc_extends hi hpos hs hbest hroom
      exact ⟨_, h', hrun, hgrew.brk.le, fun hq => absurd hq (Nat.succ_ne_zero _)⟩
    · refine ⟨null, h, (mmMalloc_extend hpos hbest).trans (extendHeap_fail (by omega) hroom),
        Nat.le_add_right _ _, fun _ => ?_⟩
      have hle := hi.placed.start_le
      have harena := hi.placed.max_eq
      unfold maxHeap at harena ⊢
      omega
  · obtain ⟨L, R, rfl⟩ := List.append_of_mem hb
    obtain ⟨h', M, hrun, -, -, hk⟩ := mmMalloc_carves hi hpos hs hfree hfirst.fits hbest
    exact ⟨_, h', hrun, hk.brk.le.trans (Nat.le_add_right _ _),
      fun hq => absurd hq (Nat.succ_ne_zero _)⟩

theorem toSize_eq {size : Int} (hpos : 0 < size) (hs : size ≤ intMax) : toSize size = size.toNat := by
  unfold intMax at hs
  unfold toSize
  omega

/-! ## What the driver gets from a call that comes back -/

theorem mm_init_eq {r : Int} (hrun : mmInit h = some (r, h')) : mm.mmInit h = (r, h') := by
  change (mmInit h).getD _ = _
  rw [hrun]
  rfl

theorem mm_malloc_eq {size : Int} (hsize : toSize size = size.toNat)
    (hrun : mmMalloc h size.toNat = some (p, h')) : mm.mmMalloc i h size = (p, h') := by
  change (mmMalloc h (toSize size)).getD _ = _
  rw [hsize, hrun]
  rfl

theorem mm_free_eq (hrun : mmFree h p = some h') : mm.mmFree i h p = h' := by
  change (mmFree h p).getD _ = _
  rw [hrun]
  rfl

theorem returns_alloc (htype : op.type = .alloc) (hsize : toSize op.size = op.size.toNat)
    (hrun : mmMalloc d.heap op.size.toNat = some (p, h')) : Returns d op := by
  unfold Returns
  rw [htype]
  simp only [hsize, hrun, Option.isSome_some]

theorem returns_free (htype : op.type = .free)
    (hrun : mmFree d.heap (d.blocks op.index) = some h') : Returns d op := by
  unfold Returns
  rw [htype]
  simp only [hrun, Option.isSome_some]

/-! ## One request -/

/-- The driver between two requests, with a heap that serves the payloads of the ledger. -/
structure Serves (d : Driver) (g : Ledger) (bs : List Block) (fl : List Nat) : Prop where
  agrees : Agrees d g
  session : SessionInv ⟨d.heap, g.live⟩ bs fl
  aligned : d.heap.memStartBrk % 8 = 0

theorem holds_of_mem {s : Session} (hb : b ∈ s.live) : s.Holds b.ptr := ⟨b, hb, rfl⟩

/-- A payload that `mm_malloc` hands out is in its place. -/
theorem SessionInv.inPlace {live : List Live} {size : Int}
    (hi : SessionInv ⟨h, ⟨p, size.toNat⟩ :: live⟩ bs fl) (ha : h.memStartBrk % 8 = 0) :
    InPlace h live p size := by
  obtain ⟨hal, hlo, hhi⟩ := hi.live_ok ha List.mem_cons_self
  have hapart := (List.pairwise_cons.mp hi.pairwise).1
  simp only at hal hlo hhi
  refine ⟨hi.ptr_ne_null List.mem_cons_self, hal, ⟨hlo, ?_⟩, fun b hb => hapart b hb⟩
  unfold memHeapHi
  omega

/-- `memset` of a payload changes no tag. -/
theorem SessionInv.memset {live : List Live} (hi : SessionInv ⟨h, live⟩ bs fl) (hb : b ∈ live)
    (v : UInt8) :
    SessionInv ⟨{ h with mem := Malloc.memset h.mem b.ptr v b.size }, live⟩ bs fl := by
  obtain ⟨c, hc, hptr, hsize⟩ := hi.block_of_live b hb
  refine hi.fill hc fun x hx => memset_of_not_mem ?_
  unfold Block.stop at hx
  omega

/-- The two ways of an allocation. -/
theorem Serves.alloc (hs : Serves d g bs fl) (htype : op.type = .alloc) (hpos : 0 < op.size)
    (hsmall : op.size ≤ intMax) (tracenum i : Nat) :
    Returns d op ∧ ∃ d', d'.heap.memStartBrk = d.heap.memStartBrk ∧
      ((d.step mm tracenum i op = some (true, d') ∧ d'.errors = d.errors ∧
          d'.heap.memBrk ≤ d.heap.memBrk + paddedSize op.size.toNat ∧
          ∃ bs' fl', Serves d' (g.next op (d'.blocks op.index) d'.heap.mem) bs' fl') ∨
        (d.step mm tracenum i op = some (false, d') ∧
          d' = d.mallocError tracenum i "mm_malloc failed." ∧
          d.heap.memStartBrk + maxHeap < d.heap.memBrk + paddedSize op.size.toNat)) := by
  have hsize : toSize op.size = op.size.toNat := toSize_eq hpos hsmall
  have hle : op.size.toNat ≤ intMax := by omega
  obtain ⟨q, h', hrun, hbrk, hnull⟩ := mmMalloc_room hs.session.toHeapInv (by omega) hle
  obtain ⟨q', h'', bs', fl', hrun', hi', -, hf, hsame⟩ := hs.session.malloc_call hle
  obtain ⟨rfl, rfl⟩ : q = q' ∧ h' = h'' := by simpa [hrun] using hrun'
  have hans : mm.mmMalloc i d.heap op.size = (q, h') := mm_malloc_eq hsize hrun
  refine ⟨returns_alloc htype hsize hrun, ?_⟩
  by_cases hq : q = null
  · obtain rfl : h' = d.heap := hsame hq
    refine ⟨d.mallocError tracenum i "mm_malloc failed.", rfl, Or.inr ⟨?_, rfl, hnull hq⟩⟩
    unfold Driver.step
    rw [htype]
    simp only [hans, hq, ↓reduceIte, Option.pure_def]
  · have hlive : hold g.live q op.size.toNat = ⟨q, op.size.toNat⟩ :: g.live := if_neg hq
    rw [hlive] at hi'
    have hstart : h'.memStartBrk = d.heap.memStartBrk := hf.start
    have hal : h'.memStartBrk % 8 = 0 := hstart ▸ hs.aligned
    have hcorrect : Correct mm i d.heap g op := by
      unfold Correct
      rw [htype]
      simp only [hans]
      exact hi'.inPlace hal
    obtain ⟨d', hstep, hagrees⟩ := hs.agrees.alloc htype hpos hcorrect tracenum
    obtain ⟨ranges, rfl⟩ := step_alloc htype hstep
    refine ⟨_, ?_, Or.inl ⟨hstep, rfl, ?_, bs', fl', hagrees, ?_, ?_⟩⟩
    · rw [hans]
      exact hstart
    · rw [hans]
      exact hbrk
    · rw [Ledger.next, htype, blocks_remember, hans]
      exact hi'.memset List.mem_cons_self _
    · rw [hans]
      exact hal

theorem Serves.free (hs : Serves d g bs fl) (htype : op.type = .free) (hb : g.ids op.index = some b)
    (tracenum i : Nat) :
    Returns d op ∧ ∃ d', d'.heap.memStartBrk = d.heap.memStartBrk ∧
      d.step mm tracenum i op = some (true, d') ∧ d'.errors = d.errors ∧
      d'.heap.memBrk = d.heap.memBrk ∧
      ∃ bs' fl', Serves d' (g.next op (d'.blocks op.index) d'.heap.mem) bs' fl' := by
  have hptr := (hs.agrees.block op.index b hb).1
  obtain ⟨h', bs', fl', hrun, hi', -, hf, hbrk⟩ :=
    hs.session.free_call (holds_of_mem (hs.agrees.mem _ b hb))
  rw [← hptr] at hrun
  have hans : mm.mmFree i d.heap (d.blocks op.index) = h' := mm_free_eq hrun
  obtain ⟨d', hstep, hagrees⟩ := hs.agrees.free htype hb mm tracenum i
  obtain ⟨ranges, rfl⟩ := step_free htype hstep
  refine ⟨returns_free htype hrun, _, ?_, hstep, rfl, ?_, bs', fl', hagrees, ?_, ?_⟩
  · rw [hans]
    exact hf.start
  · rw [hans]
    exact hbrk
  · rw [Ledger.next, htype, hb, hans]
    exact hi'
  · rw [hans, hf.start]
    exact hs.aligned

/-! ## The whole trace -/

/-- What a served request does: it goes through, or there is no room for it. -/
theorem Serves.step (hs : Serves d g bs fl) (ht : Tracks g ids) (hv : ValidTrace ids (op :: ops))
    (hplain : Plain op) (tracenum i : Nat) :
    Returns d op ∧ ∃ d', d'.heap.memStartBrk = d.heap.memStartBrk ∧
      ((d.step mm tracenum i op = some (true, d') ∧ d'.errors = d.errors ∧
          d'.heap.memBrk ≤ d.heap.memBrk + demand [op] ∧
          ∃ bs' fl', Serves d' (g.next op (d'.blocks op.index) d'.heap.mem) bs' fl') ∨
        (d.step mm tracenum i op = some (false, d') ∧ op.type = .alloc ∧
          d' = d.mallocError tracenum i "mm_malloc failed." ∧
          d.heap.memStartBrk + maxHeap < d.heap.memBrk + paddedSize op.size.toNat)) := by
  obtain ⟨-, -, ⟨htype, hpos⟩ | ⟨b, htype, -⟩ | ⟨b, htype, hb⟩⟩ := hv.cases ht 0 d.heap.mem
  · have hdemand : demand [op] = paddedSize op.size.toNat := by simp [demand, htype]
    obtain ⟨hret, d', hstart, hway⟩ := hs.alloc htype hpos hplain.small tracenum i
    rw [hdemand]
    exact ⟨hret, d', hstart, hway.imp_right fun hno => ⟨hno.1, htype, hno.2⟩⟩
  · exact absurd htype hplain.noRealloc
  · obtain ⟨hret, d', hstart, hstep, herr, hbrk, hs'⟩ := hs.free htype hb tracenum i
    exact ⟨hret, d', hstart, Or.inl ⟨hstep, herr, hbrk.le.trans (Nat.le_add_right _ _), hs'⟩⟩

theorem OutOfRoom.cons {d₁ : Driver} (hout : OutOfRoom tracenum (i + 1) d₁ ops d')
    (herr : d₁.errors = d.errors) (hbrk : d₁.heap.memBrk ≤ d.heap.memBrk + demand [op]) :
    OutOfRoom tracenum i d (op :: ops) d' := by
  obtain ⟨pre, last, post, rfl, htype, herr', hroom, hbrk'⟩ := hout
  refine ⟨op :: pre, last, post, rfl, htype, ?_, hroom, ?_⟩
  · rw [herr', Driver.mallocError, Driver.mallocError, herr, List.length_cons, Nat.add_assoc,
      Nat.add_comm 1]
  · have hdemand : demand (op :: pre) = demand [op] + demand pre := by simp [demand]
    omega

theorem Serves.evalOps (hs : Serves d g bs fl) (ht : Tracks g ids) (hv : ValidTrace ids ops)
    (hplain : ∀ op ∈ ops, Plain op) (tracenum i : Nat) :
    ReturnsAll tracenum i d ops ∧ ∃ r d', Driver.evalOps mm tracenum i d ops = some (r, d') ∧
      d'.heap.memStartBrk = d.heap.memStartBrk ∧ Placed d'.heap ∧
      ((r = 1 ∧ d'.errors = d.errors) ∨ (r = 0 ∧ OutOfRoom tracenum i d ops d')) := by
  induction ops generalizing d g bs fl ids i with
  | nil => exact ⟨trivial, 1, d, rfl, rfl, hs.session.placed, Or.inl ⟨rfl, rfl⟩⟩
  | cons op ops ih =>
    have hrest : ∀ op ∈ ops, Plain op := fun o ho => hplain o (List.mem_cons_of_mem _ ho)
    obtain ⟨hret, d', hstart, hway⟩ :=
      hs.step ht hv (hplain op List.mem_cons_self) tracenum i
    obtain ⟨hv', ht', -⟩ := hv.cases ht (d'.blocks op.index) d'.heap.mem
    rcases hway with ⟨hstep, herr, hbrk, bs', fl', hs'⟩ | ⟨hstep, htype, rfl, hroom⟩
    · obtain ⟨hall, r, d'', hrun, hstart', hplaced, hend⟩ := ih hs' ht' hv' hrest (i + 1)
      refine ⟨returnsAlong_cons d' hret (fun e he => ?_) hall, r, d'', ?_, hstart'.trans hstart,
        hplaced, ?_⟩
      · simpa [hstep, eq_comm] using he
      · rw [Driver.evalOps, hstep]
        exact hrun
      · exact hend.imp (fun h => ⟨h.1, h.2.trans herr⟩) fun h => ⟨h.1, h.2.cons herr hbrk⟩
    · refine ⟨⟨hret, fun e he => ?_⟩, 0, d.mallocError tracenum i "mm_malloc failed.", ?_, rfl,
        hs.session.placed, Or.inr ⟨rfl, [], op, ops, rfl, htype, rfl, hroom, Nat.le_add_right _ _⟩⟩
      · simp [hstep] at he
      · rw [Driver.evalOps, hstep]
        rfl

/-! ## From any earlier heap -/

/-- `mm_init` after `mem_reset_brk`, whatever earlier runs have left in the arena. -/
theorem mm_started {ar : Arena} (hd : OnArena ar d.heap) :
    ∃ h p f e, mmInit (memResetBrk d.heap) = some (0, h) ∧ HeapInv h [p, f, e] [f.addr] ∧
      h.memStartBrk = ar.start ∧ f.alloc = false ∧ f.size = 32 ∧ h.memBrk = ar.start + 96 := by
  have hstart : (memResetBrk d.heap).memStartBrk = ar.start := hd.start
  have hbrk : (memResetBrk d.heap).memBrk = ar.start := hd.start
  have hmax : (memResetBrk d.heap).memMaxAddr = ar.start + maxHeap := hd.max
  have hplaced : Placed { memResetBrk d.heap with flistFirst := null } :=
    ⟨by rw [hstart]; exact ar.start_pos, by rw [hstart, hbrk],
      by rw [hbrk, hmax]; exact Nat.le_add_right _ _, by rw [hmax, hstart],
      by rw [hmax]; exact ar.start_le⟩
  obtain ⟨h, p, f, e, hrun, hi, hs, hfree, -, hfa, hfs⟩ :=
    mmInit_used (s := ar.start) ⟨hplaced, hstart, hmax, hbrk⟩ rfl
  refine ⟨h, p, f, e, hrun, hi, hs, hfree, hfs, ?_⟩
  have he : e = epilogueBlock h := by simpa using hi.last
  have hesize : e.size = 32 := by rw [he]; rfl
  obtain ⟨-, -, hea, hend⟩ := hi.tiles
  have hend' : e.stop = h.memBrk := hend
  unfold Block.stop at *
  omega

theorem started_mm (hrun : mmInit (memResetBrk d.heap) = some (0, h)) :
    d.started mm = (0, { d with ranges := clearRanges d.ranges, heap := h }) := by
  rw [Driver.started, mm_init_eq hrun]

theorem serves_started {p f e : Block} (hrun : mmInit (memResetBrk d.heap) = some (0, h))
    (hi : HeapInv h [p, f, e] [f.addr]) (hfree : f.alloc = false) (ha : h.memStartBrk % 8 = 0) :
    Serves (d.started mm).2 Ledger.empty [p, f, e] [f.addr] := by
  rw [started_mm hrun]
  exact ⟨agrees_empty _ (clearRanges_eq d.ranges), .initial hi hfree, ha⟩

/-- The run as the driver sees it. -/
theorem evalMmValid_mm {ar : Arena} (ha : ar.start % 8 = 0) (hd : OnArena ar d.heap)
    (hv : ValidTrace (fun _ => false) ops) (hplain : ∀ op ∈ ops, Plain op) (tracenum : Nat) :
    ∃ r d', evalMmValid mm tracenum d ops = some (r, d') ∧ OnArena ar d'.heap ∧
      ((r = 1 ∧ d'.errors = d.errors) ∨
        (r = 0 ∧ OutOfRoom tracenum 0 (d.started mm).2 ops d')) ∧
      (96 + demand ops ≤ maxHeap → r = 1) := by
  obtain ⟨h, p, f, e, hrun, hi, hstart, hfree, -, hbrk⟩ := mm_started hd
  have hstarted := started_mm hrun
  have hs := serves_started hrun hi hfree (by rw [hstart, ha])
  obtain ⟨-, r, d', heval, hstart', hplaced, hend⟩ := hs.evalOps (fun _ => rfl) hv hplain tracenum 0
  have hsame : d'.heap.memStartBrk = ar.start := by
    rw [hstart', hstarted]
    exact hstart
  refine ⟨r, d', ?_, ⟨hsame, by rw [hplaced.max_eq, hsame]⟩, ?_, fun hfits => ?_⟩
  · rw [evalMmValid]
    simp only [hstarted] at heval ⊢
    exact heval
  · rw [hstarted] at hend ⊢
    exact hend
  · rcases hend with ⟨hr, -⟩ | ⟨-, pre, op, post, rfl, htype, -, hroom, hbrk'⟩
    · exact hr
    · -- the requests before it have taken what it lacks
      have hdemand : demand (pre ++ op :: post) =
          demand pre + paddedSize op.size.toNat + demand post := by
        simp [demand, htype, Nat.add_assoc]
      rw [hstarted] at hbrk'
      simp only at hbrk'
      omega

theorem evalMmValid_returns {ar : Arena} (ha : ar.start % 8 = 0) (hd : OnArena ar d.heap)
    (hv : ValidTrace (fun _ => false) ops) (hplain : ∀ op ∈ ops, Plain op) (tracenum : Nat) :
    ReturnsAll tracenum 0 (d.started mm).2 ops := by
  obtain ⟨h, p, f, e, hrun, hi, hstart, hfree, -⟩ := mm_started hd
  have hs := serves_started hrun hi hfree (by rw [hstart, ha])
  obtain ⟨hall, -⟩ := hs.evalOps (fun _ => rfl) hv hplain tracenum 0
  exact hall

/-- **`mm.c` passes the driver's tests** on every trace without reallocations, whatever is in
the arena, as long as the arena is large enough. No call faults, and the one thing that the
driver may have to say is that there is no room for an allocation. -/
theorem mm_valid {ar : Arena} (ha : ar.start % 8 = 0) (hd : OnArena ar d.heap)
    (hv : ValidTrace (fun _ => false) ops) (hplain : ∀ op ∈ ops, Plain op) (tracenum : Nat) :
    ReturnsAll tracenum 0 (d.started mm).2 ops ∧
      ∃ r d', evalMmValid mm tracenum d ops = some (r, d') ∧ OnArena ar d'.heap ∧
        ((r = 1 ∧ d'.errors = d.errors) ∨
          (r = 0 ∧ OutOfRoom tracenum 0 (d.started mm).2 ops d')) ∧
        (96 + demand ops ≤ maxHeap → r = 1) :=
  ⟨evalMmValid_returns ha hd hv hplain tracenum, evalMmValid_mm ha hd hv hplain tracenum⟩

/-- A heap of earlier runs. -/
def worn : Driver where
  heap := { memInit smallArena fun _ => 255 with memBrk := 5000, flistFirst := 4096 }
  ranges := [⟨4104, 4110⟩]
  blocks := fun _ => 9
  blockSizes := fun _ => 1
  errors := []

/-- Three blocks, the first of which is used again. -/
def reuse : List TraceOp :=
  [⟨.alloc, 0, 24⟩, ⟨.alloc, 1, 8⟩, ⟨.free, 0, 0⟩, ⟨.alloc, 2, 20⟩, ⟨.free, 1, 0⟩, ⟨.free, 2, 0⟩]

theorem reuse_valid : ReturnsAll 0 0 (worn.started mm).2 reuse ∧
    ∃ r d', evalMmValid mm 0 worn reuse = some (r, d') ∧ OnArena smallArena d'.heap ∧
      ((r = 1 ∧ d'.errors = []) ∨ (r = 0 ∧ OutOfRoom 0 0 (worn.started mm).2 reuse d')) ∧
      (96 + demand reuse ≤ maxHeap → r = 1) :=
  have harena : OnArena smallArena worn.heap := ⟨rfl, rfl⟩
  mm_valid (by decide) harena (by simp [ValidTrace, reuse]) (by decide) 0

end CourseProjects.Malloc

import CourseProjects.Malloc.ReadTrace
import CourseProjects.Malloc.Utilization

/-!
# The main loop of `mdriver`

`main` reads one trace file after the other. The package runs each trace once to be judged,
and if it passes once more for the utilization and ten times for the speed.
-/

namespace CourseProjects.Malloc

open Session

def TraceLine.request (op : TraceLine) : TraceOp := ⟨op.type, op.index.toNat, op.size.getD 0⟩

def Trace.requests (t : Trace) : List TraceOp := t.ops.map TraceLine.request

/-- The requests up to the first that is for no element of `blocks`. -/
def Trace.inside (t : Trace) : List TraceOp :=
  (t.ops.takeWhile fun op => 0 ≤ op.index ∧ op.index < t.numIds).map TraceLine.request

/-- A record of `mm_stats`, which `calloc` fills with zeros. The seconds are left out. -/
structure Stats where
  traceName : List Char
  ops : Int
  valid : Int
  util : Util

def appError (msg : String) : Stop := .exit (msg ++ "\n")

/-- `n` runs, between which only the clock is read. -/
def ftimerGettod (al : Allocator) (trace : List TraceOp) : Nat → Driver → Except String Driver
  | 0, d => .ok d
  | n + 1, d => do ftimerGettod al trace n (← evalMmSpeed al d trace)

def fsecs (al : Allocator) (trace : List TraceOp) (d : Driver) : Except String Driver :=
  ftimerGettod al trace 10 d

/-- One turn of the loop behind `read_trace`. A package that passes on what is inside of the
arrays is given a request for what is not. -/
def evalTrace (al : Allocator) (i : Nat) (t : Trace) (d : Driver) :
    Option (Except Stop (Stats × Driver)) := do
  let (valid, d) ← evalMmValid al i d t.inside
  if valid = 0 then return .ok (⟨t.traceName, t.numOps, valid, .zero⟩, d)
  else if t.inside.length < t.ops.length then none
  else
    match ← evalMmUtil al i d t.inside with
    | (.exit msg, _) => return .error (appError msg)
    | (util, d) =>
      match fsecs al t.inside d with
      | .error msg => return .error (appError msg)
      | .ok d => return .ok (⟨t.traceName, t.numOps, valid, util⟩, d)

/-- The loop from trace `i` on. What `malloc` finds in the arrays of a trace is given by
`blocks` and `sizes`. -/
def evalTraces (libc : Libc) (al : Allocator) (blocks sizes : Nat → Nat → Nat)
    (tracedir : List Char) : Nat → List (List Char) → Driver →
      Option (Except Stop (List Stats × Driver))
  | _, [], d => some (.ok ([], d))
  | i, file :: files, d => do
    match ← readTrace libc tracedir file with
    | .error e => return .error e
    | .ok t =>
      match ← evalTrace al i t { d with blocks := blocks i, blockSizes := sizes i } with
      | .error e => return .error e
      | .ok (s, d) =>
        match ← evalTraces libc al blocks sizes tracedir (i + 1) files d with
        | .error e => return .error e
        | .ok (stats, d) => return .ok (s :: stats, d)

/-- `main` from `mem_init` up to the end of the loop. -/
def mdriver (libc : Libc) (al : Allocator) (ar : Arena) (mem : Bytes.Memory)
    (blocks sizes : Nat → Nat → Nat) (tracedir : List Char) (tracefiles : List (List Char)) :
    Option (Except Stop (List Stats × Driver)) :=
  evalTraces libc al blocks sizes tracedir 0 tracefiles
    ⟨memInit ar mem, [], fun _ => 0, fun _ => 0, []⟩

/-- No call of the runs of a trace faults. -/
structure TraceReturns (i : Nat) (t : Trace) (d : Driver) : Prop where
  valid : ReturnsAll i 0 (d.started mm).2 t.inside
  util : ∀ d', evalMmValid mm i d t.inside = some (1, d') →
    UtilReturns i 0 (d'.started mm).2 ⟨0, 0⟩ t.inside
  speed : ∀ d' u e n e', evalMmValid mm i d t.inside = some (1, d') →
    evalMmUtil mm i d' t.inside = some (u, e) → ftimerGettod mm t.inside n e = .ok e' →
    SpeedReturns 0 { e' with heap := (mm.mmInit (memResetBrk e'.heap)).2 } t.inside

/-- No call of the loop from trace `i` on faults. -/
def TracesReturn (libc : Libc) (blocks sizes : Nat → Nat → Nat) (tracedir : List Char) :
    Nat → List (List Char) → Driver → Prop
  | _, [], _ => True
  | i, file :: files, d =>
    ∀ t, readTrace libc tracedir file = some (.ok t) →
      TraceReturns i t { d with blocks := blocks i, blockSizes := sizes i } ∧
      ∀ s d', evalTrace mm i t { d with blocks := blocks i, blockSizes := sizes i } =
        some (.ok (s, d')) → TracesReturn libc blocks sizes tracedir (i + 1) files d'

def numcorrect (stats : List Stats) : Nat := stats.countP fun s => s.valid ≠ 0

/-! ## Files of valid traces -/

/-- The file of the trace holds it, with the right numbers in front, and the trace is one that
`mm.c` can be run on. -/
structure Listed (libc : Libc) (tracedir : List Char) (t : Trace) : Prop where
  file : ∃ text, libc.fopen (tracedir ++ t.traceName) = some text ∧
    Text.words Text.isspace text = t.words
  path : (tracedir ++ t.traceName).length < maxLine
  serves : libc.Serves t
  header : t.Header
  writable : ∀ op ∈ t.ops, op.Writable
  ids : IsGreatest (insert 0 (allocated t.ops)) (t.numIds - 1)
  count : (t.ops.length : Int) = t.numOps
  valid : ValidTrace (fun _ => false) t.requests
  noRealloc : ∀ op ∈ t.ops, op.type ≠ .realloc

/-- What `main` notes about a trace: the package passes, with the ratio of the most that is
ever out to a larger heap; or the requests are too much for the arena. -/
structure Judged (t : Trace) (s : Stats) : Prop where
  name : s.traceName = t.traceName
  ops : s.ops = t.numOps
  verdict : (s.valid = 1 ∧ ∃ m size, s.util = .ratio m size ∧ IsGreatest (totals t.requests) m ∧
      m < size) ∨
    (s.valid = 0 ∧ s.util = .zero ∧ maxHeap < 96 + demand t.requests)

variable {libc : Libc} {tracedir : List Char} {t : Trace} {ts : List Trace} {ar : Arena}
  {d d' e e' : Driver} {ops : List TraceLine} {trace : List TraceOp} {ids : Nat → Bool} {n : Nat}

theorem Listed.read (hl : Listed libc tracedir t) :
    readTrace libc tracedir t.traceName = some (.ok t) := by
  obtain ⟨text, hopen, htext⟩ := hl.file
  rw [readTrace_open hopen hl.path hl.serves.1,
    readFile_words hl.serves hl.header hl.writable htext hl.ids]
  have hcount := hl.count
  rw [if_neg (by omega), if_neg (fun h => h rfl), if_neg (fun h => h hcount)]

/-- What is freed has been allocated, so the ids of all requests are in range. -/
theorem index_lt (hv : ValidTrace ids (ops.map TraceLine.request)) (hpos : ∀ op ∈ ops, 0 ≤ op.index)
    (hids : ∀ i, ids i = true → i < n) (halloc : ∀ op ∈ ops, op.type ≠ .free → op.index < n) :
    ∀ op ∈ ops, op.index < n := by
  induction ops generalizing ids with
  | nil =>
    intro op hop
    cases hop
  | cons op ops ih =>
    have hop := hpos op List.mem_cons_self
    have hpos' : ∀ o ∈ ops, 0 ≤ o.index := fun o ho => hpos o (List.mem_cons_of_mem op ho)
    have halloc' : ∀ o ∈ ops, o.type ≠ .free → o.index < n := fun o ho =>
      halloc o (List.mem_cons_of_mem op ho)
    suffices h : op.index < n ∧ ∀ o ∈ ops, o.index < n from List.forall_mem_cons.mpr h
    have hfirst := halloc op List.mem_cons_self
    obtain ⟨type, index, size⟩ := op
    cases type with
    | alloc =>
      have hindex := hfirst nofun
      refine ⟨hindex, ih hv.2 hpos' (fun i hi => ?_) halloc'⟩
      by_cases heq : i = index.toNat
      · rw [heq]
        simp only at hop hindex
        omega
      · exact hids i ((Function.update_of_ne heq _ _).symm.trans hi)
    | realloc => exact ⟨hfirst nofun, ih hv.2.2 hpos' hids halloc'⟩
    | free =>
      have hindex := hids _ hv.1
      refine ⟨?_, ih hv.2 hpos' (fun i hi => ?_) halloc'⟩
      · simp only [TraceLine.request] at hop hindex ⊢
        omega
      · by_cases heq : i = index.toNat
        · rw [heq, TraceLine.request, Function.update_self] at hi
          cases hi
        · exact hids i ((Function.update_of_ne heq _ _).symm.trans hi)

theorem Listed.inside (hl : Listed libc tracedir t) : t.inside = t.requests := by
  have hpos : ∀ op ∈ t.ops, 0 ≤ op.index := fun op hop => (hl.writable op hop).index.1
  have hle : ∀ op ∈ t.ops, op.type ≠ .free → op.index ≤ t.numIds - 1 := fun op hop hfree =>
    hl.ids.2 (Set.mem_insert_of_mem 0 ⟨op, hop, hfree, rfl⟩)
  have hzero : 0 ≤ t.numIds - 1 := hl.ids.2 (Set.mem_insert 0 _)
  have hlt : ∀ op ∈ t.ops, op.index < t.numIds.toNat :=
    index_lt hl.valid hpos nofun fun op hop hfree => by
      have := hle op hop hfree
      omega
  unfold Trace.inside Trace.requests
  rw [List.takeWhile_eq_self_iff.mpr]
  intro op hop
  have hlo := hpos op hop
  have hhi := hlt op hop
  exact decide_eq_true ⟨hlo, by omega⟩

/-! ## Running a trace again and again -/

theorem speedOps_errors {al : Allocator} {i : Nat} (h : Driver.speedOps al i d trace = .ok d') :
    d'.errors = d.errors := by
  induction trace generalizing i d with
  | nil =>
    cases h
    rfl
  | cons op ops ih =>
    rw [Driver.speedOps] at h
    cases hstep : d.speedStep al i op with
    | error msg =>
      rw [hstep] at h
      cases h
    | ok d₁ =>
      rw [hstep] at h
      have herr : d₁.errors = d.errors := by
        unfold Driver.speedStep at hstep
        split at hstep
        · simp only at hstep
          split at hstep <;> cases hstep
          rfl
        · simp only at hstep
          split at hstep <;> cases hstep
          rfl
        · cases hstep
          rfl
      exact (ih h).trans herr

theorem evalMmSpeed_errors {al : Allocator} (h : evalMmSpeed al d trace = .ok d') :
    d'.errors = d.errors := by
  unfold evalMmSpeed at h
  simp only at h
  split at h
  · cases h
  · have herr := speedOps_errors h
    exact herr

theorem SameExtents.onArena {h h' : Heap} (hs : SameExtents h h') (ha : OnArena ar h) : OnArena ar h' :=
  ⟨hs.start.trans ha.start, hs.max.trans ha.max⟩

theorem ftimerGettod_mm {tracenum : Nat} (ha : ar.start % 8 = 0) (hd : OnArena ar d.heap)
    (hd' : OnArena ar d'.heap) (hv : ValidTrace (fun _ => false) trace)
    (hplain : ∀ op ∈ trace, Plain op) (hrun : evalMmValid mm tracenum d trace = some (1, d'))
    (he : OnArena ar e.heap) :
    ∃ e', ftimerGettod mm trace n e = .ok e' ∧ OnArena ar e'.heap ∧ e'.errors = e.errors := by
  induction n generalizing e with
  | zero => exact ⟨e, rfl, he, rfl⟩
  | succ n ih =>
    obtain ⟨-, e₁, hspeed, hsame⟩ := evalMmSpeed_mm ha hd he hv hplain hrun
    obtain ⟨e₂, htimer, he₂, herr⟩ := ih (hsame.onArena hd')
    refine ⟨e₂, ?_, he₂, herr.trans (evalMmSpeed_errors hspeed)⟩
    rw [ftimerGettod, hspeed]
    exact htimer

theorem Listed.plain (hl : Listed libc tracedir t) : ∀ op ∈ t.requests, Plain op := by
  intro op hop
  obtain ⟨line, hline, rfl⟩ := List.mem_map.mp hop
  have hfree := hl.noRealloc line hline
  have hsize := (hl.writable line hline).size
  refine ⟨hfree, ?_⟩
  change line.size.getD 0 ≤ (intMax : Int)
  unfold intMax
  split at hsize
  · rw [hsize]
    simp only [Option.getD_none]
    omega
  · obtain ⟨k, hk, -, hlt⟩ := hsize
    rw [hk]
    simp only [Option.getD_some]
    omega

theorem Listed.returns (hl : Listed libc tracedir t) (ha : ar.start % 8 = 0)
    (hd : OnArena ar d.heap) (i : Nat) : TraceReturns i t d := by
  obtain ⟨r, d₁, hvalid, hd₁, -⟩ := evalMmValid_mm ha hd hl.valid hl.plain i
  refine ⟨?_, fun d' hd' => ?_, fun d' u e n e' hd' hu he => ?_⟩ <;>
    rw [hl.inside] at *
  · exact evalMmValid_returns ha hd hl.valid hl.plain i
  · cases hvalid.symm.trans hd'
    exact (evalMmUtil_mm ha hd hd₁ hl.valid hl.plain hvalid).1
  · cases hvalid.symm.trans hd'
    obtain ⟨-, m, d₂, hutil, -, -, -, hsame⟩ := evalMmUtil_mm ha hd hd₁ hl.valid hl.plain hvalid
    cases hutil.symm.trans hu
    obtain ⟨d₃, htimer, hd₃, -⟩ :=
      ftimerGettod_mm (n := n) ha hd hd₁ hl.valid hl.plain hvalid (hsame.onArena hd₁)
    cases htimer.symm.trans he
    exact (evalMmSpeed_mm ha hd hd₃ hl.valid hl.plain hvalid).1

/-- A trace is judged, and one message is printed if it does not pass. -/
theorem Listed.evalTrace (hl : Listed libc tracedir t) (ha : ar.start % 8 = 0)
    (hd : OnArena ar d.heap) (i : Nat) :
    ∃ s d', evalTrace mm i t d = some (.ok (s, d')) ∧ Judged t s ∧ OnArena ar d'.heap ∧
      d'.errors.length + (if s.valid = 0 then 0 else 1) = d.errors.length + 1 := by
  obtain ⟨r, d₁, hvalid, hd₁, hend, hfits⟩ := evalMmValid_mm ha hd hl.valid hl.plain i
  have hlen : ¬ t.requests.length < t.ops.length := by
    unfold Trace.requests
    rw [List.length_map]
    exact Nat.lt_irrefl _
  rcases hend with ⟨rfl, herr⟩ | ⟨rfl, pre, op, post, -, -, herr, -⟩
  · obtain ⟨-, m, d₂, hutil, hgreat, hm, herr₂, hsame⟩ :=
      evalMmUtil_mm ha hd hd₁ hl.valid hl.plain hvalid
    obtain ⟨d₃, hspeed, hd₃, herr₃⟩ :=
      ftimerGettod_mm (n := 10) ha hd hd₁ hl.valid hl.plain hvalid (hsame.onArena hd₁)
    refine ⟨⟨t.traceName, t.numOps, 1, .ratio m (memHeapsize d₁.heap)⟩, d₃, ?_,
      ⟨rfl, rfl, .inl ⟨rfl, m, _, rfl, hgreat, hm⟩⟩, hd₃, ?_⟩
    · simp only [Malloc.evalTrace, hl.inside, hvalid, hutil, fsecs, hspeed, if_neg hlen,
        Option.bind_eq_bind, Option.bind_some, Option.pure_def, one_ne_zero, if_false]
    · rw [if_neg one_ne_zero, herr₃, herr₂, herr]
  · refine ⟨⟨t.traceName, t.numOps, 0, .zero⟩, d₁, ?_, ⟨rfl, rfl, .inr ⟨rfl, rfl, ?_⟩⟩, hd₁, ?_⟩
    · simp only [Malloc.evalTrace, hl.inside, hvalid, Option.bind_eq_bind, Option.bind_some,
        Option.pure_def, if_true]
    · by_contra hroom
      exact absurd (hfits (Nat.le_of_not_lt hroom)) (by decide)
    · have hstarted : (d.started mm).2.errors = d.errors := rfl
      rw [herr, Driver.mallocError, List.length_append, hstarted, List.length_singleton, if_pos rfl]

/-! ## The whole loop -/

theorem numcorrect_cons (s : Stats) (stats : List Stats) :
    numcorrect (s :: stats) = numcorrect stats + if s.valid = 0 then 0 else 1 := by
  unfold numcorrect
  rw [List.countP_cons]
  by_cases hs : s.valid = 0
  · rw [if_pos hs, if_neg (by simp [hs])]
  · rw [if_neg hs, if_pos (by simp [hs])]

theorem evalTraces_judged (hl : ∀ t ∈ ts, Listed libc tracedir t) (ha : ar.start % 8 = 0)
    (hd : OnArena ar d.heap) (blocks sizes : Nat → Nat → Nat) (i : Nat) :
    TracesReturn libc blocks sizes tracedir i (ts.map Trace.traceName) d ∧
      ∃ stats d', evalTraces libc mm blocks sizes tracedir i (ts.map Trace.traceName) d =
        some (.ok (stats, d')) ∧
      List.Forall₂ Judged ts stats ∧
      d'.errors.length + numcorrect stats = d.errors.length + ts.length := by
  induction ts generalizing d i with
  | nil => exact ⟨trivial, [], d, rfl, .nil, rfl⟩
  | cons t ts ih =>
    have hfirst := hl t List.mem_cons_self
    have hd₀ : OnArena ar { d with blocks := blocks i, blockSizes := sizes i }.heap := hd
    obtain ⟨s, d₁, heval, hjudged, hd₁, herr⟩ := hfirst.evalTrace ha hd₀ i
    obtain ⟨hall', stats, d₂, hrest, hall, hcount⟩ :=
      ih (fun t ht => hl t (List.mem_cons_of_mem _ ht)) hd₁ (i + 1)
    refine ⟨fun t' ht' => ?_, s :: stats, d₂, ?_, .cons hjudged hall, ?_⟩
    · cases hfirst.read.symm.trans ht'
      refine ⟨hfirst.returns ha hd₀ i, fun s' d' hs' => ?_⟩
      cases heval.symm.trans hs'
      exact hall'
    · simp only [evalTraces, List.map_cons, hfirst.read, heval, hrest, Option.bind_eq_bind,
        Option.bind_some, Option.pure_def]
    · rw [numcorrect_cons, List.length_cons]
      simp only at herr
      omega

/-- **`mdriver` judges `mm.c`.** Given files of valid traces without reallocations, whatever is
in the arena and in the arrays, `main` comes to the end of its loop, and no call of the package
faults. It has a record for each file, and as many messages have been printed as there are
traces that do not pass. Only a trace that is too much for the arena does not, and a trace that
does has its utilization. -/
theorem mdriver_judges (hl : ∀ t ∈ ts, Listed libc tracedir t) (ha : ar.start % 8 = 0)
    (mem : Bytes.Memory) (blocks sizes : Nat → Nat → Nat) :
    TracesReturn libc blocks sizes tracedir 0 (ts.map Trace.traceName)
        ⟨memInit ar mem, [], fun _ => 0, fun _ => 0, []⟩ ∧
      ∃ stats d', mdriver libc mm ar mem blocks sizes tracedir (ts.map Trace.traceName) =
        some (.ok (stats, d')) ∧
      List.Forall₂ Judged ts stats ∧ d'.errors.length + numcorrect stats = ts.length := by
  have harena : OnArena ar (memInit ar mem) := ⟨rfl, rfl⟩
  obtain ⟨hret, stats, d', hrun, hall, hcount⟩ := evalTraces_judged
    (d := ⟨memInit ar mem, [], fun _ => 0, fun _ => 0, []⟩) hl ha harena blocks sizes 0
  exact ⟨hret, stats, d', hrun, hall, hcount.trans (Nat.zero_add _)⟩

theorem twoBlocks_listed : Listed (oneFile "traces/two.rep" twoText) "traces/".toList twoBlocks where
  file := ⟨twoText.toList, by decide +kernel, twoBlocks_words⟩
  path := by decide +kernel
  serves := ⟨by decide, by decide, by decide, by decide⟩
  header := twoBlocks_header
  writable := twoBlocks_writable
  ids := twoBlocks_greatest
  count := rfl
  valid := ⟨by decide, by decide, rfl, trivial⟩
  noRealloc := by decide

/-- The same file twice. -/
theorem twoBlocks_judged :
    TracesReturn (oneFile "traces/two.rep" twoText) (fun _ _ => 9) (fun _ _ => 1) "traces/".toList 0
      ["two.rep".toList, "two.rep".toList]
      ⟨memInit smallArena fun _ => 255, [], fun _ => 0, fun _ => 0, []⟩ ∧
    ∃ stats d',
    mdriver (oneFile "traces/two.rep" twoText) mm smallArena (fun _ => 255) (fun _ _ => 9)
        (fun _ _ => 1) "traces/".toList ["two.rep".toList, "two.rep".toList] =
      some (.ok (stats, d')) ∧
    List.Forall₂ Judged [twoBlocks, twoBlocks] stats ∧ d'.errors.length + numcorrect stats = 2 :=
  have hl : ∀ t ∈ [twoBlocks, twoBlocks],
      Listed (oneFile "traces/two.rep" twoText) "traces/".toList t := by
    rintro t (_ | ⟨_, _ | ⟨_, _ | _⟩⟩) <;> exact twoBlocks_listed
  mdriver_judges hl (by decide) _ _ _

end CourseProjects.Malloc

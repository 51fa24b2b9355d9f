import CourseProjects.Malloc.Ranges
import CourseProjects.Malloc.Session

/-!
# `eval_mm_valid`

The driver makes the requests of a trace. It fills every payload with the low byte of
its id, and looks for that byte in the payload that a reallocation returns.
-/

namespace CourseProjects.Malloc

open Bytes

inductive OpType
  | alloc
  | free
  | realloc
  deriving DecidableEq, Repr

structure TraceOp where
  type : OpType
  index : Nat
  size : Int
  deriving DecidableEq, Repr

/-- The package under test: what it returns and what it makes of the heap at the request
with the given number. -/
structure Allocator where
  mmInit : Heap → Int × Heap
  mmMalloc : Nat → Heap → Int → Nat × Heap
  mmRealloc : Nat → Heap → Nat → Int → Nat × Heap
  mmFree : Nat → Heap → Nat → Heap

/-- The heap with the records of the driver and what it has printed. -/
structure Driver where
  heap : Heap
  ranges : List Range
  blocks : Nat → Nat
  blockSizes : Nat → Nat
  errors : List String

def memResetBrk (h : Heap) : Heap := { h with memBrk := h.memStartBrk }

def memset (m : Memory) (p : Nat) (c : UInt8) (n : Nat) : Memory := fun x =>
  if p ≤ x ∧ x < p + n then c else m x

/-- A `char` as an `int`, with the sign of the x86 compilers. -/
def charValue (b : UInt8) : Int := b.toBitVec.toInt

/-- `index & 0xFF`. -/
def lowByte (index : Nat) : Nat := index &&& 0xFF

/-- What `memset` makes of it. -/
def fillByte (index : Nat) : UInt8 := UInt8.ofNat (lowByte index)

/-- `LINENUM`. -/
def linenum (i : Nat) : Nat := i + 5

namespace Driver

def mallocError (d : Driver) (tracenum opnum : Nat) (msg : String) : Driver :=
  { d with errors := d.errors ++ ["ERROR [trace " ++ toString tracenum ++ ", line " ++
      toString (linenum opnum) ++ "]: " ++ msg ++ "\n"] }

def addRange (d : Driver) (lo : Nat) (size : Int) (tracenum opnum : Nat) :
    Option (Bool × Driver) := do
  match ← Malloc.addRange d.heap d.ranges lo size with
  | .error e => return (false, d.mallocError tracenum opnum e.msg)
  | .ok ranges => return (true, { d with ranges })

/-- The payload is filled and remembered under its id. -/
def remember (d : Driver) (op : TraceOp) (p : Nat) : Driver :=
  { d with
    heap := { d.heap with mem := memset d.heap.mem p (fillByte op.index) op.size.toNat }
    blocks := Function.update d.blocks op.index p
    blockSizes := Function.update d.blockSizes op.index op.size.toNat }

/-- The loop that compares a `char` with an `int`. -/
def preserved (m : Memory) (newp oldsize index : Nat) : Bool :=
  (List.range oldsize).all fun j => charValue (m (newp + j)) = (lowByte index : Int)

/-- One request; `false` is `return 0`. -/
def step (al : Allocator) (tracenum i : Nat) (op : TraceOp) (d : Driver) :
    Option (Bool × Driver) :=
  match op.type with
  | .alloc => do
    let (p, heap) := al.mmMalloc i d.heap op.size
    let d := { d with heap }
    if p = null then return (false, d.mallocError tracenum i "mm_malloc failed.")
    let (ok, d) ← d.addRange p op.size tracenum i
    if ok = false then return (false, d)
    return (true, d.remember op p)
  | .realloc => do
    let oldp := d.blocks op.index
    let (newp, heap) := al.mmRealloc i d.heap oldp op.size
    let d := { d with heap }
    if newp = null then return (false, d.mallocError tracenum i "mm_realloc failed.")
    let d := { d with ranges := removeRange d.ranges oldp }
    let (ok, d) ← d.addRange newp op.size tracenum i
    if ok = false then return (false, d)
    let oldsize := d.blockSizes op.index
    let oldsize := if op.size < oldsize then op.size.toNat else oldsize
    if preserved d.heap.mem newp oldsize op.index = false then
      return (false, d.mallocError tracenum i
        "mm_realloc did not preserve the data from old block")
    return (true, d.remember op newp)
  | .free => do
    let p := d.blocks op.index
    let d := { d with ranges := removeRange d.ranges p }
    return (true, { d with heap := al.mmFree i d.heap p })

/-- The requests from number `i` on. -/
def evalOps (al : Allocator) (tracenum : Nat) :
    Nat → Driver → List TraceOp → Option (Int × Driver)
  | _, d, [] => some (1, d)
  | i, d, op :: ops => do
    let (ok, d) ← d.step al tracenum i op
    if ok = false then return (0, d)
    evalOps al tracenum (i + 1) d ops

/-- The driver before the first request, with the result of `mm_init`. -/
def started (al : Allocator) (d : Driver) : Int × Driver :=
  let (r, heap) := al.mmInit (memResetBrk d.heap)
  (r, { d with ranges := clearRanges d.ranges, heap })

end Driver

def evalMmValid (al : Allocator) (tracenum : Nat) (d : Driver) (trace : List TraceOp) :
    Option (Int × Driver) :=
  let (r, d) := d.started al
  if r < 0 then some (0, d.mallocError tracenum 0 "mm_init failed.")
  else Driver.evalOps al tracenum 0 d trace

/-! ## What the trace and the allocator promise -/

/-- The sizes are positive, and an id is reallocated or freed only while it is allocated. -/
def ValidTrace : (Nat → Bool) → List TraceOp → Prop
  | _, [] => True
  | ids, op :: ops =>
    match op.type with
    | .alloc => 0 < op.size ∧ ValidTrace (Function.update ids op.index true) ops
    | .realloc => 0 < op.size ∧ ids op.index = true ∧ ValidTrace ids ops
    | .free => ids op.index = true ∧ ValidTrace (Function.update ids op.index false) ops

/-- The payloads that have not been given back, those that the ids stand for, and the bytes
that were last stored in these. An id that is allocated again leaves its old payload behind. -/
structure Ledger where
  ids : Nat → Option Live
  live : List Live
  stored : Nat → Nat → UInt8

namespace Ledger

def empty : Ledger := ⟨fun _ => none, [], fun _ _ => 0⟩

def hold (g : Ledger) (index : Nat) (b : Live) (bytes : Nat → UInt8) : Ledger where
  ids := Function.update g.ids index (some b)
  live := b :: g.live
  stored := Function.update g.stored index bytes

def release (g : Ledger) (index : Nat) (b : Live) : Ledger :=
  { g with ids := Function.update g.ids index none, live := Session.drop g.live b.ptr }

/-- The ledger after a request that returned `p`, with the memory as the driver leaves it. -/
def next (g : Ledger) (op : TraceOp) (p : Nat) (m : Memory) : Ledger :=
  match op.type, g.ids op.index with
  | .alloc, _ => g.hold op.index ⟨p, op.size.toNat⟩ fun j => m (p + j)
  | .realloc, some b =>
    (g.release op.index b).hold op.index ⟨p, op.size.toNat⟩ fun j => m (p + j)
  | .free, some b => g.release op.index b
  | _, none => g

end Ledger

/-- A payload that may be handed out. -/
structure InPlace (h : Heap) (live : List Live) (p : Nat) (size : Int) : Prop where
  nonNull : p ≠ null
  aligned : p % 8 = 0
  inside : memHeapLo h ≤ p ∧ p + size.toNat - 1 ≤ memHeapHi h
  apart : ∀ b ∈ live, p + size.toNat ≤ b.ptr ∨ b.ptr + b.size ≤ p

/-- The answer to a request is correct: the payload is in its place, and after a reallocation
it begins with the bytes that were stored in the old one. -/
def Correct (al : Allocator) (i : Nat) (h : Heap) (g : Ledger) (op : TraceOp) : Prop :=
  match op.type, g.ids op.index with
  | .alloc, _ =>
    let (p, h') := al.mmMalloc i h op.size
    InPlace h' g.live p op.size
  | .realloc, some b =>
    let (p, h') := al.mmRealloc i h b.ptr op.size
    InPlace h' (Session.drop g.live b.ptr) p op.size ∧
      ∀ j < min b.size op.size.toNat, h'.mem (p + j) = g.stored op.index j
  | .free, _ => True
  | _, none => True

/-- Every answer that the driver gets is correct. -/
def CorrectRun (al : Allocator) (tracenum : Nat) :
    Nat → Driver → Ledger → List TraceOp → Prop
  | _, _, _, [] => True
  | i, d, g, op :: ops =>
    Correct al i d.heap g op ∧ ∀ d', d.step al tracenum i op = some (true, d') →
      CorrectRun al tracenum (i + 1) d' (g.next op (d'.blocks op.index) d'.heap.mem) ops

/-- A request whose fill byte is not negative as a `char`, where it is looked at. -/
def PlainByte (op : TraceOp) : Prop :=
  op.type = .realloc → op.index % 256 < 128

instance (op : TraceOp) : Decidable (PlainByte op) :=
  inferInstanceAs (Decidable (_ → _))

variable {al : Allocator} {d d' : Driver} {g : Ledger} {op : TraceOp} {a b : Live}
  {bytes : Nat → UInt8} {m : Memory} {ids : Nat → Bool} {i n p x index tracenum : Nat}

/-! ## Bytes -/

theorem lowByte_eq (index : Nat) : lowByte index = index % 256 :=
  Nat.and_two_pow_sub_one_eq_mod index 8

theorem memset_of_mem {c : UInt8} {j : Nat} (hj : j < n) : memset m p c n (p + j) = c :=
  if_pos ⟨Nat.le_add_right p j, Nat.add_lt_add_left hj p⟩

theorem memset_of_not_mem {c : UInt8} (hx : x < p ∨ p + n ≤ x) : memset m p c n x = m x :=
  if_neg (by omega)

/-! ## The ledger -/

/-- An id keeps its payload unless it is the one that is given back. -/
theorem ids_release (hi : (g.release index a).ids i = some b) : i ≠ index ∧ g.ids i = some b := by
  change Function.update g.ids index none i = some b at hi
  by_cases heq : i = index
  · subst heq
    rw [Function.update_self] at hi
    cases hi
  · rw [Function.update_of_ne heq] at hi
    exact ⟨heq, hi⟩

theorem live_release (hb : b ∈ (g.release index a).live) : b ∈ g.live :=
  (List.mem_filter.mp hb).1

/-- An id has the new payload or keeps its own. -/
theorem ids_hold (hi : (g.hold index a bytes).ids i = some b) :
    (i = index ∧ b = a) ∨ i ≠ index ∧ g.ids i = some b := by
  change Function.update g.ids index (some a) i = some b at hi
  by_cases heq : i = index
  · subst heq
    rw [Function.update_self] at hi
    exact Or.inl ⟨rfl, (Option.some.inj hi).symm⟩
  · rw [Function.update_of_ne heq] at hi
    exact Or.inr ⟨heq, hi⟩

theorem stored_self : (g.hold index a bytes).stored index = bytes :=
  Function.update_self ..

theorem stored_of_ne (hi : i ≠ index) : (g.hold index a bytes).stored i = g.stored i :=
  Function.update_of_ne hi ..

theorem blocks_remember (d : Driver) (op : TraceOp) (p : Nat) :
    (d.remember op p).blocks op.index = p :=
  Function.update_self ..

/-! ## A request that goes through -/

theorem addRange_true {size : Int} {opnum : Nat}
    (h : d.addRange p size tracenum opnum = some (true, d')) : ∃ ranges, d' = { d with ranges } := by
  obtain ⟨r, -, hr⟩ := Option.bind_eq_some_iff.mp h
  cases r with
  | error e => cases hr
  | ok ranges =>
    cases hr
    exact ⟨ranges, rfl⟩

/-- The check for `NULL` and `add_range`, which a request that goes through has passed. -/
theorem recorded {size : Int} {opnum : Nat} {e : Driver}
    {k : Bool × Driver → Option (Bool × Driver)}
    (h : (if p = null then return (false, e) else do
      let r ← d.addRange p size tracenum opnum
      if r.1 = false then return (false, r.2) else k r) = some (true, d')) :
    ∃ ranges, k (true, { d with ranges }) = some (true, d') := by
  by_cases hnull : p = null
  · rw [if_pos hnull] at h
    cases h
  · rw [if_neg hnull] at h
    obtain ⟨⟨ok, d1⟩, hadd, h⟩ := Option.bind_eq_some_iff.mp h
    cases ok with
    | false => cases h
    | true =>
      obtain ⟨ranges, rfl⟩ := addRange_true hadd
      exact ⟨ranges, h⟩

theorem step_alloc (htype : op.type = .alloc) (h : d.step al tracenum i op = some (true, d')) :
    ∃ ranges, d' = Driver.remember { d with heap := (al.mmMalloc i d.heap op.size).2, ranges } op
      (al.mmMalloc i d.heap op.size).1 := by
  unfold Driver.step at h
  rw [htype] at h
  simp only at h
  obtain ⟨ranges, h⟩ := recorded h
  cases h
  exact ⟨ranges, rfl⟩

theorem step_realloc (htype : op.type = .realloc) (h : d.step al tracenum i op = some (true, d')) :
    ∃ ranges, d' = Driver.remember
      { d with heap := (al.mmRealloc i d.heap (d.blocks op.index) op.size).2, ranges } op
      (al.mmRealloc i d.heap (d.blocks op.index) op.size).1 := by
  unfold Driver.step at h
  rw [htype] at h
  simp only at h
  obtain ⟨ranges, h⟩ := recorded h
  generalize Driver.preserved _ _ _ _ = ok at h
  cases ok with
  | false => cases h
  | true =>
    cases h
    exact ⟨ranges, rfl⟩

theorem step_free (htype : op.type = .free) (h : d.step al tracenum i op = some (true, d')) :
    ∃ ranges, d' = { d with heap := al.mmFree i d.heap (d.blocks op.index), ranges } := by
  unfold Driver.step at h
  rw [htype] at h
  cases h
  exact ⟨_, rfl⟩

/-! ## The ids -/

/-- The ids of a valid trace are those that the ledger has payloads for. -/
def Tracks (g : Ledger) (ids : Nat → Bool) : Prop :=
  ∀ i, ids i = (g.ids i).isSome

theorem Tracks.payload (ht : Tracks g ids) (hid : ids index = true) :
    ∃ b, g.ids index = some b :=
  Option.isSome_iff_exists.mp ((ht index).symm.trans hid)

theorem Tracks.hold (ht : Tracks g ids) (index : Nat) (a : Live) (bytes : Nat → UInt8) :
    Tracks (g.hold index a bytes) (Function.update ids index true) := by
  intro i
  change _ = (Function.update g.ids index (some a) i).isSome
  by_cases hi : i = index
  · subst hi
    simp
  · rw [Function.update_of_ne hi, Function.update_of_ne hi, ht i]

theorem Tracks.release (ht : Tracks g ids) (index : Nat) (a : Live) :
    Tracks (g.release index a) (Function.update ids index false) := by
  intro i
  change _ = (Function.update g.ids index none i).isSome
  by_cases hi : i = index
  · subst hi
    simp
  · rw [Function.update_of_ne hi, Function.update_of_ne hi, ht i]

/-- The ids that are allocated after a request. -/
def nextIds (ids : Nat → Bool) (op : TraceOp) : Nat → Bool :=
  match op.type with
  | .alloc => Function.update ids op.index true
  | .realloc => ids
  | .free => Function.update ids op.index false

/-- A valid request, the ids it leaves, and the payload that it is about. -/
theorem ValidTrace.cases {ops : List TraceOp} (hv : ValidTrace ids (op :: ops))
    (ht : Tracks g ids) (p : Nat) (m : Memory) :
    ValidTrace (nextIds ids op) ops ∧ Tracks (g.next op p m) (nextIds ids op) ∧
      (op.type = .alloc ∧ 0 < op.size ∨
        (∃ b, op.type = .realloc ∧ 0 < op.size ∧ g.ids op.index = some b) ∨
          ∃ b, op.type = .free ∧ g.ids op.index = some b) := by
  unfold ValidTrace at hv
  unfold nextIds Ledger.next
  cases htype : op.type with
  | alloc =>
    simp only [htype] at hv ⊢
    exact ⟨hv.2, ht.hold _ _ _, Or.inl ⟨trivial, hv.1⟩⟩
  | realloc =>
    simp only [htype] at hv ⊢
    obtain ⟨hsize, hid, hrest⟩ := hv
    obtain ⟨b, hb⟩ := ht.payload hid
    have hsame : Function.update (Function.update ids op.index false) op.index true = ids := by
      rw [Function.update_idem, ← hid, Function.update_eq_self]
    have ht' := (ht.release op.index b).hold op.index ⟨p, op.size.toNat⟩ fun j => m (p + j)
    rw [hsame] at ht'
    simp only [hb]
    exact ⟨hrest, ht', Or.inr (Or.inl ⟨b, trivial, hsize, rfl⟩)⟩
  | free =>
    simp only [htype] at hv ⊢
    obtain ⟨b, hb⟩ := ht.payload hv.1
    simp only [hb]
    exact ⟨hv.2, ht.release op.index b, Or.inr (Or.inr ⟨b, trivial, rfl⟩)⟩

end CourseProjects.Malloc

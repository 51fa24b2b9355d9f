import CourseProjects.Malloc.Driver

/-!
# An allocator that reuses nothing

Every payload is put behind all others, and freed memory is not used again. Its answers
are correct for any valid trace, in an arena without end.
-/

namespace CourseProjects.Malloc

open Bytes

namespace Bump

/-- The first aligned address behind the heap. -/
def top (h : Heap) : Nat := (h.memBrk + 7) / 8 * 8

def grow (h : Heap) (size : Int) : Heap :=
  { h with memBrk := top h + size.toNat }

end Bump

def bump : Allocator where
  mmInit h := (0, h)
  mmMalloc _ h size := (Bump.top h, Bump.grow h size)
  mmRealloc _ h p size :=
    (Bump.top h, { Bump.grow h size with mem := copyBytes h.mem (Bump.top h) p size.toNat })
  mmFree _ h _ := h

namespace Bump

variable {d d' : Driver} {g : Ledger} {op : TraceOp} {ops : List TraceOp} {b : Live} {h : Heap}
  {ids : Nat → Bool} {i tracenum : Nat} {size : Int}

theorem top_le (h : Heap) : h.memBrk ≤ top h := by
  unfold top
  omega

/-- The payloads lie below the break, and the ids' payloads hold what was stored in them. -/
structure Below (d : Driver) (g : Ledger) : Prop where
  start : 0 < d.heap.memStartBrk
  start_le : d.heap.memStartBrk ≤ d.heap.memBrk
  below : ∀ b ∈ g.live, b.ptr + b.size ≤ d.heap.memBrk
  held : ∀ i b, g.ids i = some b → b.ptr + b.size ≤ d.heap.memBrk
  block : ∀ i b, g.ids i = some b → d.blocks i = b.ptr
  stored : ∀ i b, g.ids i = some b → ∀ j < b.size, d.heap.mem (b.ptr + j) = g.stored i j

theorem Below.release (hb : Below d g) (i : Nat) (b : Live) : Below d (g.release i b) := by
  refine ⟨hb.start, hb.start_le, fun a ha => hb.below a (live_release ha), ?_, ?_, ?_⟩
  · intro j a ha
    exact hb.held j a (ids_release ha).2
  · intro j a ha
    exact hb.block j a (ids_release ha).2
  · intro j a ha
    exact hb.stored j a (ids_release ha).2

/-- A payload at the top is in its place. -/
theorem Below.inPlace (hb : Below d g) (size : Int) (m : Memory) :
    InPlace { grow d.heap size with mem := m } g.live (top d.heap) size := by
  have htop := top_le d.heap
  have hstart := hb.start
  have hle := hb.start_le
  refine ⟨?_, Nat.mul_mod_left _ 8, ⟨?_, Nat.le_refl _⟩, ?_⟩
  · change top d.heap ≠ 0
    omega
  · change d.heap.memStartBrk ≤ top d.heap
    omega
  · intro b hm
    have hbelow := hb.below b hm
    right
    omega

/-- The payload at the top is remembered, and the memory below the old break is as it was. -/
theorem Below.hold (hb : Below d g) (op : TraceOp) (ranges : List Range) {m : Memory}
    (hm : ∀ x < d.heap.memBrk, m x = d.heap.mem x)
    (hd : d' = Driver.remember { d with heap := { grow d.heap op.size with mem := m }, ranges } op
      (top d.heap)) :
    Below d' (g.hold op.index ⟨top d.heap, op.size.toNat⟩
      fun j => d'.heap.mem (top d.heap + j)) := by
  subst hd
  have htop := top_le d.heap
  have hle := hb.start_le
  refine ⟨hb.start, ?_, ?_, ?_, ?_, ?_⟩
  · change d.heap.memStartBrk ≤ top d.heap + op.size.toNat
    omega
  · intro b hmem
    change b.ptr + b.size ≤ top d.heap + op.size.toNat
    rcases List.mem_cons.mp hmem with rfl | hmem
    · exact Nat.le_refl _
    · have := hb.below b hmem
      omega
  · intro i b hi
    change b.ptr + b.size ≤ top d.heap + op.size.toNat
    rcases ids_hold hi with ⟨-, rfl⟩ | ⟨-, hi⟩
    · exact Nat.le_refl _
    · have := hb.held i b hi
      omega
  · intro i b hi
    rcases ids_hold hi with ⟨rfl, rfl⟩ | ⟨hne, hi⟩
    · exact Function.update_self ..
    · exact (Function.update_of_ne hne ..).trans (hb.block i b hi)
  · intro i b hi j hj
    rcases ids_hold hi with ⟨rfl, rfl⟩ | ⟨hne, hi⟩
    · rw [stored_self]
    · have hheld := hb.held i b hi
      change memset m (top d.heap) (fillByte op.index) op.size.toNat (b.ptr + j) = _
      rw [memset_of_not_mem (by omega), hm _ (by omega), stored_of_ne hne]
      exact hb.stored i b hi j hj

/-- The answer to a valid request is correct, and the next ones will be. -/
theorem Below.step (hb : Below d g) (ht : Tracks g ids) (hv : ValidTrace ids (op :: ops))
    (i tracenum : Nat) : Correct bump i d.heap g op ∧
      ∀ d', d.step bump tracenum i op = some (true, d') →
        Below d' (g.next op (d'.blocks op.index) d'.heap.mem) := by
  have htop := top_le d.heap
  unfold Correct Ledger.next
  obtain ⟨-, -, ⟨htype, -⟩ | ⟨b, htype, -, hid⟩ | ⟨b, htype, hid⟩⟩ := hv.cases ht 0 d.heap.mem
  · rw [htype]
    refine ⟨hb.inPlace op.size d.heap.mem, ?_⟩
    intro d' hstep
    obtain ⟨ranges, hd⟩ := step_alloc htype hstep
    have hblock : d'.blocks op.index = top d.heap := by
      rw [hd]
      exact blocks_remember ..
    rw [hblock]
    exact hb.hold op ranges (fun x _ => rfl) hd
  · have hptr := hb.block op.index b hid
    have hheld := hb.held op.index b hid
    have hrelease := hb.release op.index b
    rw [htype, hid]
    refine ⟨⟨hrelease.inPlace op.size _, ?_⟩, ?_⟩
    · intro j hj
      change copyBytes d.heap.mem (top d.heap) b.ptr op.size.toNat (top d.heap + j) = _
      rw [copyBytes_of_mem (by omega)]
      exact hb.stored op.index b hid j (by omega)
    · intro d' hstep
      obtain ⟨ranges, hd⟩ := step_realloc htype hstep
      have hblock : d'.blocks op.index = top d.heap := by
        rw [hd]
        exact blocks_remember ..
      rw [hblock]
      refine hrelease.hold op ranges ?_ hd
      intro x hx
      exact copyBytes_of_not_mem (Or.inl (Nat.lt_of_lt_of_le hx htop))
  · rw [htype, hid]
    refine ⟨trivial, ?_⟩
    intro d' hstep
    obtain ⟨ranges, rfl⟩ := step_free htype hstep
    have hrelease := hb.release op.index b
    exact ⟨hrelease.start, hrelease.start_le, hrelease.below, hrelease.held, hrelease.block,
      hrelease.stored⟩

theorem Below.correctRun (hb : Below d g) (ht : Tracks g ids) (hv : ValidTrace ids ops)
    (i tracenum : Nat) : CorrectRun bump tracenum i d g ops := by
  induction ops generalizing i d g ids with
  | nil => trivial
  | cons op ops ih =>
    obtain ⟨hcorrect, hnext⟩ := hb.step ht hv i tracenum
    refine ⟨hcorrect, ?_⟩
    intro d' hstep
    obtain ⟨hv', ht', -⟩ := hv.cases ht (d'.blocks op.index) d'.heap.mem
    exact ih (hnext d' hstep) ht' hv' (i + 1)

end Bump

/-- Every valid trace has a correct allocator. -/
theorem bump_correct {d : Driver} {ops : List TraceOp} (hd : 0 < d.heap.memStartBrk)
    (hv : ValidTrace (fun _ => false) ops) (tracenum : Nat) :
    CorrectRun bump tracenum 0 (d.started bump).2 Ledger.empty ops := by
  have hb : Bump.Below (d.started bump).2 Ledger.empty := by
    refine ⟨hd, Nat.le_refl _, ?_, ?_, ?_, ?_⟩
    · intro b hb
      cases hb
    all_goals
      intro i b hb
      cases hb
  exact hb.correctRun (fun _ => rfl) hv 0 tracenum

end CourseProjects.Malloc

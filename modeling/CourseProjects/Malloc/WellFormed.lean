import CourseProjects.Malloc.SessionInv

/-!
# The heap between calls

`WellFormed` is stated with the functions of `mminline.h` only: the walk with
`block_next`, the two tags of every block and the circular free list.
-/

namespace CourseProjects.Malloc

open Transition Session CyclicList

variable {s s' : Session} {h : Heap} {bs : List Block} {b : Block} {fl as : List Nat} {a u v e : Nat}
  {ar : Arena} {cs : List Call}

/-- `block_next` leads from `a` over the blocks at `as`, all before `e`, to `e`. -/
def Walk (h : Heap) : Nat → List Nat → Nat → Prop
  | a, [], e => a = e
  | a, b :: as, e => a = b ∧ b < e ∧ ∃ c, blockNext h b = some c ∧ Walk h c as e

/-- Both tags of the block at `b` hold one size and one allocated bit. -/
structure BlockOk (h : Heap) (b n : Nat) (bit : Bool) : Prop where
  size : blockSize h b = some n
  endSize : blockEndSize h b = some n
  allocated : blockAllocated h b = some bit
  endAllocated : blockEndAllocated h b = some bit
  aligned : n % alignment = 0
  large : minBlockSize ≤ n
  inHeap : b + n ≤ h.memBrk

/-- A well-formed heap with its blocks and its free list. -/
structure WellFormed (h : Heap) (as fl : List Nat) : Prop where
  walk : Walk h (memHeapLo h) as h.memBrk
  head : as.head? = some h.prologue
  last : as.getLast? = some h.epilogue
  blocks : ∀ b ∈ as, ∃ n bit, BlockOk h b n bit
  prologue : blockAllocated h h.prologue = some true
  epilogue : blockAllocated h h.epilogue = some true
  nodup : fl.Nodup
  free : ∀ b, b ∈ fl ↔ b ∈ as ∧ blockAllocated h b = some false
  ring : Cycle.Chain (fun a b => blockNextFree h a = some b ∧ blockPrevFree h b = some a)
    (fl : Cycle Nat)
  first : h.flistFirst = fl.headD null
  empty : h.flistFirst = null ↔ ∀ b ∈ as, blockAllocated h b = some true

/-! ## From the invariant -/

theorem Tiles.lt_of_mem (ht : Tiles a bs e) (hb : b ∈ bs) : b.addr < e := by
  have := (ht.bounds hb).2
  have := b.size_ge
  unfold Block.stop at *
  omega

theorem Tiles.walk (ht : Tiles a bs e) (hnext : ∀ b ∈ bs, blockNext h b.addr = some b.stop) :
    Walk h a (bs.map Block.addr) e := by
  induction bs generalizing a with
  | nil => exact ht
  | cons b bs ih =>
    exact ⟨ht.1.symm, ht.lt_of_mem List.mem_cons_self, b.stop, hnext b List.mem_cons_self,
      ih ht.2 fun c hc => hnext c (List.mem_cons_of_mem _ hc)⟩

theorem LayoutInv.blockOk (hi : LayoutInv h bs) (hb : b ∈ bs) :
    BlockOk h b.addr b.size b.alloc := by
  obtain ⟨hin, hmax⟩ := hi.inArena hb
  have hstop := (hi.tiles.bounds hb).2
  have htag := hi.tagged b hb
  have hge := b.size_ge
  have hend : blockEndTag h b.addr = some (b.addr + b.size - 8) :=
    blockEndTag_eq hin hmax b.size_mod (by omega) b.alloc htag.header
  have hload : load h (b.addr + b.size - 8) = some b.tag := by
    rw [load_eq ⟨by have := hin.1; omega, by have := hin.2; omega⟩]
    exact congrArg some htag.endTag
  refine ⟨hi.blockSize hb, ?_, hi.blockAllocated hb, ?_, b.size_mod, hge, hstop⟩
  · simp only [blockEndSize, hend, hload, b.clearBit_tag, Option.bind_eq_bind, Option.bind_some,
      Option.pure_def]
  · simp only [blockEndAllocated, hend, hload, b.tag_mod, Option.bind_eq_bind, Option.bind_some,
      Option.pure_def]
    cases b.alloc <;> rfl

/-- **The invariant gives a well-formed heap.** -/
theorem HeapInv.wellFormed (hi : HeapInv h bs fl) : WellFormed h (bs.map Block.addr) fl := by
  have hread := fun a ha => (hi.free.node a ha).reads hi.placed
  have hfree : ∀ b, b ∈ fl ↔ b ∈ bs.map Block.addr ∧ blockAllocated h b = some false := by
    intro b
    rw [hi.mem_free, List.mem_map]
    constructor
    · rintro ⟨c, hc, rfl, hfree⟩
      exact ⟨⟨c, hc, rfl⟩, by rw [hi.blockAllocated hc, hfree]⟩
    · rintro ⟨⟨c, hc, rfl⟩, hfree⟩
      rw [hi.blockAllocated hc] at hfree
      exact ⟨c, hc, rfl, Option.some.inj hfree⟩
  refine ⟨hi.tiles.walk fun b hb => hi.blockNext hb, ?_, ?_, ?_, ?_, ?_, hi.free.nodup, hfree, ?_,
    hi.free.first, ?_⟩
  · rw [List.head?_map, hi.head]
    rfl
  · rw [List.getLast?_map, hi.last]
    rfl
  · intro b hb
    obtain ⟨c, hc, rfl⟩ := List.mem_map.mp hb
    exact ⟨c.size, c.alloc, hi.blockOk hc⟩
  · exact hi.blockAllocated hi.prologue_mem
  · exact hi.blockAllocated hi.epilogue_mem
  · refine hi.free.ring.imp_mem fun a ha b hb hlink => ?_
    obtain ⟨-, -, -, hnext, -⟩ := hread a ha
    obtain ⟨-, -, -, -, hprev⟩ := hread b hb
    rw [hnext, hprev, hlink.1, hlink.2]
    exact ⟨rfl, rfl⟩
  · rw [hi.free.first_eq_null_iff hi.placed]
    constructor
    · rintro rfl b hb
      obtain ⟨c, hc, rfl⟩ := List.mem_map.mp hb
      rw [hi.blockAllocated hc]
      by_contra hne
      have hcf : c.alloc = false := by simpa using hne
      cases (hi.mem_free _).mpr ⟨c, hc, rfl, hcf⟩
    · intro hall
      refine List.eq_nil_iff_forall_not_mem.mpr fun b hb => ?_
      obtain ⟨hmem, hbf⟩ := (hfree b).mp hb
      rw [hall b hmem] at hbf
      cases hbf

/-! ## Runs -/

theorem Session.run_reachable (hs : (basicClient ar).Reachable s) (hcs : ∀ c ∈ cs, c.Basic)
    (hrun : s.run cs = some s') : (basicClient ar).Reachable s' := by
  induction cs generalizing s with
  | nil => exact Option.some.inj hrun ▸ hs
  | cons c cs ih =>
    simp only [Session.run, Option.bind_eq_bind, Option.bind_eq_some_iff] at hrun
    obtain ⟨_, hlegal, s1, hexec, hrun⟩ := hrun
    have hlegal' : s.Legal c := by
      by_contra hn
      simp [guard, hn] at hlegal
    exact ih (.step hs ⟨hcs c List.mem_cons_self, hlegal', hexec⟩)
      (fun d hd => hcs d (List.mem_cons_of_mem _ hd)) hrun

theorem script_reachable (hcs : ∀ c ∈ cs, c.Basic) (hrun : script ar cs = some s) :
    (basicClient ar).Reachable s := by
  simp only [script, Option.bind_eq_bind, Option.bind_eq_some_iff] at hrun
  obtain ⟨⟨r, h⟩, hinit, _, hr, hrun⟩ := hrun
  have hr' : r = 0 := by
    by_contra hn
    simp [guard, hn] at hr
  exact Session.run_reachable (.init ⟨fun _ => 0, h, hr' ▸ hinit, rfl⟩) hcs hrun

/-- **The allocator's invariant**: in every run the heap between calls is well
formed, and every legal call returns. -/
theorem basicClient_wellFormed (hs : (basicClient ar).Reachable s) :
    (∃ as fl, WellFormed s.heap as fl) ∧
      ∀ c : Call, c.Basic → s.Legal c → (s.exec c).isSome = true := by
  obtain ⟨bs, fl, hi, -⟩ := basicClient_inv hs
  refine ⟨⟨_, fl, hi.toHeapInv.wellFormed⟩, fun c hb hlegal => ?_⟩
  obtain ⟨s', bs', fl', hexec, -⟩ := hi.basic_call hb hlegal
  rw [hexec]
  rfl

/-- An arena for examples. -/
def smallArena : Arena := ⟨4096, by decide, by unfold maxHeap; decide⟩

/-- Three requests and two frees, in a run. -/
def smallCalls : List Call :=
  [.malloc 24, .malloc 8, .write 4168 3 7, .malloc 100, .free 4168, .free 4136]

theorem smallCalls_wellFormed : ∃ s, script smallArena smallCalls = some s ∧
    (∃ as fl, WellFormed s.heap as fl) ∧
      ∀ c : Call, c.Basic → s.Legal c → (s.exec c).isSome = true := by
  have hrun : (script smallArena smallCalls).isSome = true := by decide +kernel
  obtain ⟨s, hs⟩ := Option.isSome_iff_exists.mp hrun
  exact ⟨s, hs, basicClient_wellFormed (script_reachable (by simp [smallCalls, Call.Basic]) hs)⟩

end CourseProjects.Malloc

import Mathlib.Algebra.Ring.Int.Defs
import CourseProjects.Malloc.Extents
import CourseProjects.Malloc.Ranges

/-!
# `mm_check_heap`

The check prints the blocks between prologue and epilogue and then goes once around the
free list. Its second half starts with a look at `flist_first`, whatever that is.
-/

namespace CourseProjects.Malloc

open Transition Session CyclicList

/-- What a line says about a block. -/
structure BlockLine where
  allocated : Bool
  location : Nat
  size : Int
  next : Nat
  nextSize : Int
  deriving DecidableEq

def BlockLine.msg (l : BlockLine) : String :=
  (if l.allocated then "Allocated" else "Free") ++ " block at location " ++ fmtPtr l.location ++
    ", size " ++ toString l.size ++ ", Next: " ++ fmtPtr l.next ++ " of size: " ++
    toString l.nextSize ++ "\n"

def blockLine (h : Heap) (current : Nat) : Option BlockLine := do
  let next ← blockNext h current
  return ⟨← blockAllocated h current, current, toInt (← blockSize h current), next,
    toInt (← blockSize h next)⟩

/-- The loop that prints. -/
def printLoop (h : Heap) : Nat → Nat → Option (List BlockLine)
  | 0, _ => none
  | n + 1, current =>
    if current = h.epilogue then some []
    else do
      let line ← blockLine h current
      return line :: (← printLoop h n (← blockNext h current))

/-- The loop around the free list. -/
def checkLoop (h : Heap) : Nat → Nat → Option Int
  | 0, _ => none
  | n + 1, ncurr =>
    if ncurr = h.flistFirst then some 0
    else do
      if ← blockAllocated h ncurr then return -1
      checkLoop h n (← blockNextFree h ncurr)

/-- The result and what is printed. -/
def mmCheckHeap (h : Heap) : Option (Int × List String) := do
  let lines ← printLoop h (heapSteps h) (← blockNext h h.prologue)
  let out := lines.map BlockLine.msg
  if ← blockAllocated h h.flistFirst then return (-1, out ++ ["bad free list\n"])
  let r ← checkLoop h (heapSteps h) (← blockNextFree h h.flistFirst)
  if r = 0 then return (0, out) else return (r, out ++ ["bad free list\n"])

variable {s : Session} {h : Heap} {bs L mid : List Block} {b n p e : Block} {fl pre post : List Nat}
  {cur fuel : Nat} {ar : Arena}

/-! ## The blocks -/

/-- The line about `b`, which `n` comes after. -/
def lineOf (b n : Block) : BlockLine := ⟨b.alloc, b.addr, b.size, n.addr, n.size⟩

/-- The lines about the blocks of `mid`, which `e` comes after. -/
def linesOf : List Block → Block → List BlockLine
  | [], _ => []
  | [b], e => [lineOf b e]
  | b :: c :: mid, e => lineOf b c :: linesOf (c :: mid) e

theorem LayoutInv.toInt_size (hi : LayoutInv h bs) (hb : b ∈ bs) : toInt b.size = b.size := by
  have := (hi.size_le hb).2
  unfold toInt
  rw [Nat.mod_eq_of_lt (by omega), if_pos (by omega)]

theorem LayoutInv.blockLine (hi : LayoutInv h (L ++ b :: n :: mid)) :
    blockLine h b.addr = some (lineOf b n) := by
  have hb : b ∈ L ++ b :: n :: mid := by simp
  have hn : n ∈ L ++ b :: n :: mid := by simp
  simp only [Malloc.blockLine, hi.blockNextAddr, hi.blockAllocated hb, hi.blockSize hb,
    hi.blockSize hn, hi.toInt_size hb, hi.toInt_size hn, Option.bind_eq_bind, Option.bind_some,
    Option.pure_def]
  rfl

/-- The blocks of `mid` are printed, up to the epilogue. -/
theorem LayoutInv.printLoop (hi : LayoutInv h (L ++ b :: (mid ++ [e]))) (hfuel : mid.length < fuel) :
    Malloc.printLoop h fuel b.stop = some (linesOf mid e) := by
  have he : e.addr = h.epilogue := by
    have hlast := hi.last
    rw [← List.cons_append, ← List.append_assoc, List.getLast?_concat] at hlast
    exact congrArg Block.addr (Option.some.inj hlast)
  induction mid generalizing L b fuel with
  | nil =>
    obtain ⟨fuel, rfl⟩ := Nat.exists_eq_succ_of_ne_zero (Nat.ne_zero_of_lt hfuel)
    have hi' : LayoutInv h (L ++ b :: [e]) := hi
    rw [Malloc.printLoop, if_pos ((tiles_mid.mp hi'.tiles).2.1.symm.trans he)]
    rfl
  | cons c mid ih =>
    obtain ⟨fuel, rfl⟩ := Nat.exists_eq_succ_of_ne_zero (Nat.ne_zero_of_lt hfuel)
    have hi' : LayoutInv h ((L ++ [b]) ++ c :: (mid ++ [e])) := by simpa using hi
    have hstop : b.stop = c.addr := (tiles_mid.mp hi.tiles).2.1.symm
    have hne : e.addr ≠ c.addr := hi'.tiles.addr_ne (by simp)
    have hrest := ih hi' (Nat.lt_of_succ_lt_succ hfuel)
    have hline : ∃ rest, linesOf (c :: mid) e = rest :: linesOf mid e ∧
        Malloc.blockLine h c.addr = some rest := by
      cases mid with
      | nil => exact ⟨_, rfl, hi'.blockLine⟩
      | cons n mid => exact ⟨_, rfl, hi'.blockLine⟩
    obtain ⟨line, hlines, hline⟩ := hline
    rw [Malloc.printLoop, if_neg (by rw [hstop, ← he]; exact hne.symm), hlines]
    simp only [hstop, hline, hi'.blockNext (b := c) (by simp), hrest, Option.bind_eq_bind,
      Option.bind_some, Option.pure_def]

/-! ## The free list -/

/-- A block with another one before it on the list is not the first. -/
theorem FreeList.ne_first {z : Nat} (hf : FreeList h (pre ++ cur :: z :: post)) :
    z ≠ h.flistFirst := by
  have hnodup := hf.nodup
  rw [hf.first]
  cases pre <;>
  · rintro rfl
    exact (List.nodup_cons.mp hnodup).1 (by simp)

/-- The loop goes on from `cur` to the end of the free list and finds only free blocks. -/
theorem checkLoop_eq (hp : Placed h) (hf : FreeList h fl) (hfl : fl = pre ++ cur :: post)
    (hfuel : post.length < fuel) : checkLoop h fuel (nextOf h.mem cur) = some 0 := by
  induction fuel generalizing pre cur post with
  | zero => omega
  | succ fuel ih =>
    rw [checkLoop]
    cases post with
    | nil =>
      have hhead : some (nextOf h.mem cur) = fl.head? := hfl ▸ next_of_last (hfl ▸ hf.ring)
      rw [if_pos]
      rw [hf.first, List.headD_eq_head?_getD, ← hhead]
      rfl
    | cons z post =>
      have hz : nextOf h.mem cur = z := next_in_ring (hfl ▸ hf.ring)
      have hmem : z ∈ fl := by simp [hfl]
      obtain ⟨halloc, -, -, hnext, -⟩ := (hf.node z hmem).reads hp
      have hfl' : fl = (pre ++ [cur]) ++ z :: post := by simp [hfl]
      have hrest := ih hfl' (Nat.lt_of_succ_lt_succ hfuel)
      rw [hz, if_neg (hfl ▸ hf).ne_first]
      simp only [halloc, hnext, hrest, Option.bind_eq_bind, Option.bind_some, Bool.false_eq_true,
        if_false]

theorem LayoutInv.sentinels (hi : LayoutInv h bs) :
    ∃ mid, bs = prologueBlock h :: (mid ++ [epilogueBlock h]) := by
  obtain ⟨L, rfl⟩ := hi.eq_append
  cases L with
  | nil => exact absurd hi.two (by simp)
  | cons p mid =>
    have hp : p = prologueBlock h := by simpa using hi.head
    exact ⟨mid, by rw [hp, List.cons_append]⟩

/-- One look at the first block, and once around the list. -/
theorem HeapInv.mmCheckHeap (hi : HeapInv h (p :: (mid ++ [e])) fl) :
    Malloc.mmCheckHeap h = if h.flistFirst = null then none
      else some (0, (linesOf mid e).map BlockLine.msg) := by
  have hp : p = prologueBlock h := by simpa using hi.head
  have hpro : p.addr = h.prologue := congrArg Block.addr hp
  have hfuel : mid.length < heapSteps h := by
    have hlen := hi.tiles.length_le
    simp only [List.length_cons, List.length_append] at hlen
    unfold heapSteps
    omega
  have hnext : blockNext h h.prologue = some p.stop := hpro ▸ hi.blockNext List.mem_cons_self
  have hprint := LayoutInv.printLoop (L := []) hi.toLayoutInv hfuel
  unfold Malloc.mmCheckHeap
  simp only [hnext, hprint, Option.bind_eq_bind, Option.bind_some]
  have hfirst := hi.free.first
  cases fl with
  | nil =>
    have hnull : h.flistFirst = null := hfirst
    have hread : blockAllocated h null = none := by
      have hpos := hi.placed.start_pos
      have hout : ¬ InArena h null wordSize := fun hin => absurd hin.1 (by unfold null; omega)
      simp only [Malloc.blockAllocated, load, if_neg hout]
      rfl
    rw [if_pos hnull, hnull, hread]
    rfl
  | cons x fl =>
    have hx : h.flistFirst = x := hfirst
    have hnode := hi.free.node x List.mem_cons_self
    obtain ⟨halloc, -, -, hnext, -⟩ := hnode.reads hi.placed
    have hlen : fl.length < heapSteps h := hi.length_le
    have hloop := checkLoop_eq hi.placed hi.free (List.nil_append _).symm hlen
    rw [if_neg (hx ▸ hnode.ne_null hi.placed), hx]
    simp only [halloc, hnext, hloop, Option.bind_some, Bool.false_eq_true, if_false, if_true,
      Option.pure_def]

/-! ## Runs -/

theorem linesOf_cons (b : Block) (mid : List Block) (e : Block) :
    ∃ n, linesOf (b :: mid) e = lineOf b n :: linesOf mid e ∧ ∃ R, mid ++ [e] = n :: R := by
  cases mid with
  | nil => exact ⟨e, rfl, [], rfl⟩
  | cons c mid => exact ⟨c, rfl, mid ++ [e], rfl⟩

theorem linesOf_location : (linesOf mid e).map BlockLine.location = mid.map Block.addr := by
  induction mid with
  | nil => rfl
  | cons b mid ih =>
    obtain ⟨n, hl, -⟩ := linesOf_cons b mid e
    rw [hl, List.map_cons, List.map_cons, ih]
    rfl

/-- Every line is what the code reads at its block. -/
theorem LayoutInv.linesOf (hi : LayoutInv h (L ++ (mid ++ [e]))) :
    ∀ l ∈ Malloc.linesOf mid e, Malloc.blockLine h l.location = some l := by
  induction mid generalizing L with
  | nil => simp [Malloc.linesOf]
  | cons b mid ih =>
    obtain ⟨n, hl, R, hR⟩ := linesOf_cons b mid e
    have hi' : LayoutInv h (L ++ b :: n :: R) := by
      rw [← hR]
      exact hi
    rw [hl, List.forall_mem_cons]
    exact ⟨hi'.blockLine, ih (L := L ++ [b]) (by simpa using hi)⟩

theorem linesOf_sum {a x : Nat} (he : Tiles a (mid ++ [e]) x) :
    ((linesOf mid e).map BlockLine.size).sum = (e.addr : Int) - a := by
  induction mid generalizing a with
  | nil =>
    have hea : e.addr = a := he.1
    simp [linesOf, hea]
  | cons b mid ih =>
    have hb : b.addr = a := he.1
    obtain ⟨n, hl, -⟩ := linesOf_cons b mid e
    have hsize : (lineOf b n).size = b.size := rfl
    rw [hl, List.map_cons, List.sum_cons, ih he.2, hsize]
    unfold Block.stop
    omega

/-- **The heap check.** Of every heap that a run leaves, `mm_check_heap` prints the blocks
between prologue and epilogue in the order of their addresses, with sizes that add up to the
heap, and finds nothing wrong; but where no block is free it reads through `NULL`. -/
theorem basicClient_checkHeap (hs : (basicClient ar).Reachable s) :
    (freeExtents s.heap = ∅ → mmCheckHeap s.heap = none) ∧
      (freeExtents s.heap ≠ ∅ → ∃ (mid : List Nat) (lines : List BlockLine),
        Walk s.heap (memHeapLo s.heap) (s.heap.prologue :: (mid ++ [s.heap.epilogue]))
          s.heap.memBrk ∧
        lines.map BlockLine.location = mid ∧ (∀ l ∈ lines, blockLine s.heap l.location = some l) ∧
        (lines.map BlockLine.size).sum = (s.heap.epilogue : Int) - (s.heap.prologue + minBlockSize) ∧
        mmCheckHeap s.heap = some (0, lines.map BlockLine.msg)) := by
  obtain ⟨bs, fl, hi, -⟩ := basicClient_inv hs
  have hnull : s.heap.flistFirst = null ↔ freeExtents s.heap = ∅ := by
    rw [hi.free.first_eq_null_iff hi.placed, Set.eq_empty_iff_forall_notMem]
    constructor
    · rintro rfl x hx
      obtain ⟨c, hc, hfree, -⟩ := hi.mem_freeExtents.mp hx
      cases (hi.mem_free c.addr).mpr ⟨c, hc, rfl, hfree⟩
    · intro hall
      refine List.eq_nil_iff_forall_not_mem.mpr fun a ha => ?_
      obtain ⟨c, hc, -, hfree⟩ := (hi.mem_free a).mp ha
      exact hall _ (hi.mem_freeExtents.mpr ⟨c, hc, hfree, rfl⟩)
  obtain ⟨mid, rfl⟩ := hi.sentinels
  have hcheck := hi.toHeapInv.mmCheckHeap
  refine ⟨fun hempty => ?_, fun hne => ⟨mid.map Block.addr, linesOf mid (epilogueBlock s.heap), ?_,
    linesOf_location, LayoutInv.linesOf (L := [prologueBlock s.heap]) hi.toLayoutInv, ?_, ?_⟩⟩
  · rw [hcheck, if_pos (hnull.mpr hempty)]
  · have hw := hi.wellFormed.walk
    rw [List.map_cons, List.map_append, List.map_singleton] at hw
    exact hw
  · exact linesOf_sum hi.tiles.2
  · rw [hcheck, if_neg (mt hnull.mp hne)]

theorem smallCalls_checked : ∃ s, script smallArena smallCalls = some s ∧
    (freeExtents s.heap = ∅ → mmCheckHeap s.heap = none) ∧
      (freeExtents s.heap ≠ ∅ → ∃ (mid : List Nat) (lines : List BlockLine),
        Walk s.heap (memHeapLo s.heap) (s.heap.prologue :: (mid ++ [s.heap.epilogue]))
          s.heap.memBrk ∧
        lines.map BlockLine.location = mid ∧ (∀ l ∈ lines, blockLine s.heap l.location = some l) ∧
        (lines.map BlockLine.size).sum = (s.heap.epilogue : Int) - (s.heap.prologue + minBlockSize) ∧
        mmCheckHeap s.heap = some (0, lines.map BlockLine.msg)) := by
  have hrun : (script smallArena smallCalls).isSome = true := by decide +kernel
  obtain ⟨s, hs⟩ := Option.isSome_iff_exists.mp hrun
  exact ⟨s, hs, basicClient_checkHeap (script_reachable (by simp [smallCalls, Call.Basic]) hs)⟩

end CourseProjects.Malloc

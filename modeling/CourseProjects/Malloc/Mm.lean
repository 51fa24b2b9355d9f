import CourseProjects.Malloc.Heap

/-!
# The allocator of `mm.c`

The functions of `mm.c` over the heap model, in the order of the source. The two
loops over the free list take as many steps as the heap has bytes; a list that
does not come back to `flist_first` within them is `none`.
-/

namespace CourseProjects.Malloc

open Bytes

def align (size : Nat) : Nat := wadd size (wordSize - 1) / wordSize * wordSize

/-- A bound on the number of blocks of the heap. -/
def heapSteps (h : Heap) : Nat := h.memBrk - h.memStartBrk

def mmInit (h : Heap) : Option (Int × Heap) := do
  let h := { h with flistFirst := null }
  let (prologue, h) := memSbrk h (toInt minBlockSize)
  let h := { h with prologue }
  if prologue = memError then return (-1, h)
  let h ← blockSetSizeAndAllocated h prologue minBlockSize true
  let (freeSpot, h) := memSbrk h (toInt minBlockSize)
  if freeSpot = memError then return (-1, h)
  let h ← blockSetSizeAndAllocated h freeSpot minBlockSize false
  let h ← insertFreeBlock h freeSpot
  let (epilogue, h) := memSbrk h (toInt minBlockSize)
  let h := { h with epilogue }
  if epilogue = memError then return (-1, h)
  let h ← blockSetSizeAndAllocated h epilogue minBlockSize true
  return (0, h)

def coalesceHelperLoop (h : Heap) (ptr : Nat) : Nat → Nat → Option Bool
  | 0, _ => none
  | n + 1, block =>
    if h.flistFirst = block then some false
    else if block = ptr then some true
    else do coalesceHelperLoop h ptr n (← blockNextFree h block)

def coalesceHelper (h : Heap) (ptr : Nat) : Option Bool :=
  if h.flistFirst = ptr then some true
  else do coalesceHelperLoop h ptr (heapSteps h) (← blockNextFree h h.flistFirst)

def coalesce (h : Heap) (ptr : Nat) : Option (Nat × Heap) := do
  if !(← coalesceHelper h ptr) then return (null, h)
  let prev ← blockPrev h ptr
  let next ← blockNext h ptr
  let csize ← blockSize h ptr
  if !(← blockAllocated h prev) && (← blockAllocated h next) then
    let h ← pullFreeBlock h ptr
    let h ← blockSetSizeAndAllocated h prev (wadd csize (← blockSize h prev)) false
    return (prev, h)
  if (← blockAllocated h prev) && !(← blockAllocated h next) then
    let h ← pullFreeBlock h next
    let h ← blockSetSizeAndAllocated h ptr (wadd csize (← blockSize h next)) false
    return (ptr, h)
  if !(← blockAllocated h prev) && !(← blockAllocated h next) then
    let h ← pullFreeBlock h ptr
    let h ← pullFreeBlock h next
    let size := wadd (wadd csize (← blockSize h prev)) (← blockSize h next)
    let h ← blockSetSizeAndAllocated h prev size false
    return (prev, h)
  return (ptr, h)

def split (h : Heap) (ptr nsize : Nat) : Option (Nat × Heap) := do
  let diff := wsub (← blockSize h ptr) nsize
  if diff ≥ 2 * nsize % 2 ^ 64 ∧ diff ≥ minBlockSize then
    let h ← blockSetSizeAndAllocated h ptr nsize true
    let h ← blockSetSizeAndAllocated h (← blockNext h ptr) diff false
    let h ← insertFreeBlock h (← blockNext h ptr)
    return (ptr, h)
  else return (ptr, h)

def extendHeap (h : Heap) (nsize : Nat) : Option (Nat × Heap) := do
  let (brk, h) := memSbrk h (toInt nsize)
  if brk = memError then return (null, h)
  let h ← blockSetSizeAndAllocated h h.epilogue nsize true
  let newEpilogue ← blockNext h h.epilogue
  let h ← blockSetSizeAndAllocated h newEpilogue minBlockSize true
  let (ptr, h) ← split h h.epilogue nsize
  return (payloadAt ptr 0, { h with epilogue := newEpilogue })

/-- The recursion of `smallest`; a `size_t` can be halved at most 64 times. -/
def smallestLoop (nsize : Nat) : Nat → Nat → Nat
  | 0, diff => diff
  | n + 1, diff => if diff / 2 > nsize then smallestLoop nsize n (diff / 2) else diff

def smallest (nsize _csize diff : Nat) : Nat := smallestLoop nsize 64 diff

/-- The body of the search loop: `min` and `best` after looking at a block of
size `csize` at `current`. -/
def pickBest (nsize min best csize current : Nat) : Nat × Nat :=
  let d := toInt (wsub csize nsize)
  if 0 ≤ d then
    let diff := smallest csize nsize d.toNat
    if diff < min then (diff, current) else (min, best)
  else (min, best)

/-- The `do ... while` loop of `mm_malloc`; the result is `best`. -/
def bestFitLoop (h : Heap) (nsize : Nat) : Nat → Nat → Nat → Nat → Option Nat
  | 0, _, _, _ => none
  | n + 1, min, best, current => do
    let found := pickBest nsize min best (← blockSize h current) current
    let current ← blockNextFree h current
    if current ≠ h.flistFirst then bestFitLoop h nsize n found.1 found.2 current
    else return found.2

/-- The request with rounding and tags. -/
def paddedSize (size : Nat) : Nat := max (wadd (align size) tagsSize) minBlockSize

def mmMalloc (h : Heap) (size : Nat) : Option (Nat × Heap) := do
  if size ≤ 0 then return (null, h)
  let nsize := paddedSize size
  if h.flistFirst = null then extendHeap h nsize
  else
    let best ← bestFitLoop h nsize (heapSteps h) uintMax null h.flistFirst
    if best = null then extendHeap h nsize
    else
      let h ← pullFreeBlock h best
      let h ← blockSetSizeAndAllocated h best (← blockSize h best) true
      let (best, h) ← split h best nsize
      return (payloadAt best 0, h)

def mmFree (h : Heap) (ptr : Nat) : Option Heap := do
  if ptr = null then return h
  let block := payloadToBlock ptr
  let h ← blockSetSizeAndAllocated h block (← blockSize h block) false
  let h ← insertFreeBlock h block
  let (_, h) ← coalesce h block
  return h

/-- `mm_realloc`. In the growing branch the source passes the payload `ptr`
itself to the block functions. -/
def mmRealloc (h : Heap) (ptr size : Nat) : Option (Nat × Heap) := do
  if size ≤ 0 then
    let h ← mmFree h ptr
    return (null, h)
  if ptr = null then mmMalloc h size
  else
    let block := payloadToBlock ptr
    let nsize := paddedSize size
    let csize ← blockSize h block
    if nsize = csize then return (ptr, h)
    if nsize < csize then return (ptr, h)
    if wadd csize (← blockNextSize h ptr) ≥ nsize then
      let next ← blockNext h ptr
      let h ← pullFreeBlock h next
      let h ← blockSetSizeAndAllocated h ptr (wadd csize (← blockSize h next)) true
      let (_, h) ← split h ptr nsize
      return (ptr, h)
    let (nptr, h) ← mmMalloc h size
    if nptr = null then return (null, h)
    let h ← memmove h nptr ptr csize
    let h ← mmFree h ptr
    return (nptr, h)

end CourseProjects.Malloc

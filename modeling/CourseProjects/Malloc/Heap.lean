import CourseProjects.Lib.Bytes

/-!
# The heap of `malloc/`: `memlib.c` and `mminline.h`

A pointer and a `size_t` are naturals below `2 ^ 64`. The arena is the block of
`MAX_HEAP` bytes that `mem_init` obtains; a load or a store outside it, and a
failed `assert` (the Makefile does not define `NDEBUG`), is `none`.
-/

namespace CourseProjects.Malloc

open Bytes

def wordSize : Nat := 8
def alignment : Nat := 8
def tagsSize : Nat := 2 * wordSize
def minBlockSize : Nat := 4 * wordSize
@[irreducible] def maxHeap : Nat := 20 * 2 ^ 20
def intMax : Nat := 2 ^ 31 - 1
def uintMax : Nat := 2 ^ 32 - 1

/-- `size_t` and pointer arithmetic. -/
@[irreducible] def wadd (a b : Nat) : Nat := (a + b) % 2 ^ 64
@[irreducible] def wsub (a b : Nat) : Nat := (a + 2 ^ 64 - b) % 2 ^ 64

/-- Conversion of a `size_t` to `int`. -/
def toInt (n : Nat) : Int :=
  if n % 2 ^ 32 < 2 ^ 31 then (n % 2 ^ 32 : Nat) else ((n % 2 ^ 32 : Nat) : Int) - 2 ^ 32

/-- The memory with the globals of `memlib.c`, `mminline.h` and `mm.c`. -/
structure Heap where
  mem : Memory
  memStartBrk : Nat
  memBrk : Nat
  memMaxAddr : Nat
  flistFirst : Nat
  prologue : Nat
  epilogue : Nat

def null : Nat := 0

/-- `(void *) -1`. -/
def memError : Nat := 2 ^ 64 - 1

/-! ## memlib.c -/

/-- Where `mem_init`'s `malloc` puts the arena: not at `NULL`, and far enough
below the top of the address space that `mem_brk + incr` cannot wrap. -/
structure Arena where
  start : Nat
  start_pos : 0 < start
  start_le : start + maxHeap + 2 ^ 31 ≤ 2 ^ 64

/-- `mem_init`; the bytes of the fresh arena are arbitrary. -/
def memInit (a : Arena) (mem : Memory) : Heap :=
  { mem, memStartBrk := a.start, memBrk := a.start, memMaxAddr := a.start + maxHeap
    flistFirst := null, prologue := null, epilogue := null }

def memSbrk (h : Heap) (incr : Int) : Nat × Heap :=
  if incr < 0 ∨ h.memMaxAddr < h.memBrk + incr.toNat then (memError, h)
  else (h.memBrk, { h with memBrk := h.memBrk + incr.toNat })

def memHeapLo (h : Heap) : Nat := h.memStartBrk

/-- `n` bytes from `a` lie in the arena. -/
def InArena (h : Heap) (a n : Nat) : Prop := h.memStartBrk ≤ a ∧ a + n ≤ h.memMaxAddr

instance (h : Heap) (a n : Nat) : Decidable (InArena h a n) :=
  inferInstanceAs (Decidable (_ ∧ _))

def readWord (m : Memory) (a : Nat) : Nat := readBytes m a wordSize
def writeWord (m : Memory) (a v : Nat) : Memory := writeBytes m a wordSize v

def load (h : Heap) (a : Nat) : Option Nat :=
  if InArena h a wordSize then some (readWord h.mem a) else none

def store (h : Heap) (a v : Nat) : Option Heap :=
  if InArena h a wordSize then some { h with mem := writeWord h.mem a v } else none

def memmove (h : Heap) (dst src n : Nat) : Option Heap :=
  if InArena h dst n ∧ InArena h src n then some { h with mem := copyBytes h.mem dst src n }
  else none

/-! ## mminline.h -/

/-- `w & -2`. -/
def clearBit (w : Nat) : Nat := w - w % 2

/-- `b->size` is the word at `b`; `b->payload[i]` is the word at `b + 8 + 8 * i`. -/
def payloadAt (b i : Nat) : Nat := wadd b (wordSize + wordSize * i)

def blockEndTag (h : Heap) (b : Nat) : Option Nat := do
  let size ← load h b
  guard (size ≥ wordSize * 2)
  return payloadAt b (size / wordSize - 2)

def blockAllocated (h : Heap) (b : Nat) : Option Bool := do
  return (← load h b) % 2 == 1

def blockEndAllocated (h : Heap) (b : Nat) : Option Bool := do
  return (← load h (← blockEndTag h b)) % 2 == 1

def blockSize (h : Heap) (b : Nat) : Option Nat := do
  return clearBit (← load h b)

def blockEndSize (h : Heap) (b : Nat) : Option Nat := do
  return clearBit (← load h (← blockEndTag h b))

def blockSetSize (h : Heap) (b size : Nat) : Option Heap := do
  guard (size % alignment = 0)
  let size := size ||| (← blockAllocated h b).toNat
  let h ← store h b size
  store h (← blockEndTag h b) size

def blockSetAllocated (h : Heap) (b : Nat) (allocated : Bool) : Option Heap := do
  if allocated then
    let h ← store h b ((← load h b) ||| 1)
    let tag ← blockEndTag h b
    store h tag ((← load h tag) ||| 1)
  else
    let h ← store h b (clearBit (← load h b))
    let tag ← blockEndTag h b
    store h tag (clearBit (← load h tag))

def blockSetSizeAndAllocated (h : Heap) (b size : Nat) (allocated : Bool) : Option Heap := do
  let h ← blockSetSize h b size
  blockSetAllocated h b allocated

def blockPrevSize (h : Heap) (b : Nat) : Option Nat := do
  return clearBit (← load h (wsub b wordSize))

def blockPrev (h : Heap) (b : Nat) : Option Nat := do
  return wsub b (← blockPrevSize h b)

def blockNext (h : Heap) (b : Nat) : Option Nat := do
  return wadd b (← blockSize h b)

def blockNextSize (h : Heap) (b : Nat) : Option Nat := do
  blockSize h (← blockNext h b)

def payloadToBlock (payload : Nat) : Nat := wsub payload wordSize

def blockNextFree (h : Heap) (b : Nat) : Option Nat := do
  guard !(← blockAllocated h b)
  load h (payloadAt b 0)

def blockSetNextFree (h : Heap) (b next : Nat) : Option Heap := do
  guard (!(← blockAllocated h b) && !(← blockAllocated h next))
  store h (payloadAt b 0) next

def blockPrevFree (h : Heap) (b : Nat) : Option Nat := do
  guard !(← blockAllocated h b)
  load h (payloadAt b 1)

def blockSetPrevFree (h : Heap) (b prev : Nat) : Option Heap := do
  guard (!(← blockAllocated h b) && !(← blockAllocated h prev))
  store h (payloadAt b 1) prev

/-- The two link updates that end `pull_free_block`. -/
def unlinkFree (h : Heap) (fb : Nat) : Option Heap := do
  let h ← blockSetNextFree h (← blockPrevFree h fb) (← blockNextFree h fb)
  blockSetPrevFree h (← blockNextFree h fb) (← blockPrevFree h fb)

def pullFreeBlock (h : Heap) (fb : Nat) : Option Heap := do
  guard !(← blockAllocated h fb)
  if h.flistFirst = fb then
    let h := { h with flistFirst := ← blockNextFree h fb }
    if h.flistFirst = fb then
      return { h with flistFirst := null }
    else unlinkFree h fb
  else unlinkFree h fb

def insertFreeBlock (h : Heap) (fb : Nat) : Option Heap := do
  guard !(← blockAllocated h fb)
  if h.flistFirst ≠ null then
    let last ← blockPrevFree h h.flistFirst
    let h ← blockSetNextFree h fb h.flistFirst
    let h ← blockSetPrevFree h fb last
    let h ← blockSetNextFree h last fb
    let h ← blockSetPrevFree h h.flistFirst fb
    return { h with flistFirst := fb }
  else
    let h ← blockSetNextFree h fb fb
    let h ← blockSetPrevFree h fb fb
    return { h with flistFirst := fb }

end CourseProjects.Malloc

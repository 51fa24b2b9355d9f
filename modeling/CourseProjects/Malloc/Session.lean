import CourseProjects.Lib.Transition
import CourseProjects.Malloc.Mm

/-!
# A client of the allocator

The state of a run is the heap with the payloads the client holds and the sizes
it asked for. A client asks for at most `INT_MAX` bytes, passes `NULL` or a
payload it holds, and writes bytes of such payloads.
-/

namespace CourseProjects.Malloc

open Transition

structure Live where
  ptr : Nat
  size : Nat
  deriving DecidableEq

structure Session where
  heap : Heap
  live : List Live

inductive Call
  | malloc (size : Nat)
  | free (ptr : Nat)
  | realloc (ptr size : Nat)
  | write (ptr i : Nat) (v : UInt8)

namespace Session

/-- The client holds a block with payload `ptr`. -/
def Holds (s : Session) (ptr : Nat) : Prop := ∃ b ∈ s.live, b.ptr = ptr

/-- What the client may do: the calls `mdriver` makes, and writes to the payload,
which ends where the end tag begins. -/
def Legal (s : Session) : Call → Prop
  | .malloc size => size ≤ intMax
  | .free ptr => ptr = null ∨ s.Holds ptr
  | .realloc ptr size => (ptr = null ∨ s.Holds ptr) ∧ size ≤ intMax
  | .write ptr i _ =>
    s.Holds ptr ∧ ∃ n, blockSize s.heap (payloadToBlock ptr) = some n ∧ i + tagsSize < n

/-- The client's blocks after a call returned `ptr` for a request of `size`. -/
def hold (live : List Live) (ptr size : Nat) : List Live :=
  if ptr = null then live else ⟨ptr, size⟩ :: live

def drop (live : List Live) (ptr : Nat) : List Live := live.filter fun b => b.ptr ≠ ptr

instance (s : Session) (ptr : Nat) : Decidable (s.Holds ptr) :=
  inferInstanceAs (Decidable (∃ b ∈ s.live, b.ptr = ptr))

instance (s : Session) (ptr i : Nat) :
    Decidable (∃ n, blockSize s.heap (payloadToBlock ptr) = some n ∧ i + tagsSize < n) :=
  match blockSize s.heap (payloadToBlock ptr) with
  | none => isFalse (by simp)
  | some n => decidable_of_iff (i + tagsSize < n) (by simp)

instance (s : Session) : (c : Call) → Decidable (s.Legal c)
  | .malloc size => inferInstanceAs (Decidable (size ≤ intMax))
  | .free ptr => inferInstanceAs (Decidable (ptr = null ∨ s.Holds ptr))
  | .realloc ptr size => inferInstanceAs (Decidable ((ptr = null ∨ s.Holds ptr) ∧ size ≤ intMax))
  | .write ptr i _ => inferInstanceAs (Decidable (s.Holds ptr ∧
      ∃ n, blockSize s.heap (payloadToBlock ptr) = some n ∧ i + tagsSize < n))

def exec (s : Session) : Call → Option Session
  | .malloc size => do
    let (q, h) ← mmMalloc s.heap size
    return ⟨h, hold s.live q size⟩
  | .free ptr => do
    let h ← mmFree s.heap ptr
    return ⟨h, drop s.live ptr⟩
  | .realloc ptr size => do
    let (q, h) ← mmRealloc s.heap ptr size
    if size = 0 then return ⟨h, drop s.live ptr⟩
    else if q = null then return ⟨h, s.live⟩
    else return ⟨h, hold (drop s.live ptr) q size⟩
  | .write ptr i v => some ⟨{ s.heap with mem := Bytes.setByte s.heap.mem (ptr + i) v }, s.live⟩

/-- A sequence of legal calls. -/
def run (s : Session) : List Call → Option Session
  | [] => some s
  | c :: cs => do
    guard (s.Legal c)
    run (← s.exec c) cs

end Session

/-- All runs of a client after `mm_init` on a fresh arena. -/
def client (a : Arena) : System Session Call where
  init s := ∃ mem h, mmInit (memInit a mem) = some (0, h) ∧ s = ⟨h, []⟩
  step s c s' := s.Legal c ∧ s.exec c = some s'

/-- The state after `mm_init` in an arena of zero bytes and a sequence of calls. -/
def script (a : Arena) (cs : List Call) : Option Session := do
  let (r, h) ← mmInit (memInit a fun _ => 0)
  guard (r = 0)
  Session.run ⟨h, []⟩ cs

/-- The calls other than `mm_realloc`. -/
def Call.Basic : Call → Prop
  | .realloc _ _ => False
  | _ => True

/-- The runs of `mm_malloc` and `mm_free`. -/
def basicClient (a : Arena) : System Session Call := (client a).restrict fun _ c => c.Basic

end CourseProjects.Malloc

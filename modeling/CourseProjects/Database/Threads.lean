import CourseProjects.Database.Contents
import CourseProjects.Lib.Linearizable
import CourseProjects.Lib.Transition

/-!
# The database operations, run by many threads

Threads interleave at their lock and unlock operations. A `Pc` is the lock
operation that a thread is about to make, with the variables that are still
read; `Pc.after` is the code from there to the next lock operation. A thread
that leaves the defined behaviour of C stops as `crashed`, and from then on the
memory may be anything.
-/

namespace CourseProjects.Database

open History

abbrev Tid := Nat

/-- `enum locktype` -/
inductive LockType
  | read
  | write
  deriving DecidableEq

/-- `pthread_rwlock_t`: a lock is held by many readers or by one writer. -/
inductive RwLock
  | readers (ts : List Tid)
  | writer (t : Tid)

namespace RwLock

def free : RwLock :=
  readers []

/-- The lock once the thread has got it; `none` when the thread must wait. -/
def lock (t : Tid) : LockType → RwLock → Option RwLock
  | .read, readers ts => some (readers (t :: ts))
  | .write, readers [] => some (writer t)
  | .write, readers (_ :: _) => none
  | _, writer _ => none

def unlock (t : Tid) : RwLock → RwLock
  | readers ts => readers (ts.erase t)
  | writer u => if u = t then free else writer u

/-- How a thread holds the lock. -/
def heldBy (t : Tid) : RwLock → Option LockType
  | readers ts => if t ∈ ts then some .read else none
  | writer u => if u = t then some .write else none

end RwLock

namespace Call

def name : Call → CString
  | query name _ => name
  | add name _ => name
  | remove name => name

/-- The texts of an addition have at most 255 bytes, as `%255s` reads them. -/
def Bounded : Call → Prop
  | add name value => name.length ≤ 255 ∧ value.length ≤ 255
  | query _ _ => True
  | remove _ => True

instance : (c : Call) → Decidable c.Bounded
  | add _ _ => inferInstanceAs (Decidable (_ ∧ _))
  | query _ _ => inferInstanceAs (Decidable True)
  | remove _ => inferInstanceAs (Decidable True)

/-- The lock type with which the operation calls `search`. -/
def lockType : Call → LockType
  | query _ _ => .read
  | add _ _ => .write
  | remove _ => .write

end Call

inductive LockOp
  | lock (lt : LockType) (a : Addr)
  | unlock (a : Addr)

namespace LockOp

def addr : LockOp → Addr
  | lock _ a => a
  | unlock a => a

def apply (t : Tid) : LockOp → RwLock → Option RwLock
  | lock lt _, lk => lk.lock t lt
  | unlock _, lk => some (lk.unlock t)

end LockOp

inductive Pc
  | idle
  /-- `lock(lt, &head.lock)` -/
  | lockHead (c : Call)
  /-- `lock(lt, &next->lock)` in `search` -/
  | lockNext (c : Call) (parent next : Addr)
  /-- `unlock(&parent->lock)` before `search` goes on at `next` -/
  | unlockParent (c : Call) (parent next : Addr)
  /-- `unlock(&parent->lock)` in the `search` of `db_query`, which has found `target` -/
  | readValue (name : CString) (len : Nat) (parent target : Addr)
  /-- `unlock(&dnode->lock)` before `node_destructor(dnode)` -/
  | freeNode (name : CString) (parent dnode : Addr)
  /-- `lock(l_write, &dnode->rchild->lock)` -/
  | lockRight (name : CString) (parent dnode right : Addr)
  /-- `lock(l_write, &next->lchild->lock)` -/
  | lockLeft (name : CString) (parent dnode next child : Addr)
  /-- `unlock(&next->lchild->lock)` -/
  | unlockLeft (name : CString) (parent dnode next nextl : Addr)
  /-- `unlock(&dnode->rchild->lock)` before the entry of `next` is copied -/
  | copyUp (name : CString) (parent dnode next : Addr) (pnext : Addr × Field) (right : Addr)
  /-- The last unlock operations, in their order, before the call returns. -/
  | release (c : Call) (as : List Addr) (r : Result)
  | crashed (f : Fault)

namespace Pc

/-- The lock operation that comes next. -/
def op : Pc → Option LockOp
  | idle => none
  | lockHead c => some (.lock c.lockType head)
  | lockNext c _ next => some (.lock c.lockType next)
  | unlockParent _ parent _ => some (.unlock parent)
  | readValue _ _ parent _ => some (.unlock parent)
  | freeNode _ _ dnode => some (.unlock dnode)
  | lockRight _ _ _ right => some (.lock .write right)
  | lockLeft _ _ _ _ child => some (.lock .write child)
  | unlockLeft _ _ _ _ nextl => some (.unlock nextl)
  | copyUp _ _ _ _ _ right => some (.unlock right)
  | release _ [] _ => none
  | release _ (a :: _) _ => some (.unlock a)
  | crashed _ => none

end Pc

/-! ## The code between two lock operations -/

namespace Db

/-- The search met a null pointer below `parent`. -/
def missing (db : Db) (parent : Addr) : Call → Except Fault (Pc × Db)
  | c@(.query _ len) => return (.release c [parent] (.text (snprintf len dbQuery.notFound)), db)
  | c@(.add name value) => do
    let (new, db) := db.nodeConstructor name value 0 0
    -- `pthread_rwlock_init(&new->lock, NULL)`: the lock at a new address is free
    let _ ← db.deref new
    let db ← db.setToward name parent new
    return (.release c [parent] (.int 1), db)
  | c@(.remove _) => return (.release c [parent] (.int 0), db)

/-- `db_remove` once `search` has returned `dnode`. -/
def removeFound (db : Db) (name : CString) (parent dnode : Addr) : Except Fault (Pc × Db) := do
  let d ← db.deref dnode
  if d.rchild = 0 then
    let db ← db.setToward d.name parent d.lchild
    return (.freeNode name parent dnode, db)
  else if d.lchild = 0 then
    let db ← db.setToward d.name parent d.rchild
    return (.freeNode name parent dnode, db)
  else return (.lockRight name parent dnode d.rchild, db)

/-- The search has locked `target`, whose name is the one of the call. -/
def found (db : Db) (parent target : Addr) : Call → Except Fault (Pc × Db)
  | .query name len => return (.readValue name len parent target, db)
  | c@(.add _ _) => return (.release c [target, parent] (.int 0), db)
  | .remove name => db.removeFound name parent target

/-- `search` from its start up to a lock operation. -/
def searchFrom (db : Db) (c : Call) (parent : Addr) : Except Fault (Pc × Db) := do
  let p ← db.deref parent
  let next := p.toward c.name
  if next = 0 then db.missing parent c
  else return (.lockNext c parent next, db)

/-- The test of the `while` loop of `db_remove`. -/
def walkTest (db : Db) (name : CString) (parent dnode next : Addr) (pnext : Addr × Field) :
    Except Fault (Pc × Db) := do
  let n ← db.deref next
  if n.lchild ≠ 0 then return (.lockLeft name parent dnode next n.lchild, db)
  else
    let d ← db.deref dnode
    return (.copyUp name parent dnode next pnext d.rchild, db)

end Db

/-- What a thread does between the lock operation it has just made and the next
one. -/
def Pc.after (db : Db) : Pc → Except Fault (Pc × Db)
  | idle => return (idle, db)
  | lockHead c => db.searchFrom c head
  | lockNext c parent next => do
    let n ← db.deref next
    if strcmp c.name n.name = 0 then db.found parent next c
    else return (unlockParent c parent next, db)
  | unlockParent c _ next => db.searchFrom c next
  | readValue name len _ target => do
    let t ← db.deref target
    return (release (.query name len) [target] (.text (snprintf len t.value)), db)
  | freeNode name parent dnode => do
    let db ← db.nodeDestructor dnode
    return (release (.remove name) [parent] (.int 1), db)
  | lockRight name parent dnode _ => do
    let d ← db.deref dnode
    db.walkTest name parent dnode d.rchild (dnode, .rchild)
  | lockLeft name parent dnode next _ => do
    let n ← db.deref next
    return (unlockLeft name parent dnode next n.lchild, db)
  | unlockLeft name parent dnode next nextl =>
    db.walkTest name parent dnode nextl (next, .lchild)
  | copyUp name parent dnode next pnext _ => do
    let n ← db.deref next
    let db ← db.writeName dnode n.name
    let db ← db.writeValue dnode n.value
    let db ← db.setField pnext n.rchild
    let db ← db.nodeDestructor next
    return (release (.remove name) [dnode, parent] (.int 1), db)
  | release c as r => return (release c as.tail r, db)
  | crashed f => throw f

/-! ## Steps -/

structure State where
  db : Db
  lock : Addr → RwLock
  pc : Tid → Pc
  history : List (Event Tid Call Result)

inductive Act
  | call (t : Tid) (c : Call)
  | run (t : Tid)
  /-- The memory after a thread has crashed. -/
  | wild (t : Tid) (db : Db)

namespace State

/-- Any number of threads, none of which has called yet. -/
def init : State where
  db := .init
  lock _ := .free
  pc _ := .idle
  history := []

def setPc (s : State) (t : Tid) (pc : Pc) : State :=
  { s with pc := Function.update s.pc t pc }

/-- A thread makes its lock operation and goes on to the next one; a lock
operation on a node that is not there is a bad access. -/
def perform (s : State) (t : Tid) (op : LockOp) : Option State :=
  match s.db.mem op.addr with
  | none => some (s.setPc t (.crashed .badAccess))
  | some _ =>
    match op.apply t (s.lock op.addr) with
    | none => none
    | some lk =>
      match (s.pc t).after s.db with
      | .error f => some (s.setPc t (.crashed f))
      | .ok (pc, db) =>
        some { s.setPc t pc with db := db, lock := Function.update s.lock op.addr lk }

def run (s : State) (t : Tid) : Option State :=
  match (s.pc t).op with
  | some op => s.perform t op
  | none =>
    match s.pc t with
    | .release _ _ r => some { s.setPc t .idle with history := s.history ++ [.ret t r] }
    | _ => none

def act (s : State) : Act → Option State
  | .call t c =>
    match s.pc t with
    | .idle =>
      if c.Bounded then some { s.setPc t (.lockHead c) with history := s.history ++ [.call t c] }
      else none
    | _ => none
  | .run t => s.run t
  | .wild t db =>
    match s.pc t with
    | .crashed _ => some { s with db := db }
    | _ => none

/-- The copies of a removal fit: `next` is the successor that takes the place of
the entry of `dnode`. -/
def copyFits (s : State) : Act → Bool
  | .run t =>
    match s.pc t with
    | .copyUp _ _ dnode next _ _ =>
      match s.db.mem dnode, s.db.mem next with
      | some d, some n => n.name.length + 1 ≤ d.nameCap ∧ n.value.length + 1 ≤ d.valueCap
      | _, _ => true
    | _ => true
  | _ => true

end State

def threads : Transition.System State Act where
  init s := s = .init
  step s e s' := s.act e = some s'

end CourseProjects.Database

import CourseProjects.Database.Node

/-!
# The database operations, run one after another

With a single caller no lock is ever contended, so the locks are left out here.
A call faults where C gives it no meaning: at an access to memory that is not
there and at a write beyond the end of a buffer.
-/

namespace CourseProjects.Database

inductive Fault
  | badAccess
  | overflow
  | diverges
  deriving DecidableEq, Repr

namespace Db

def deref (db : Db) (a : Addr) : Except Fault Node :=
  match db.mem a with
  | some n => .ok n
  | none => .error .badAccess

/-- The child pointer on the side of `name`, which is compared anew. -/
def setToward (db : Db) (name : CString) (parent child : Addr) : Except Fault Db := do
  let n ← db.deref parent
  return db.set parent (some (n.setToward name child))

/-- `*p = child` for a pointer to a child pointer. -/
def setField (db : Db) (p : Addr × Field) (child : Addr) : Except Fault Db := do
  let n ← db.deref p.1
  return db.set p.1 (some (n.setField p.2 child))

/-- `snprintf(node->name, MAXLEN, "%s", name)`. -/
def writeName (db : Db) (a : Addr) (name : CString) : Except Fault Db := do
  let n ← db.deref a
  if (snprintf maxLen name).length + 1 ≤ n.nameCap then
    return db.set a (some { n with name := snprintf maxLen name })
  else throw .overflow

/-- `snprintf(node->value, MAXLEN, "%s", value)`. -/
def writeValue (db : Db) (a : Addr) (value : CString) : Except Fault Db := do
  let n ← db.deref a
  if (snprintf maxLen value).length + 1 ≤ n.valueCap then
    return db.set a (some { n with value := snprintf maxLen value })
  else throw .overflow

/-- The destructor reads the two string pointers before it frees them. -/
def nodeDestructor (db : Db) (a : Addr) : Except Fault Db := do
  let _ ← db.deref a
  return db.destroy a

/-- The target node, `0` when there is none, and its parent. -/
def search : Nat → Db → CString → Addr → Except Fault (Addr × Addr)
  | 0, _, _, _ => throw .diverges
  | fuel + 1, db, name, parent => do
    let p ← db.deref parent
    let next := p.toward name
    if next = 0 then
      return (0, parent)
    else
      let n ← db.deref next
      if strcmp name n.name = 0 then return (next, parent)
      else search fuel db name next

def dbQuery (db : Db) (name : CString) (len : Nat) : Except Fault CString := do
  let (target, _) ← search db.fresh db name head
  if target = 0 then
    return snprintf len notFound
  else
    let t ← db.deref target
    return snprintf len t.value
where
  /-- "not found" -/
  notFound : CString := [110, 111, 116, 32, 102, 111, 117, 110, 100]

def dbAdd (db : Db) (name value : CString) : Except Fault (Int × Db) := do
  let (target, parent) ← search db.fresh db name head
  if target ≠ 0 then
    return (0, db)
  else
    let (new, db) := db.nodeConstructor name value 0 0
    -- `pthread_rwlock_init(&new->lock, NULL)`
    let _ ← db.deref new
    let db ← db.setToward name parent new
    return (1, db)

/-- The walk down the `lchild` chain: the smallest node and the pointer to it. -/
def smallest : Nat → Db → Addr → Addr × Field → Except Fault (Addr × (Addr × Field))
  | 0, _, _, _ => throw .diverges
  | fuel + 1, db, next, pnext => do
    let n ← db.deref next
    if n.lchild ≠ 0 then smallest fuel db n.lchild (next, .lchild)
    else return (next, pnext)

def dbRemove (db : Db) (name : CString) : Except Fault (Int × Db) := do
  let (dnode, parent) ← search db.fresh db name head
  if dnode = 0 then
    return (0, db)
  else
    let d ← db.deref dnode
    if d.rchild = 0 then
      let db ← db.setToward d.name parent d.lchild
      let db ← db.nodeDestructor dnode
      return (1, db)
    else if d.lchild = 0 then
      let db ← db.setToward d.name parent d.rchild
      let db ← db.nodeDestructor dnode
      return (1, db)
    else
      let (next, pnext) ← smallest db.fresh db d.rchild (dnode, .rchild)
      let n ← db.deref next
      let db ← db.writeName dnode n.name
      let db ← db.writeValue dnode n.value
      let db ← db.setField pnext n.rchild
      let db ← db.nodeDestructor next
      return (1, db)

/-- `db_cleanup_recurs`: the children are read again after each recursive call. -/
def cleanupRecurs : Nat → Db → Addr → Except Fault Db
  | 0, _, _ => throw .diverges
  | fuel + 1, db, node => do
    if node = 0 then
      return db
    else
      let n ← db.deref node
      let db ← cleanupRecurs fuel db n.lchild
      let n ← db.deref node
      let db ← cleanupRecurs fuel db n.rchild
      db.nodeDestructor node

def dbCleanup (db : Db) : Except Fault Db := do
  let h ← db.deref head
  let db ← cleanupRecurs (db.fresh + 1) db h.lchild
  let h ← db.deref head
  cleanupRecurs (db.fresh + 1) db h.rchild

end Db

/-! ## Calls -/

inductive Call
  | query (name : CString) (len : Nat)
  | add (name value : CString)
  | remove (name : CString)

inductive Result
  | text (s : CString)
  | int (i : Int)
  deriving DecidableEq

namespace Call

def run (db : Db) : Call → Except Fault (Result × Db)
  | query name len => do
    let s ← db.dbQuery name len
    return (.text s, db)
  | add name value => do
    let (i, db) ← db.dbAdd name value
    return (.int i, db)
  | remove name => do
    let (i, db) ← db.dbRemove name
    return (.int i, db)

def runAll : Db → List Call → Except Fault (List Result × Db)
  | db, [] => return ([], db)
  | db, c :: cs => do
    let (r, db) ← c.run db
    let (rs, db) ← runAll db cs
    return (r :: rs, db)

/-- What `sscanf` with `%255s` can put into `name` and `value`. -/
def Legal : Call → Prop
  | query name _ => name ≠ [] ∧ name.length ≤ 255
  | add name value => (name ≠ [] ∧ name.length ≤ 255) ∧ value ≠ [] ∧ value.length ≤ 255
  | remove name => name ≠ [] ∧ name.length ≤ 255

instance (c : Call) : Decidable c.Legal := by
  cases c <;> unfold Legal <;> infer_instance

end Call

/-! ## What the database is for -/

/-- A map from names to values. -/
abbrev Contents := CString → Option CString

/-- The result of a call and the map after it. -/
def Call.spec (m : Contents) : Call → Result × Contents
  | .query name len => (.text (snprintf len ((m name).getD Db.dbQuery.notFound)), m)
  | .add name value =>
    if m name = none then (.int 1, Function.update m name (some value)) else (.int 0, m)
  | .remove name =>
    if m name = none then (.int 0, m) else (.int 1, Function.update m name none)

end CourseProjects.Database

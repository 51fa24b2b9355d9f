import CourseProjects.Lib.TreeHeap
import Mathlib.Algebra.GroupWithZero.Nat
import Mathlib.Data.List.Lex
import Mathlib.Order.Fin.Basic
import Mathlib.Order.WithBot

/-!
# The nodes of the database

Strings are the bytes before the terminating NUL. A node records the sizes of
the two buffers that `node_constructor` allocates for it. Addresses are never
used a second time, so a destroyed node stays absent; the memory also remembers
which nodes were constructed and which were destroyed.
-/

namespace CourseProjects.Database

open TreeHeap SearchTree SearchTree.Tree

abbrev CString := List (Fin 256)

/-- A byte can be written as a number. -/
instance neZero_byte : NeZero 256 :=
  ⟨by decide⟩

/-- Bytes compare as unsigned values. -/
def strcmp : CString → CString → Int
  | [], [] => 0
  | [], _ :: _ => -1
  | _ :: _, [] => 1
  | a :: s, b :: t => if a = b then strcmp s t else (a.val : Int) - b.val

/-- The text that `snprintf(buf, n, "%s", s)` leaves in the buffer. -/
def snprintf (n : Nat) (s : CString) : CString :=
  s.take (n - 1)

def maxLen : Nat := 256

theorem strcmp_eq_zero {s t : CString} : strcmp s t = 0 ↔ s = t := by
  induction s generalizing t with
  | nil => cases t <;> simp [strcmp]
  | cons a s ih =>
    cases t with
    | nil => simp [strcmp]
    | cons b t =>
      by_cases hab : a = b
      · simp [strcmp, hab, ih]
      · have hv : a.val ≠ b.val := fun h => hab (Fin.ext h)
        simp only [strcmp, hab, ↓reduceIte, List.cons.injEq, false_and, iff_false]
        omega

theorem strcmp_lt_zero {s t : CString} : strcmp s t < 0 ↔ s < t := by
  induction s generalizing t with
  | nil => cases t <;> simp [strcmp]
  | cons a s ih =>
    cases t with
    | nil => simp [strcmp]
    | cons b t =>
      rw [List.cons_lt_cons_iff]
      by_cases hab : a = b
      · simp [strcmp, hab, ih]
      · simp only [strcmp, hab, ↓reduceIte, false_and, or_false, Fin.lt_def]
        omega

theorem snprintf_of_length {s : CString} (hs : s.length ≤ 255) : snprintf maxLen s = s :=
  List.take_of_length_le (by simpa [maxLen] using hs)

/-! ## Nodes and memory -/

abbrev Addr := Nat

/-- The address of the root node, which lies in the data region. -/
def head : Addr := 1

structure Node where
  name : CString
  value : CString
  lchild : Addr
  rchild : Addr
  nameCap : Nat
  valueCap : Nat
  deriving DecidableEq, Repr

/-- The two pointers of a node. -/
inductive Field
  | lchild
  | rchild
  deriving DecidableEq, Repr

namespace Node

/-- The child on the side of a name. -/
def toward (name : CString) (n : Node) : Addr :=
  if strcmp name n.name < 0 then n.lchild else n.rchild

def setToward (name : CString) (a : Addr) (n : Node) : Node :=
  if strcmp name n.name < 0 then { n with lchild := a } else { n with rchild := a }

theorem setToward_self {name : CString} {a : Addr} {n : Node} (h : n.toward name = a) :
    n.setToward name a = n := by
  subst h
  unfold setToward toward
  split_ifs <;> rfl

def setField (f : Field) (a : Addr) (n : Node) : Node :=
  match f with
  | .lchild => { n with lchild := a }
  | .rchild => { n with rchild := a }

/-- A text with its NUL fits in the buffer. -/
def Fits (n : Node) : Prop :=
  n.name.length + 1 ≤ n.nameCap ∧ n.value.length + 1 ≤ n.valueCap

/-- What holds of the texts of every node. -/
structure Ok (n : Node) : Prop where
  fits : n.Fits
  name : n.name.length ≤ 255
  value : n.value.length ≤ 255

theorem Ok.setToward {name : CString} {a : Addr} {n : Node} (h : n.Ok) : (n.setToward name a).Ok := by
  unfold Node.setToward
  split_ifs
  · exact ⟨h.fits, h.name, h.value⟩
  · exact ⟨h.fits, h.name, h.value⟩

theorem Ok.setField {f : Field} {a : Addr} {n : Node} (h : n.Ok) : (n.setField f a).Ok := by
  cases f with
  | lchild => exact ⟨h.fits, h.name, h.value⟩
  | rchild => exact ⟨h.fits, h.name, h.value⟩

instance (n : Node) : Decidable n.Fits :=
  inferInstanceAs (Decidable (_ ∧ _))

end Node

structure Db where
  mem : Addr → Option Node
  /-- The next address that `malloc` hands out for a node. -/
  fresh : Addr
  /-- The nodes that `node_constructor` has returned. -/
  built : List Addr
  /-- The nodes that `node_destructor` was called on. -/
  freed : List Addr

namespace Db

/-- `node_t head = {"", "", 0, 0}`. -/
def init : Db where
  mem a := if a = head then some ⟨[], [], 0, 0, 1, 1⟩ else none
  fresh := 2
  built := []
  freed := []

def set (db : Db) (a : Addr) (n : Option Node) : Db :=
  { db with mem := fun b => if b = a then n else db.mem b }

@[simp] theorem set_mem_self (db : Db) (a : Addr) (n : Option Node) : (db.set a n).mem a = n := by
  simp [set]

theorem set_set (db : Db) (a : Addr) (n m : Option Node) : (db.set a n).set a m = db.set a m := by
  simp only [set, mk.injEq, and_true]
  funext b
  split_ifs <;> rfl

theorem set_mem_ne (db : Db) {a b : Addr} (n : Option Node) (hb : b ≠ a) :
    (db.set a n).mem b = db.mem b := by
  simp [set, hb]


def modify (db : Db) (a : Addr) (f : Node → Node) : Db :=
  db.set a ((db.mem a).map f)

theorem modify_mem_self (db : Db) {a : Addr} {n : Node} (f : Node → Node)
    (hn : db.mem a = some n) : (db.modify a f).mem a = some (f n) := by
  simp [modify, hn]

theorem modify_mem_ne (db : Db) {a b : Addr} (f : Node → Node) (hb : b ≠ a) :
    (db.modify a f).mem b = db.mem b :=
  db.set_mem_ne _ hb

theorem modify_mem (db : Db) (a b : Addr) (f : Node → Node) :
    (db.modify a f).mem b = if b = a then (db.mem b).map f else db.mem b := by
  by_cases hb : b = a
  · simp [modify, set, hb]
  · simp [modify, set, hb]

/-- `node_constructor`, `malloc` succeeding. The address `0` stands for `NULL`. -/
def nodeConstructor (db : Db) (name value : CString) (left right : Addr) : Addr × Db :=
  if name.length > maxLen ∨ value.length > maxLen then (0, db)
  else
    (db.fresh,
      { mem := fun b =>
          if b = db.fresh then
            some ⟨snprintf maxLen name, snprintf maxLen value, left, right,
              name.length + 1, value.length + 1⟩
          else db.mem b
        fresh := db.fresh + 1
        built := db.built ++ [db.fresh]
        freed := db.freed })

/-- The memory after `node_destructor`. -/
def destroy (db : Db) (a : Addr) : Db :=
  { db.set a none with freed := db.freed ++ [a] }

@[simp] theorem destroy_mem_self (db : Db) (a : Addr) : (db.destroy a).mem a = none := by
  simp [destroy, set]

theorem destroy_mem_ne (db : Db) {a b : Addr} (hb : b ≠ a) : (db.destroy a).mem b = db.mem b :=
  db.set_mem_ne none hb

end Db

end CourseProjects.Database

import CourseProjects.Lib.CInt
import CourseProjects.Lib.Carving
import Mathlib.Logic.Equiv.Fin.Basic
import Mathlib.Tactic.Ring

/-!
# Rooms and directions

The rooms of a maze lie row by row in one array. A pointer to a room is its
index; an access outside the array has no result, and neither has an index or a
number of rooms that is no `int`.
-/

namespace CourseProjects.Maze

open CInt

inductive Direction
  | north
  | south
  | west
  | east
  deriving DecidableEq, Repr

/-- The directions in the order of their numbers. -/
def directions : List Direction :=
  [.north, .south, .west, .east]

structure Room where
  r : Int
  c : Int
  visited : Bool
  connections : Direction → Int
  next : Option Int

/-- An array of rooms. -/
structure Rooms where
  len : Int
  room : Int → Room

namespace Rooms

def get (maze : Rooms) (i : Int) : Option Room :=
  if 0 ≤ i ∧ i < maze.len then some (maze.room i) else none

def set (maze : Rooms) (i : Int) (room : Room) : Rooms :=
  { maze with room := fun j => if j = i then room else maze.room j }

@[simp] theorem set_len (maze : Rooms) (i : Int) (room : Room) : (maze.set i room).len = maze.len :=
  rfl

@[simp] theorem set_room_self (maze : Rooms) (i : Int) (room : Room) :
    (maze.set i room).room i = room := by
  simp [set]

theorem set_room_ne (maze : Rooms) {i j : Int} (room : Room) (h : j ≠ i) :
    (maze.set i room).room j = maze.room j := by
  simp [set, h]

end Rooms

def getIndex (row col numCols : Int) : Option Int := do
  let start ← checked (row * numCols)
  checked (start + col)

def isInRange (row col numRows numCols : Int) : Bool :=
  row < numRows && row ≥ 0 && col < numCols && col ≥ 0

/-- Whether the neighbor in a direction is in range. The callers have a room in range,
whose row and column can be counted up and down. -/
def directionIndex (row col : Int) (dir : Direction) (numRows numCols : Int) : Bool :=
  match dir with
  | .north => isInRange (row - 1) col numRows numCols
  | .south => isInRange (row + 1) col numRows numCols
  | .west => isInRange row (col - 1) numRows numCols
  | .east => isInRange row (col + 1) numRows numCols

/-- The pointer to the neighbor; the assertion is on the room itself. -/
def getNeighbor (numRows numCols : Int) (room : Room) (dir : Direction) : Option Int :=
  if isInRange room.r room.c numRows numCols then
    match dir with
    | .north => getIndex (room.r - 1) room.c numCols
    | .south => getIndex (room.r + 1) room.c numCols
    | .west => getIndex room.r (room.c - 1) numCols
    | .east => getIndex room.r (room.c + 1) numCols
  else none

def getOppositeDir : Direction → Direction
  | .north => .south
  | .south => .north
  | .west => .east
  | .east => .west

/-! ## Places of the grid -/

/-- The place next to another one. -/
def step (dir : Direction) (p : Int × Int) : Int × Int :=
  match dir with
  | .north => (p.1 - 1, p.2)
  | .south => (p.1 + 1, p.2)
  | .west => (p.1, p.2 - 1)
  | .east => (p.1, p.2 + 1)

theorem getOppositeDir_twice (d : Direction) : getOppositeDir (getOppositeDir d) = d := by
  cases d <;> rfl

theorem step_opposite (d : Direction) (p : Int × Int) : step (getOppositeDir d) (step d p) = p := by
  cases d <;> simp [step, getOppositeDir]

theorem step_ne (d : Direction) (p : Int × Int) : step d p ≠ p := by
  cases d <;> simp [step, Prod.ext_iff]

abbrev Place (numRows numCols : Nat) :=
  Fin numRows × Fin numCols

variable {numRows numCols : Nat}

def Place.coords (p : Place numRows numCols) : Int × Int :=
  (p.1.val, p.2.val)

/-- The index of a place in the array. -/
def Place.index (p : Place numRows numCols) : Int :=
  p.coords.1 * numCols + p.coords.2

theorem coords_injective {p q : Place numRows numCols} (h : p.coords = q.coords) : p = q := by
  simp only [Place.coords, Prod.mk.injEq, Nat.cast_inj] at h
  exact Prod.ext (Fin.ext h.1) (Fin.ext h.2)

/-- The places are what `is_in_range` accepts. -/
theorem isInRange_iff {r c : Int} :
    isInRange r c numRows numCols = true ↔ ∃ p : Place numRows numCols, p.coords = (r, c) := by
  simp only [isInRange, ge_iff_le, Bool.and_eq_true, decide_eq_true_eq]
  constructor
  · rintro ⟨⟨⟨hr, hr0⟩, hc⟩, hc0⟩
    refine ⟨(⟨r.toNat, by omega⟩, ⟨c.toNat, by omega⟩), ?_⟩
    simp [Place.coords, hr0, hc0]
  · rintro ⟨p, hp⟩
    simp only [Place.coords, Prod.mk.injEq] at hp
    have := p.1.isLt
    have := p.2.isLt
    omega

theorem directionIndex_iff {dir : Direction} {r c : Int} :
    directionIndex r c dir numRows numCols = true ↔
      ∃ q : Place numRows numCols, q.coords = step dir (r, c) := by
  cases dir <;> exact isInRange_iff

theorem index_eq (p : Place numRows numCols) : p.index = (finProdFinEquiv p).val := by
  simp only [Place.index, Place.coords, finProdFinEquiv_apply_val]
  push_cast
  ring

theorem index_injective {p q : Place numRows numCols} (h : p.index = q.index) : p = q := by
  rw [index_eq, index_eq, Nat.cast_inj] at h
  exact finProdFinEquiv.injective (Fin.ext h)

theorem index_bounds (p : Place numRows numCols) :
    0 ≤ p.index ∧ p.index < (numRows : Int) * numCols := by
  have := (finProdFinEquiv p).isLt
  rw [index_eq, ← Nat.cast_mul]
  omega

/-- The index is computed without an overflow when the number of rooms is an `int`. -/
theorem getIndex_place (hfit : (numRows : Int) * numCols ≤ intMax) (p : Place numRows numCols) :
    getIndex p.coords.1 p.coords.2 numCols = some p.index := by
  obtain ⟨-, hlt⟩ := index_bounds p
  have hcol : 0 ≤ p.coords.2 := Int.natCast_nonneg p.2.val
  have hrow : 0 ≤ p.coords.1 * (numCols : Int) := Int.natCast_nonneg (p.1.val * numCols)
  have hindex : p.index = p.coords.1 * numCols + p.coords.2 := rfl
  rw [getIndex, checked_of_nonneg hrow (by omega), hindex]
  exact checked_of_nonneg (by omega) (by omega)

/-- The array index of the neighbor, computed from the fields of the room. -/
theorem getNeighbor_place (hfit : (numRows : Int) * numCols ≤ intMax) {dir : Direction}
    {room : Room} {p q : Place numRows numCols} (hp : (room.r, room.c) = p.coords)
    (hq : q.coords = step dir p.coords) :
    getNeighbor numRows numCols room dir = some q.index := by
  have hr : isInRange room.r room.c numRows numCols = true := isInRange_iff.mpr ⟨p, hp.symm⟩
  unfold getNeighbor
  rw [if_pos hr, ← getIndex_place hfit q, hq, ← hp]
  cases dir <;> rfl

/-- An array with one room for each place. -/
theorem get_place {maze : Rooms} (hlen : maze.len = (numRows : Int) * numCols)
    (p : Place numRows numCols) : maze.get p.index = some (maze.room p.index) := by
  have h := index_bounds p
  rw [Rooms.get, hlen, if_pos h]

/-- The sides of the places of a grid. -/
def grid (numRows numCols : Nat) : Carving.Sides (Place numRows numCols) Direction where
  next p d q := q.coords = step d p.coords
  opp := getOppositeDir
  back p d q h := by rw [h, step_opposite]
  unique p d q q' h h' := coords_injective (h.trans h'.symm)
  loopless p d q h := by
    rintro rfl
    exact step_ne d _ h.symm
  opp_opp := getOppositeDir_twice

end CourseProjects.Maze

import CourseProjects.Maze.Room

/-!
# The generator

The values of `rand()` are a sequence, with the number of values drawn so far
threaded through the walk.
-/

namespace CourseProjects.Maze

open CInt

/-- One round of the shuffle exchanges two entries of the array. -/
def swap (dirs : List Direction) (i j : Nat) : List Direction :=
  match dirs[i]?, dirs[j]? with
  | some a, some b => (dirs.set i b).set j a
  | _, _ => dirs

def shuffleArray (rand : Nat → Nat) (pos : Nat) (dirs : List Direction) : List Direction × Nat :=
  [0, 1, 2, 3].foldl (fun (dirs, pos) i => (swap dirs i (rand pos % 4), pos + 1)) (dirs, pos)

/-- The generator tells a new room its place before it walks there. -/
def Room.placed (row col : Int) (dir : Direction) (room : Room) : Room :=
  match dir with
  | .north => { room with c := col, r := row - 1 }
  | .south => { room with c := col, r := row + 1 }
  | .west => { room with r := row, c := col - 1 }
  | .east => { room with r := row, c := col + 1 }

def Room.connect (dir : Direction) (a : Int) (room : Room) : Room :=
  { room with connections := fun d => if d = dir then a else room.connections d }

/-- One side of the room at `row`, `col`; `walk` is the recursive call. -/
def walkSide (walk : Rooms → Nat → Int → Int → Option (Rooms × Nat)) (row col : Int)
    (numRows numCols : Int) (maze : Rooms) (pos : Nat) (dir : Direction) :
    Option (Rooms × Nat) := do
  let i ← getIndex row col numCols
  let room ← maze.get i
  if directionIndex row col dir numRows numCols = false then
    return (maze.set i (room.connect dir 1), pos)
  else
    let j ← getNeighbor numRows numCols room dir
    let neighbor ← maze.get j
    if neighbor.visited = false then
      let maze := maze.set i (room.connect dir 0)
      let neighbor ← maze.get j
      let neighbor := neighbor.placed row col dir
      walk (maze.set j neighbor) pos neighbor.r neighbor.c
    else
      let opposite := neighbor.connections (getOppositeDir dir)
      if opposite = 1 ∨ opposite = 0 then
        return (maze.set i (room.connect dir opposite), pos)
      else
        return (maze.set i (room.connect dir 1), pos)

def drunkenWalk (rand : Nat → Nat) (numRows numCols : Int) :
    Nat → Rooms → Nat → Int → Int → Option (Rooms × Nat)
  | 0, _, _, _, _ => none
  | fuel + 1, maze, pos, row, col => do
    let i ← getIndex row col numCols
    let room ← maze.get i
    let maze := maze.set i { room with visited := true, r := row, c := col, next := none }
    let (dirs, pos) := shuffleArray rand pos directions
    dirs.foldlM (fun (maze, pos) dir =>
      walkSide (drunkenWalk rand numRows numCols fuel) row col numRows numCols maze pos dir)
      (maze, pos)

/-- The rooms as `main` initialises them; the other fields are left as they
were on the stack. The size of the array is an `int` product. -/
def initialRooms (numRows numCols : Int) (stack : Int → Room) : Option Rooms := do
  let size ← checked (numCols * numRows)
  return ⟨size, fun i => { stack i with visited := false, connections := fun _ => -1 }⟩

theorem initialRooms_of_fit {numRows numCols : Nat} (hfit : (numRows : Int) * numCols ≤ intMax)
    (stack : Int → Room) :
    ∃ maze, initialRooms numRows numCols stack = some maze ∧
      maze.len = (numRows : Int) * numCols ∧
      ∀ i, (maze.room i).visited = false ∧ (maze.room i).connections = fun _ => -1 := by
  have hsize : checked ((numCols : Int) * numRows) = some ((numRows : Int) * numCols) := by
    rw [Int.mul_comm]
    exact checked_of_nonneg (Int.natCast_nonneg (numRows * numCols)) hfit
  rw [initialRooms, hsize]
  exact ⟨_, rfl, rfl, fun _ => ⟨rfl, rfl⟩⟩

/-! ## The shuffle -/

theorem swap_perm (dirs : List Direction) (i j : Nat) : (swap dirs i j).Perm dirs := by
  unfold swap
  split
  · next a b ha hb =>
    obtain ⟨hi, rfl⟩ := List.getElem?_eq_some_iff.mp ha
    obtain ⟨hj, rfl⟩ := List.getElem?_eq_some_iff.mp hb
    exact List.set_set_perm hi hj
  · exact List.Perm.refl _

theorem shuffleArray_perm (rand : Nat → Nat) (pos : Nat) (dirs : List Direction) :
    (shuffleArray rand pos dirs).1.Perm dirs := by
  simp only [shuffleArray, List.foldl_cons, List.foldl_nil]
  exact (((swap_perm _ _ _).trans (swap_perm _ _ _)).trans (swap_perm _ _ _)).trans
    (swap_perm _ _ _)

end CourseProjects.Maze

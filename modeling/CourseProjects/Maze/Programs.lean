import CourseProjects.Maze.Encode
import CourseProjects.Maze.Pruned

/-!
# The two programs

`main` of the generator and of the solver, with the files that they read and write. A
maze file need not be one that the generator wrote: the solver loads a maze from any
text, and both of its builds solve it.
-/

namespace CourseProjects.Maze

open Backtrack CInt

/-- What the programs find on disk. -/
structure Disk where
  read : List Char → Option (List Char)
  writable : List Char → Bool
  closes : List Char → Bool

/-- The status of a run, what it prints and what is in its output file, if that was opened. -/
structure Ended where
  status : Int
  out : String
  err : String
  written : Option (List Char)
  deriving DecidableEq

def generatorUsage : String :=
  "Incorrect number of arguments.\n" ++
    "./generator <output file> <number of rows> <number of columns>\n"

/-- `main` of the generator; `result` is the array of hex digits before it is filled. -/
def generatorMain (rand : Nat → Nat) (disk : Disk) (stack : Int → Room) (result : Int → Int)
    (fuel : Nat) (argv : List (List Char)) : Option Ended :=
  match argv with
  | [_, fileName, rows, cols] =>
    let numRows := atoi rows
    let numCols := atoi cols
    if numCols ≤ 0 ∨ numRows ≤ 0 then
      some ⟨1, "", "Dimensions must be positive integers.\n", none⟩
    else do
      let maze ← initialRooms numRows numCols stack
      let (maze, _) ← drunkenWalk rand numRows numCols fuel maze 0 0 0
      let result ← encodeMaze maze numRows.toNat numCols.toNat result
      if disk.writable fileName = false then
        return ⟨1, "", "Could not open read file.\n", none⟩
      else
        let text ← printMaze numRows.toNat numCols.toNat result
        if disk.closes fileName = true then return ⟨0, "", "", some text⟩
        else return ⟨1, "", "A error occured in read file", some text⟩
  | _ => some ⟨1, generatorUsage, "", none⟩

def solverUsage : String :=
  "Incorrect number of arguments.\n" ++
    "./solver <input maze file> <number of rows> <number of columns>" ++
    " <output path file> <starting row> <starting column>" ++ " <ending row> <ending column>\n"

/-- `"%d, %d\n"` -/
def printPlace (p : Int × Int) : List Char :=
  (toString p.1 ++ ", " ++ toString p.2 ++ "\n").toList

/-- The first line of the path file says which build wrote it. -/
def header (full : Bool) : List Char :=
  (if full then "FULL\n" else "PRUNED\n").toList

/-- The search, and the rooms that are written to the path file: those that `dfs` writes
in the `FULL` build, those of `print_prunned` in the other. -/
def solve (full : Bool) (startRow startCol goalRow goalCol numRows numCols : Int) (fuel : Nat)
    (maze : Rooms) : Option (Bool × List (Int × Int)) := do
  if full = true then
    let (found, _, rooms) ← dfsFull goalRow goalCol numRows numCols fuel maze [] startRow startCol
    return (found, rooms)
  else
    let (found, maze) ← dfs goalRow goalCol numRows numCols fuel maze startRow startCol
    if found = true then
      let start ← getIndex startRow startCol numCols
      let rooms ← printPrunned goalRow goalCol fuel maze start
      return (true, rooms)
    else return (false, [])

/-- The messages after the search, and the status. -/
def finish (full found closed closedPath : Bool) (rooms : List (Int × Int)) : Ended :=
  let err := if found then "" else "No solution. Invalid Maze as input.\n"
  let written := header full ++ rooms.flatMap printPlace
  if closed = false then ⟨1, "", err ++ "A error occured in read file", some written⟩
  else ⟨0, "", err ++ if closedPath then "" else "A error occured in write file", some written⟩

/-- `main` of the solver. Opening the path file empties it before the maze is read. -/
def solverMain (full : Bool) (disk : Disk) (stack : Int → Room) (hex fuel : Nat)
    (argv : List (List Char)) : Option Ended :=
  match argv with
  | [_, mazeFile, rows, cols, pathFile, startRow, startCol, goalRow, goalCol] =>
    let numRows := atoi rows
    let numCols := atoi cols
    if numCols ≤ 0 ∨ numRows ≤ 0 then
      some ⟨1, "", "Dimensions must be positive integers.\n", none⟩
    else if numRows ≤ atoi startRow ∨ atoi startRow < 0 ∨ numCols ≤ atoi startCol ∨
        atoi startCol < 0 then
      some ⟨1, "", "Your starting row and column are out of bounds.\n", none⟩
    else if numRows ≤ atoi goalRow ∨ atoi goalRow < 0 ∨ numCols ≤ atoi goalCol ∨
        atoi goalCol < 0 then
      some ⟨1, "", "Your goal row and column are out of bounds.\n", none⟩
    else do
      -- the size of the array, which is declared before a file is opened
      let _ ← checked (numRows * numCols)
      match disk.read mazeFile, disk.writable pathFile with
      | none, writable =>
        some ⟨1, "", "Could not open read file.\n", if writable then some [] else none⟩
      | some _, false => some ⟨1, "", "Could not open write file.\n", none⟩
      | some text, true =>
        let text := if pathFile = mazeFile then [] else text
        let maze ← loadMaze numRows.toNat numCols.toNat stack hex text
        let (found, rooms) ← solve full (atoi startRow) (atoi startCol) (atoi goalRow)
          (atoi goalCol) numRows numCols fuel maze
        return finish full found (disk.closes mazeFile) (disk.closes pathFile) rooms
  | _ => some ⟨1, solverUsage, "", none⟩

variable {numRows numCols : Nat} {start goal p : Place numRows numCols} {st : Loading}
  {maze : Rooms}

/-! ## Loading any text -/

/-- What is known of a room once it is loaded. -/
structure Room.Fresh (room : Room) (p : Place numRows numCols) : Prop where
  coords : (room.r, room.c) = p.coords
  bits : ∀ d, room.connections d = 0 ∨ room.connections d = 1
  unvisited : room.visited = false
  next : room.next = none

/-- The first `k` rooms are loaded. -/
structure Filled (numRows numCols k : Nat) (st : Loading) : Prop where
  len : st.maze.len = (numRows : Int) * numCols
  rooms : ∀ p : Place numRows numCols, p.index < k → (st.maze.room p.index).Fresh p

/-- Whatever the text is, `%1x` reads something or leaves `hex` as it was. -/
theorem Filled.round (hfit : (numRows : Int) * numCols ≤ intMax) (p : Place numRows numCols)
    {k : Nat} (hp : p.index = k) (h : Filled numRows numCols k st) :
    ∃ st', loadRoom numCols st p.1 p.2 = some st' ∧ Filled numRows numCols (k + 1) st' := by
  refine ⟨_, loadRoom_place hfit h.len p, h.len, fun q hq => ?_⟩
  by_cases hqp : q = p
  · subst hqp
    rw [Rooms.set_room_self]
    exact ⟨rfl, create_bits (st.maze.room q.index) _, rfl, rfl⟩
  · have hne : q.index ≠ p.index := fun hi => hqp (index_injective hi)
    rw [Rooms.set_room_ne _ _ hne]
    exact h.rooms q (by omega)

/-- Every text makes a maze: too short, too long, or not made of digits at all. -/
theorem loadMaze_any (hfit : (numRows : Int) * numCols ≤ intMax) (stack : Int → Room) (hex : Nat)
    (text : List Char) :
    ∃ maze, loadMaze numRows numCols stack hex text = some maze ∧ Loaded maze numRows numCols := by
  have hstart : Filled numRows numCols 0 ⟨⟨(numRows : Int) * numCols, stack⟩, text, hex⟩ :=
    ⟨rfl, fun p hp => absurd hp (not_lt.mpr (index_bounds p).1)⟩
  obtain ⟨st, hrun, h⟩ := loadMaze_induct hfit (fun p _ _ hp h => h.round hfit p hp) hstart
  have hall : ∀ p : Place numRows numCols, (st.maze.room p.index).Fresh p := fun p => by
    refine h.rooms p ?_
    rw [Nat.cast_mul]
    exact (index_bounds p).2
  exact ⟨st.maze, hrun, h.len, fun p => (hall p).coords, fun p => (hall p).bits,
    fun p => (hall p).unvisited, fun p => (hall p).next⟩

/-! ## Solving any maze -/

/-- What both builds write for a maze that is loaded. -/
structure Solved (maze : Rooms) (start goal : Place numRows numCols) (found : Bool)
    (full pruned : List (Place numRows numCols)) : Prop where
  reaches : found = true ↔ Relation.ReflTransGen (Move maze.sides) start goal
  failed : found = false → pruned = []
  head : found = true → pruned.head? = some start
  last : found = true → pruned.getLast? = some goal
  nodup : pruned.Nodup
  moves : pruned.IsChain (Move maze.sides)
  cut : found = true → pruned = Backtrack.pruned full

theorem nodup_length_le {path : List (Place numRows numCols)} (h : path.Nodup) :
    path.length ≤ numRows * numCols := by
  have hcard := h.length_le_card
  rwa [Fintype.card_prod, Fintype.card_fin, Fintype.card_fin] at hcard

theorem solve_spec (hfit : (numRows : Int) * numCols ≤ intMax) (hl : Loaded maze numRows numCols)
    (start goal : Place numRows numCols) {fuel : Nat} (hfuel : numRows * numCols ≤ fuel) :
    ∃ found full pruned, Solved maze start goal found full pruned ∧
      solve true start.coords.1 start.coords.2 goal.coords.1 goal.coords.2 numRows numCols fuel
        maze = some (found, full.map Place.coords) ∧
      solve false start.coords.1 start.coords.2 goal.coords.1 goal.coords.2 numRows numCols fuel
        maze = some (found, pruned.map Place.coords) := by
  have hst := hl.static hfit
  have hless : maze.unseen numRows numCols ≤ fuel :=
    le_trans (unseen_le maze numRows numCols) hfuel
  obtain ⟨found, maze', full, hfull, hst', -, -, -, hfound⟩ := dfsFull_cut maze.sides goal fuel
    maze [] start [] hst (hl.not_seen start) (fun p hp => absurd hp List.not_mem_nil) hless
  obtain ⟨found₁, maze₁, hrun, -, hstart, -, hfailed, -⟩ :=
    dfs_spec maze.sides goal fuel maze start hst (hl.not_seen start) hless
  have hsame := dfsFull_search goal.coords.1 goal.coords.2 numRows numCols fuel maze []
    start.coords.1 start.coords.2
  rw [hrun, hfull, Option.map_some, Option.some.injEq, withoutFile, Prod.mk.injEq] at hsame
  obtain ⟨rfl, rfl⟩ := hsame
  have hrunFull : solve true start.coords.1 start.coords.2 goal.coords.1 goal.coords.2 numRows
      numCols fuel maze = some (found, full.map Place.coords) := by
    simp [solve, hfull]
  cases found with
  | false =>
    refine ⟨false, full, [], ⟨⟨fun h => absurd h (by decide), fun hreach => ?_⟩, fun _ => rfl,
      fun h => absurd h (by decide), fun h => absurd h (by decide), List.nodup_nil,
      List.IsChain.nil, fun h => absurd h (by decide)⟩, hrunFull, by simp [solve, hrun]⟩
    exact absurd hreach ((hfailed rfl).not_reaches hl.not_seen hstart)
  | true =>
    obtain ⟨path, hcut, hhead⟩ := hfound rfl
    have htrace := hcut.trace
    have hpath := htrace.prunedPath hst' hhead
    have hprint := hpath.printed fuel (le_trans (nodup_length_le htrace.nodup) hfuel)
    refine ⟨true, full, path, ⟨⟨fun _ => hpath.reaches hst'.sides, fun _ => rfl⟩,
      fun h => absurd h (by decide), fun _ => hhead, fun _ => htrace.last, htrace.nodup,
      htrace.moves, fun _ => ?_⟩, hrunFull, ?_⟩
    · rw [Backtrack.pruned, hcut.cut, List.append_nil, List.reverse_reverse]
    · simp [solve, hrun, getIndex_place hfit start, hprint]

end CourseProjects.Maze

import CourseProjects.Lib.Backtrack
import CourseProjects.Maze.Solver

/-!
# The full path

The solver as it is built with `FULL`: it writes a line when it enters a room and one
each time it comes back to it. The lines of all levels of the recursion together are
one walk with backtracking.
-/

namespace CourseProjects.Maze

open Backtrack CInt

/-- The loop of `dfs`; `file` is what the path file contains. -/
def dfsSidesFull
    (search : Rooms → List (Int × Int) → Int → Int → Option (Bool × Rooms × List (Int × Int)))
    (row col numRows numCols : Int) :
    List Direction → Rooms → List (Int × Int) → Option (Bool × Rooms × List (Int × Int))
  | [], maze, file => some (false, maze, file)
  | d :: dirs, maze, file => do
    if directionIndex row col d numRows numCols = true then
      let i ← getIndex row col numCols
      let room ← maze.get i
      let j ← getNeighbor numRows numCols room d
      let maze := maze.set i { room with next := some j }
      let neighbor ← maze.get j
      if room.connections d = 0 ∧ neighbor.visited = false then
        let (found, maze, file) ← search maze file neighbor.r neighbor.c
        if found = true then return (true, maze, file)
        else dfsSidesFull search row col numRows numCols dirs maze (file ++ [(row, col)])
      else dfsSidesFull search row col numRows numCols dirs maze file
    else dfsSidesFull search row col numRows numCols dirs maze file

def dfsFull (goalRow goalCol numRows numCols : Int) :
    Nat → Rooms → List (Int × Int) → Int → Int → Option (Bool × Rooms × List (Int × Int))
  | 0, _, _, _, _ => none
  | fuel + 1, maze, file, row, col => do
    let file := file ++ [(row, col)]
    let i ← getIndex row col numCols
    let room ← maze.get i
    if row = goalRow ∧ col = goalCol then
      return (true, maze.set i { room with next := some i, visited := true }, file)
    else
      dfsSidesFull (dfsFull goalRow goalCol numRows numCols fuel) row col numRows numCols directions
        (maze.set i { room with visited := true }) file

variable {numRows numCols n : Nat} {maze maze' maze'' : Rooms} {d : Direction}
  {u v p q start goal : Place numRows numCols} {walls : Place numRows numCols → Direction → Int}
  {past past' past'' : List (Place numRows numCols)} {found : Bool}

/-! ## The lines do not matter to the search -/

/-- A result without the path file. -/
def withoutFile (r : Bool × Rooms × List (Int × Int)) : Bool × Rooms :=
  (r.1, r.2.1)

theorem dfsSidesFull_search
    {searchFull : Rooms → List (Int × Int) → Int → Int → Option (Bool × Rooms × List (Int × Int))}
    {search : Rooms → Int → Int → Option (Bool × Rooms)}
    (hs : ∀ maze file r c, (searchFull maze file r c).map withoutFile = search maze r c)
    (row col numRows numCols : Int) (dirs : List Direction) (maze : Rooms)
    (file : List (Int × Int)) :
    (dfsSidesFull searchFull row col numRows numCols dirs maze file).map withoutFile =
      dfsSides search row col numRows numCols dirs maze := by
  induction dirs generalizing maze file with
  | nil => rfl
  | cons d dirs ih =>
    unfold dfsSidesFull dfsSides
    by_cases hdir : directionIndex row col d numRows numCols = true
    · rw [if_pos hdir, if_pos hdir]
      simp only [Option.bind_eq_bind, Option.map_bind]
      refine Option.bind_congr fun i _ => ?_
      refine (Option.map_bind ..).trans (Option.bind_congr fun room _ => ?_)
      refine (Option.map_bind ..).trans (Option.bind_congr fun j _ => ?_)
      refine (Option.map_bind ..).trans (Option.bind_congr fun neighbor _ => ?_)
      by_cases hopen : room.connections d = 0 ∧ neighbor.visited = false
      · simp only [Function.comp_apply, if_pos hopen]
        rw [← hs _ file]
        cases searchFull _ file neighbor.r neighbor.c with
        | none => rfl
        | some r =>
          obtain ⟨found, maze', file'⟩ := r
          cases found with
          | true => rfl
          | false => exact ih maze' (file' ++ [(row, col)])
      · simp only [Function.comp_apply, if_neg hopen]
        exact ih _ file
    · rw [if_neg hdir, if_neg hdir]
      exact ih maze file

/-- Built with `FULL` or without, the search is the same. -/
theorem dfsFull_search (goalRow goalCol numRows numCols : Int) (fuel : Nat) (maze : Rooms)
    (file : List (Int × Int)) (row col : Int) :
    (dfsFull goalRow goalCol numRows numCols fuel maze file row col).map withoutFile =
      dfs goalRow goalCol numRows numCols fuel maze row col := by
  induction fuel generalizing maze file row col with
  | zero => rfl
  | succ fuel ih =>
    unfold dfsFull dfs
    simp only [Option.bind_eq_bind, Option.map_bind]
    refine Option.bind_congr fun i _ => ?_
    refine (Option.map_bind ..).trans (Option.bind_congr fun room _ => ?_)
    by_cases hgoal : row = goalRow ∧ col = goalCol
    · simp only [Function.comp_apply, if_pos hgoal]
      rfl
    · simp only [Function.comp_apply, if_neg hgoal]
      exact dfsSidesFull_search ih row col numRows numCols directions _ _

/-! ## The walk -/

/-- What a part of the search that ends at `u` unless it finds the goal has written after
the rooms `past`. -/
structure Written (walls : Place numRows numCols → Direction → Int)
    (start goal u : Place numRows numCols) (past : List (Place numRows numCols)) (found : Bool)
    (maze' : Rooms) (past' : List (Place numRows numCols)) : Prop where
  static : Static walls maze'
  walk : Walk (Move walls) start past'
  printed : ∀ p : Place numRows numCols, maze'.Seen p ↔ p ∈ past'
  after : past <+: past'
  last : past'.getLast? = some (if found = true then goal else u)
  failed : found = false → u ≠ goal

/-- What a call of `dfs` on a new room writes. -/
def SearchesFull
    (search : Rooms → List (Int × Int) → Int → Int → Option (Bool × Rooms × List (Int × Int)))
    (walls : Place numRows numCols → Direction → Int) (start goal : Place numRows numCols)
    (n : Nat) : Prop :=
  ∀ (maze : Rooms) (past : List (Place numRows numCols)) (v : Place numRows numCols),
    Static walls maze → (∀ p : Place numRows numCols, maze.Seen p ↔ p ∈ past) → v ∉ past →
    Walk (Move walls) start (past ++ [v]) → maze.unseen numRows numCols ≤ n →
    ∃ found maze' past', search maze (past.map Place.coords) v.coords.1 v.coords.2 =
        some (found, maze', past'.map Place.coords) ∧
      Written walls start goal v (past ++ [v]) found maze' past'

theorem Written.trans (h : Written walls start goal u past' found maze' past'')
    (hp : past <+: past') : Written walls start goal u past found maze' past'' :=
  ⟨h.static, h.walk, h.printed, hp.trans h.after, h.last, h.failed⟩

/-- The search of the room `q` has failed, and the line of `u` follows. -/
theorem Written.back (h : Written walls start goal q (past ++ [q]) false maze' past')
    (hu : past.getLast? = some u) (hq : q ∉ past) :
    Walk (Move walls) start (past' ++ [u]) ∧ past <+: past' ++ [u] ∧
      ∀ p : Place numRows numCols, maze'.Seen p ↔ p ∈ past' ++ [u] := by
  have hentered : Entered past' u q := (entered_last hu hq).mono h.after
  refine ⟨h.walk.back h.last hentered, ?_, ?_⟩
  · exact ((List.prefix_append past [q]).trans h.after).trans (List.prefix_append past' [u])
  · intro p
    rw [h.printed p, List.mem_append, List.mem_singleton]
    constructor
    · exact Or.inl
    · rintro (hp | rfl)
      · exact hp
      · exact hentered.mem

variable
  {search : Rooms → List (Int × Int) → Int → Int → Option (Bool × Rooms × List (Int × Int))}

/-- One round of the loop, the neighbor being in range. -/
theorem dfsSidesFull_cons (hst : Static walls maze) (hq : q.coords = step d u.coords)
    (dirs : List Direction) (file : List (Int × Int)) :
    dfsSidesFull search u.coords.1 u.coords.2 numRows numCols (d :: dirs) maze file =
      if walls u d = 0 ∧ ((maze.pointed u q).room q.index).visited = false then do
        let (found, maze', file') ← search (maze.pointed u q) file q.coords.1 q.coords.2
        if found = true then return (true, maze', file')
        else
          let file' := file' ++ [u.coords]
          dfsSidesFull search u.coords.1 u.coords.2 numRows numCols dirs maze' file'
      else dfsSidesFull search u.coords.1 u.coords.2 numRows numCols dirs (maze.pointed u q)
        file := by
  obtain ⟨hdir, hindex, hget, hneighbor, hget1, hcoords, hwall⟩ := hst.reads hq
  rw [← hcoords]
  simp only [dfsSidesFull, hdir, ↓reduceIte, hindex, hget, Option.bind_eq_bind, Option.bind_some,
    hneighbor, hget1, hwall]
  rfl

theorem dfsSidesFull_out (hout : ∀ q : Place numRows numCols, q.coords ≠ step d u.coords)
    (dirs : List Direction) (file : List (Int × Int)) :
    dfsSidesFull search u.coords.1 u.coords.2 numRows numCols (d :: dirs) maze file =
      dfsSidesFull search u.coords.1 u.coords.2 numRows numCols dirs maze file := by
  have hdir : ¬ directionIndex u.coords.1 u.coords.2 d numRows numCols = true := fun h => by
    obtain ⟨q, hq⟩ := directionIndex_iff.mp h
    exact hout q hq
  rw [dfsSidesFull, if_neg hdir]

/-- The loop at `u`, the last line so far being that of `u`. -/
theorem dfsSidesFull_spec (hs : SearchesFull search walls start goal n) (hgoal : u ≠ goal)
    (dirs : List Direction) (hst : Static walls maze)
    (hseen : ∀ p : Place numRows numCols, maze.Seen p ↔ p ∈ past)
    (hwalk : Walk (Move walls) start past) (hlast : past.getLast? = some u)
    (hn : maze.unseen numRows numCols ≤ n) :
    ∃ found maze' past', dfsSidesFull search u.coords.1 u.coords.2 numRows numCols dirs maze
        (past.map Place.coords) = some (found, maze', past'.map Place.coords) ∧
      Written walls start goal u past found maze' past' := by
  induction dirs generalizing maze past with
  | nil =>
    exact ⟨false, maze, past, rfl, hst, hwalk, hseen, List.prefix_rfl, hlast, fun _ => hgoal⟩
  | cons d dirs ih =>
    by_cases hin : ∃ q : Place numRows numCols, q.coords = step d u.coords
    · obtain ⟨q, hq⟩ := hin
      have hst1 : Static walls (maze.pointed u q) := hst.set u rfl rfl
      have hseen1 : ∀ p : Place numRows numCols, (maze.pointed u q).Seen p ↔ p ∈ past :=
        fun p => Iff.trans (seen_set maze u p rfl) (hseen p)
      have hn1 : (maze.pointed u q).unseen numRows numCols ≤ n :=
        le_trans (unseen_mono fun p hp => (hseen1 p).mpr ((hseen p).mp hp)) hn
      rw [dfsSidesFull_cons hst hq]
      by_cases hopen : walls u d = 0 ∧ ((maze.pointed u q).room q.index).visited = false
      · have hnew : q ∉ past := by
          rw [← hseen1 q]
          simp [Rooms.Seen, hopen.2]
        have henter : Walk (Move walls) start (past ++ [q]) :=
          hwalk.enter hlast ⟨d, hq, hopen.1⟩ hnew
        obtain ⟨found, maze2, past2, hrun, hwritten⟩ :=
          hs (maze.pointed u q) past q hst1 hseen1 hnew henter hn1
        rw [if_pos hopen, hrun]
        cases found with
        | true =>
          have hafter : past <+: past2 := (List.prefix_append past [q]).trans hwritten.after
          exact ⟨true, maze2, past2, rfl, hwritten.static, hwritten.walk, hwritten.printed, hafter,
            hwritten.last, fun h => absurd h (by decide)⟩
        | false =>
          obtain ⟨hwalk2, hafter, hseen2⟩ := hwritten.back hlast hnew
          have hn2 : maze2.unseen numRows numCols ≤ n :=
            le_trans (unseen_mono fun p hp => (hseen2 p).mpr (hafter.subset ((hseen p).mp hp))) hn
          obtain ⟨found, maze', past', hrest, hwritten'⟩ :=
            ih hwritten.static hseen2 hwalk2 List.getLast?_concat hn2
          rw [List.map_append] at hrest
          exact ⟨found, maze', past', hrest, hwritten'.trans hafter⟩
      · rw [if_neg hopen]
        exact ih hst1 hseen1 hwalk hlast hn1
    · rw [dfsSidesFull_out fun q hq => hin ⟨q, hq⟩]
      exact ih hst hseen hwalk hlast hn

theorem dfsFull_goal (hst : Static walls maze) (fuel : Nat) (file : List (Int × Int)) :
    dfsFull goal.coords.1 goal.coords.2 numRows numCols (fuel + 1) maze file goal.coords.1
        goal.coords.2 =
      some (true, maze.set goal.index
        { maze.room goal.index with next := some goal.index, visited := true },
        file ++ [goal.coords]) := by
  rw [dfsFull, getIndex_place hst.fits goal, Option.bind_eq_bind, Option.bind_some,
    get_place hst.len goal]
  simp only [Option.bind_eq_bind, Option.bind_some, and_self, ↓reduceIte]
  rfl

theorem dfsFull_of_ne (hst : Static walls maze) (hgoal : v ≠ goal) (fuel : Nat)
    (file : List (Int × Int)) :
    dfsFull goal.coords.1 goal.coords.2 numRows numCols (fuel + 1) maze file v.coords.1 v.coords.2 =
      dfsSidesFull (dfsFull goal.coords.1 goal.coords.2 numRows numCols fuel) v.coords.1 v.coords.2
        numRows numCols directions
        (maze.set v.index { maze.room v.index with visited := true }) (file ++ [v.coords]) := by
  rw [dfsFull, getIndex_place hst.fits v, Option.bind_eq_bind, Option.bind_some,
    get_place hst.len v]
  simp only [Option.bind_eq_bind, Option.bind_some, coords_ne hgoal, ↓reduceIte]

theorem dfsFull_spec (walls : Place numRows numCols → Direction → Int)
    (start goal : Place numRows numCols) (fuel : Nat) :
    SearchesFull (dfsFull goal.coords.1 goal.coords.2 numRows numCols fuel) walls start goal
      fuel := by
  induction fuel with
  | zero =>
    intro maze past v _ hseen hv _ hn
    have hpos := unseen_pos fun h => hv ((hseen v).mp h)
    omega
  | succ fuel ih =>
    intro maze past v hst hseen hv hwalk hn
    have hmark : ∀ {room : Room}, room.visited = true → ∀ p : Place numRows numCols,
        (maze.set v.index room).Seen p ↔ p ∈ past ++ [v] := fun hroom p => by
      rw [seen_mark maze v hroom, List.mem_append, List.mem_singleton, ← hseen p]
    have hline : past.map Place.coords ++ [v.coords] = (past ++ [v]).map Place.coords := by
      rw [List.map_append]
      rfl
    by_cases hgoal : v = goal
    · subst hgoal
      let maze1 := maze.set v.index
        { maze.room v.index with next := some v.index, visited := true }
      have hrun : dfsFull v.coords.1 v.coords.2 numRows numCols (fuel + 1) maze
          (past.map Place.coords) v.coords.1 v.coords.2 =
          some (true, maze1, (past ++ [v]).map Place.coords) := by
        rw [dfsFull_goal hst, hline]
      refine ⟨true, maze1, past ++ [v], hrun, hst.set v rfl rfl, hwalk, hmark rfl, List.prefix_rfl,
        List.getLast?_concat, ?_⟩
      intro h
      cases h
    · let maze1 := maze.set v.index { maze.room v.index with visited := true }
      have hseen1 : ∀ p : Place numRows numCols, maze1.Seen p ↔ p ∈ past ++ [v] := hmark rfl
      have hless : maze1.unseen numRows numCols < maze.unseen numRows numCols := by
        refine unseen_lt (v := v) ?_ ?_ ?_
        · intro p hp
          exact (hseen1 p).mpr (List.mem_append_left [v] ((hseen p).mp hp))
        · exact fun h => hv ((hseen v).mp h)
        · exact (hseen1 v).mpr (List.mem_append_right past (List.mem_singleton_self v))
      obtain ⟨found, maze', past', hrun, hwritten⟩ := dfsSidesFull_spec ih hgoal directions
        (show Static walls maze1 from hst.set v rfl rfl) hseen1 hwalk List.getLast?_concat
        (by omega)
      refine ⟨found, maze', past', ?_, hwritten⟩
      rw [dfsFull_of_ne hst hgoal, hline]
      exact hrun

/-- The rooms that are written make a walk with backtracking. -/
structure FullPath (maze maze' : Rooms) (start goal : Place numRows numCols) (found : Bool)
    (rooms : List (Place numRows numCols)) : Prop where
  head : rooms.head? = some start
  neighbors : rooms.IsChain fun p q => ∃ d, q.coords = step d p.coords
  steps : ∀ u p q v, rooms = u ++ p :: q :: v →
    (Move maze.sides p q ∧ q ∉ u ++ [p]) ∨ Entered (u ++ [p]) q p
  visited : ∀ p : Place numRows numCols, maze'.Seen p → p ∈ rooms
  last : rooms.getLast? = some goal ↔ found = true

theorem Written.fullPath (h : Written maze.sides start goal start [start] found maze' past) :
    FullPath maze maze' start goal found past := by
  refine ⟨h.walk.head?, ?_, ?_, fun p hp => (h.printed p).mp hp, ?_⟩
  · apply h.walk.isChain
    rintro p q ⟨d, hq, -⟩
    exact ⟨⟨d, hq⟩, getOppositeDir d, by rw [hq, step_opposite]⟩
  · intro u p q v heq
    exact h.walk.forward_or_back heq
  · rw [h.last]
    cases found with
    | true => simp
    | false => simpa using h.failed rfl

/-- **The lines of a `FULL` search are one walk with backtracking** from the start, through
every room that is marked, to the goal when the search succeeds and to the start when it fails,
if the number of rooms is an `int`. -/
theorem dfsFull_walk (numRows numCols : Nat) (hfit : (numRows : Int) * numCols ≤ intMax)
    (maze : Rooms) (hl : Loaded maze numRows numCols) (start goal : Place numRows numCols)
    (fuel : Nat) (hfuel : numRows * numCols ≤ fuel) :
    ∃ found maze' rooms, dfsFull goal.coords.1 goal.coords.2 numRows numCols fuel maze []
        start.coords.1 start.coords.2 = some (found, maze', rooms.map Place.coords) ∧
      FullPath maze maze' start goal found rooms := by
  have hseen : ∀ p : Place numRows numCols, maze.Seen p ↔ p ∈ [] := fun p =>
    iff_of_false (hl.not_seen p) List.not_mem_nil
  have hless : maze.unseen numRows numCols ≤ fuel :=
    le_trans (unseen_le maze numRows numCols) hfuel
  obtain ⟨found, maze', rooms, hrun, hwritten⟩ := dfsFull_spec maze.sides start goal fuel maze []
    start (hl.static hfit) hseen List.not_mem_nil Walk.start hless
  exact ⟨found, maze', rooms, hrun, hwritten.fullPath⟩

theorem dfsFull_one_way :
    ∃ found maze' rooms, dfsFull 0 0 1 2 2 oneWay [] 0 1 =
        some (found, maze', (rooms : List (Place 1 2)).map Place.coords) ∧
      FullPath oneWay maze' ((0, 1) : Place 1 2) ((0, 0) : Place 1 2) found rooms :=
  dfsFull_walk 1 2 (by decide) oneWay ⟨rfl, by decide,
    fun p d => by cases d <;> revert p <;> decide, by decide, by decide⟩ (0, 1) (0, 0) 2 (by decide)

/-- No line of the last room is followed by an answer. -/
theorem dfsFull_overflows : Loaded (walled 46341 46341) 46341 46341 ∧
    ¬ ∃ fuel found maze' rooms, dfsFull 46340 46340 46341 46341 fuel (walled 46341 46341) []
      46340 46340 = some (found, maze', rooms) := by
  refine ⟨walled_loaded 46341 46341, ?_⟩
  rintro ⟨fuel, found, maze', rooms, hrun⟩
  have hindex : getIndex 46340 46340 46341 = none := by decide
  cases fuel with
  | zero => cases hrun
  | succ fuel =>
    rw [dfsFull, hindex] at hrun
    cases hrun

end CourseProjects.Maze

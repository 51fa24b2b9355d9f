import CourseProjects.Maze.Programs

/-!
# From the generator to the solver

A maze file that the generator wrote is solved by both builds of the solver, whatever
`rand` returned: the one prints the only path between the two rooms, and the other a walk
that is this path once its dead ends are cut off.
-/

namespace CourseProjects.Maze

open Carving CInt

variable {numRows numCols : Nat} {start goal p q : Place numRows numCols} {maze maze' : Rooms}
  {mazeFile pathFile outFile text : List Char} {argv : List (List Char)} {disk : Disk}

/-- A command line of the generator. -/
def GeneratorLine (argv : List (List Char)) (outFile : List Char) (numRows numCols : Nat) : Prop :=
  ∃ prog rows cols, argv = [prog, outFile, rows, cols] ∧ atoi rows = numRows ∧ atoi cols = numCols

/-- A command line of the solver, with two rooms of the grid. -/
def SolverLine (argv : List (List Char)) (mazeFile pathFile : List Char)
    (start goal : Place numRows numCols) : Prop :=
  ∃ prog rows cols startRow startCol goalRow goalCol,
    argv = [prog, mazeFile, rows, cols, pathFile, startRow, startCol, goalRow, goalCol] ∧
    atoi rows = numRows ∧ atoi cols = numCols ∧
    (atoi startRow, atoi startCol) = start.coords ∧ (atoi goalRow, atoi goalCol) = goal.coords

/-! ## One run of the solver -/

theorem coords_bounds (p : Place numRows numCols) :
    ¬ ((numRows : Int) ≤ p.coords.1 ∨ p.coords.1 < 0 ∨ (numCols : Int) ≤ p.coords.2 ∨
      p.coords.2 < 0) := by
  have hr := p.1.isLt
  have hc := p.2.isLt
  simp only [Place.coords]
  omega

/-- The checks of `main` are passed. -/
theorem solverMain_run (hfit : (numRows : Int) * numCols ≤ intMax) (full : Bool)
    (stack : Int → Room) (hex fuel : Nat) (hline : SolverLine argv mazeFile pathFile start goal)
    (hread : disk.read mazeFile = some text) (hwrite : disk.writable pathFile = true) :
    solverMain full disk stack hex fuel argv = do
      let maze ← loadMaze numRows numCols stack hex (if pathFile = mazeFile then [] else text)
      let (found, rooms) ← solve full start.coords.1 start.coords.2 goal.coords.1 goal.coords.2
        numRows numCols fuel maze
      return finish full found (disk.closes mazeFile) (disk.closes pathFile) rooms := by
  obtain ⟨prog, rows, cols, startRow, startCol, goalRow, goalCol, rfl, hrows, hcols, hstart, hgoal⟩ :=
    hline
  have hpos : ¬ ((numCols : Int) ≤ 0 ∨ (numRows : Int) ≤ 0) := by
    have hr := start.1.isLt
    have hc := start.2.isLt
    omega
  have hstartRow : atoi startRow = start.coords.1 := congrArg Prod.fst hstart
  have hstartCol : atoi startCol = start.coords.2 := congrArg Prod.snd hstart
  have hgoalRow : atoi goalRow = goal.coords.1 := congrArg Prod.fst hgoal
  have hgoalCol : atoi goalCol = goal.coords.2 := congrArg Prod.snd hgoal
  rw [solverMain, hrows, hcols, hstartRow, hstartCol, hgoalRow, hgoalCol]
  simp only [if_neg hpos, if_neg (coords_bounds start), if_neg (coords_bounds goal),
    checked_size hfit, hread, hwrite, Int.toNat_natCast, Option.bind_eq_bind, Option.bind_some]

/-- The run gets as far as the search, and the maze file is closed after it. -/
def Searched (disk : Disk) (argv : List (List Char)) : Prop :=
  ∃ (numRows numCols : Nat) (start goal : Place numRows numCols) (mazeFile pathFile : List Char),
    SolverLine argv mazeFile pathFile start goal ∧ (disk.read mazeFile).isSome = true ∧
    disk.writable pathFile = true ∧ disk.closes mazeFile = true

theorem exists_coords {numRows numCols row col : Int} (hpos : ¬ (numCols ≤ 0 ∨ numRows ≤ 0))
    (h : ¬ (numRows ≤ row ∨ row < 0 ∨ numCols ≤ col ∨ col < 0)) :
    ∃ p : Place numRows.toNat numCols.toNat, (row, col) = p.coords := by
  have hrange : isInRange row col numRows.toNat numCols.toNat = true := by
    simp only [isInRange, ge_iff_le, Bool.and_eq_true, decide_eq_true_eq]
    omega
  obtain ⟨p, hp⟩ := isInRange_iff.mp hrange
  exact ⟨p, hp.symm⟩

/-- The words of a command line that gets as far as the search. -/
theorem Searched.words {prog rows cols startRow startCol goalRow goalCol : List Char}
    (h : Searched disk
      [prog, mazeFile, rows, cols, pathFile, startRow, startCol, goalRow, goalCol]) :
    ¬ (atoi cols ≤ 0 ∨ atoi rows ≤ 0) ∧
    ¬ (atoi rows ≤ atoi startRow ∨ atoi startRow < 0 ∨ atoi cols ≤ atoi startCol ∨
      atoi startCol < 0) ∧
    ¬ (atoi rows ≤ atoi goalRow ∨ atoi goalRow < 0 ∨ atoi cols ≤ atoi goalCol ∨
      atoi goalCol < 0) ∧
    (disk.read mazeFile).isSome = true ∧ disk.writable pathFile = true ∧
    disk.closes mazeFile = true := by
  obtain ⟨numRows, numCols, start, goal, mazeFile', pathFile', hline, hread, hwrite, hclose⟩ := h
  obtain ⟨prog', rows', cols', sr, sc, gr, gc, hargv, hrows, hcols, hstart, hgoal⟩ := hline
  simp only [List.cons.injEq, and_true] at hargv
  obtain ⟨-, rfl, rfl, rfl, rfl, rfl, rfl, rfl, rfl⟩ := hargv
  have hs := coords_bounds start
  have hg := coords_bounds goal
  rw [← hstart, ← hrows, ← hcols] at hs
  rw [← hgoal, ← hrows, ← hcols] at hg
  refine ⟨?_, hs, hg, hread, hwrite, hclose⟩
  intro hpos
  omega

/-- Status 0 stands for a search, status 1 comes with a message. -/
structure Answers (disk : Disk) (argv : List (List Char)) (r : Ended) : Prop where
  searched : r.status = 0 ↔ Searched disk argv
  message : r.status ≠ 0 → r.status = 1 ∧ (r.out ≠ "" ∨ r.err ≠ "")

theorem Answers.refused {r : Ended} (hs : r.status = 1) (hm : r.out ≠ "" ∨ r.err ≠ "")
    (h : ¬ Searched disk argv) : Answers disk argv r := by
  refine ⟨⟨fun h0 => ?_, fun h1 => absurd h1 h⟩, fun _ => ⟨hs, hm⟩⟩
  rw [hs] at h0
  cases h0

theorem finish_answers (full found closedPath : Bool) (rooms : List (Int × Int))
    (h : disk.closes mazeFile = true ↔ Searched disk argv) :
    Answers disk argv (finish full found (disk.closes mazeFile) closedPath rooms) := by
  cases hclose : disk.closes mazeFile with
  | false =>
    refine Answers.refused rfl (Or.inr ?_) fun hs => absurd (h.mpr hs) (by simp [hclose])
    cases found <;> exact of_decide_eq_true rfl
  | true => exact ⟨⟨fun _ => h.mp hclose, fun _ => rfl⟩, fun h0 => absurd rfl h0⟩

theorem solve_ends (hfit : (numRows : Int) * numCols ≤ intMax) (full : Bool)
    (hl : Loaded maze numRows numCols) (start goal : Place numRows numCols) {fuel : Nat} (hfuel : numRows * numCols ≤ fuel) :
    ∃ found rooms, solve full start.coords.1 start.coords.2 goal.coords.1 goal.coords.2 numRows
      numCols fuel maze = some (found, rooms) := by
  obtain ⟨found, lines, path, -, hfull, hpruned⟩ := solve_spec hfit hl start goal hfuel
  cases full with
  | true => exact ⟨_, _, hfull⟩
  | false => exact ⟨_, _, hpruned⟩

/-- **Every run of the solver ends**, on any command line and any disk, without an access
outside the maze, if the number of rooms is an `int`: with status 0 exactly when it gets as
far as the search and can close the maze file, and else with status 1 and a message. -/
theorem solverMain_ends (full : Bool) (disk : Disk) (stack : Int → Room) (hex fuel : Nat)
    (argv : List (List Char))
    (hfit : ((atoi (argv.getD 2 [])).toNat : Int) * (atoi (argv.getD 3 [])).toNat ≤ intMax)
    (hfuel : (atoi (argv.getD 2 [])).toNat * (atoi (argv.getD 3 [])).toNat ≤ fuel) :
    ∃ r, solverMain full disk stack hex fuel argv = some r ∧ Answers disk argv r := by
  unfold solverMain
  split
  · next prog mazeFile rows cols pathFile startRow startCol goalRow goalCol =>
    change ((atoi rows).toNat : Int) * (atoi cols).toNat ≤ intMax at hfit
    by_cases hpos : atoi cols ≤ 0 ∨ atoi rows ≤ 0
    · rw [if_pos hpos]
      exact ⟨_, rfl, Answers.refused rfl (Or.inr (by decide)) fun h => h.words.1 hpos⟩
    rw [if_neg hpos]
    by_cases hstart : atoi rows ≤ atoi startRow ∨ atoi startRow < 0 ∨ atoi cols ≤ atoi startCol ∨
        atoi startCol < 0
    · rw [if_pos hstart]
      exact ⟨_, rfl, Answers.refused rfl (Or.inr (by decide)) fun h => h.words.2.1 hstart⟩
    rw [if_neg hstart]
    by_cases hgoal : atoi rows ≤ atoi goalRow ∨ atoi goalRow < 0 ∨ atoi cols ≤ atoi goalCol ∨
        atoi goalCol < 0
    · rw [if_pos hgoal]
      exact ⟨_, rfl, Answers.refused rfl (Or.inr (by decide)) fun h => h.words.2.2.1 hgoal⟩
    have hrows : ((atoi rows).toNat : Int) = atoi rows := Int.toNat_of_nonneg (by omega)
    have hcols : ((atoi cols).toNat : Int) = atoi cols := Int.toNat_of_nonneg (by omega)
    have hsize : checked (atoi rows * atoi cols) = some (atoi rows * atoi cols) := by
      rw [← hrows, ← hcols]
      exact checked_size hfit
    rw [if_neg hgoal, hsize, Option.bind_eq_bind, Option.bind_some]
    split
    · next hread =>
      refine ⟨_, rfl, Answers.refused rfl (Or.inr (of_decide_eq_true rfl)) fun h => ?_⟩
      simpa [hread] using h.words.2.2.2.1
    · next hwrite =>
      refine ⟨_, rfl, Answers.refused rfl (Or.inr (by decide)) fun h => ?_⟩
      simpa [hwrite] using h.words.2.2.2.2.1
    · next text hread hwrite =>
      obtain ⟨start, hs⟩ := exists_coords hpos hstart
      obtain ⟨goal, hg⟩ := exists_coords hpos hgoal
      have hline : SolverLine [prog, mazeFile, rows, cols, pathFile, startRow, startCol, goalRow,
          goalCol] mazeFile pathFile start goal :=
        ⟨_, _, _, _, _, _, _, rfl, hrows.symm, hcols.symm, hs, hg⟩
      obtain ⟨maze, hload, hl⟩ := loadMaze_any hfit stack hex
        (if pathFile = mazeFile then [] else text)
      obtain ⟨found, rooms, hsolve⟩ := solve_ends hfit full hl start goal hfuel
      rw [← hs, ← hg, hrows, hcols] at hsolve
      refine ⟨finish full found (disk.closes mazeFile) (disk.closes pathFile) rooms, ?_,
        finish_answers full found _ rooms ⟨fun hclose => ?_, fun h => h.words.2.2.2.2.2⟩⟩
      · simp only [hload, Option.bind_eq_bind, Option.bind_some, hsolve]
        rfl
      · exact ⟨_, _, start, goal, mazeFile, pathFile, hline, by rw [hread]; rfl, hwrite, hclose⟩
  · next hshape =>
    refine ⟨_, rfl, Answers.refused rfl (Or.inl (by decide)) fun h => ?_⟩
    obtain ⟨_, _, _, _, _, _, ⟨prog, rows, cols, sr, sc, gr, gc, rfl, -⟩, -⟩ := h
    exact hshape _ _ _ _ _ _ _ _ _ rfl

theorem solverMain_ends_outside :
    let disk : Disk := ⟨fun _ => none, fun _ => true, fun _ => true⟩
    let argv : List (List Char) := [[], ['m'], ['1'], ['2'], ['p'], ['0'], ['0'], ['0'], ['2']]
    ∃ r, solverMain true disk oneWay.room 9 2 argv = some r ∧ Answers disk argv r :=
  solverMain_ends true _ oneWay.room 9 2 _ (by decide) (by decide)

/-! ## The maze of the generator -/

theorem Perfect.adj_iff (h : Perfect maze numRows numCols) :
    (Carved.openGraph (grid numRows numCols) maze.sides).Adj p q ↔ Move maze.sides p q := by
  rw [Carved.openGraph, SimpleGraph.fromRel_adj]
  constructor
  · rintro ⟨-, ⟨d, hq, h0⟩ | ⟨d, hp, h0⟩⟩
    · exact ⟨d, hq, h0⟩
    · have hback : q.coords = step (getOppositeDir d) p.coords := by
        rw [show p.coords = step d q.coords from hp, step_opposite]
      exact ⟨getOppositeDir d, hback, (h.symmetric q p d hp).symm.trans h0⟩
  · rintro ⟨d, hq, h0⟩
    exact ⟨(grid numRows numCols).loopless p d q hq, Or.inl ⟨d, hq, h0⟩⟩

theorem Perfect.reaches (h : Perfect maze numRows numCols) (p q : Place numRows numCols) :
    Relation.ReflTransGen (Move maze.sides) p q := by
  have hreach := (SimpleGraph.reachable_iff_reflTransGen p q).mp (h.tree.connected p q)
  exact Relation.ReflTransGen.mono (fun _ _ hadj => h.adj_iff.mp hadj) p q hreach

/-! ## Both programs -/

/-- What the generator writes for a perfect maze makes the solver find the path. -/
theorem Perfect.solved (h : Perfect maze numRows numCols)
    (hsides : (maze'.sides : Place numRows numCols → Direction → Int) = maze.sides)
    {found : Bool} {full pruned : List (Place numRows numCols)}
    (hs : Solved maze' start goal found full pruned) :
    found = true ∧ Backtrack.pruned full = pruned ∧
      ∀ w : (Carved.openGraph (grid numRows numCols) maze.sides).Walk start goal, w.IsPath →
        w.support = pruned := by
  have hfound : found = true := hs.reaches.mpr (hsides ▸ h.reaches start goal)
  refine ⟨hfound, (hs.cut hfound).symm, fun w hw => ?_⟩
  have hadj : pruned.IsChain (Carved.openGraph (grid numRows numCols) maze.sides).Adj :=
    hs.moves.imp fun p q hmove => h.adj_iff.mpr (hsides ▸ hmove)
  exact support_eq h.tree.isAcyclic (hs.head hfound) (hs.last hfound) hs.nodup hadj hw

/-- **Every generated maze is solved.** For every sequence of random numbers the generator
ends with a maze file, of a spanning tree of the grid; and on that file, for any two rooms,
the solver prints the path of the tree between them, and the solver built with `FULL` a
walk that is this path when its dead ends are cut off. -/
theorem generated_mazes_are_solved (rand : Nat → Nat) (disk : Disk) (stack : Int → Room)
    (result : Int → Int) (fuel : Nat) (hr : 1 ≤ numRows) (hc : 1 ≤ numCols)
    (hfit : (numRows : Int) * numCols ≤ intMax) (hfuel : numRows * numCols ≤ fuel)
    (hline : GeneratorLine argv outFile numRows numCols) (hwrite : disk.writable outFile = true)
    (hclose : disk.closes outFile = true) :
    ∃ (text : List Char) (maze : Rooms),
      generatorMain rand disk stack result fuel argv = some ⟨0, "", "", some text⟩ ∧
      (Carved.openGraph (grid numRows numCols) maze.sides).IsTree ∧
      ∀ (disk : Disk) (stack : Int → Room) (hex : Nat) (argv : List (List Char))
        (mazeFile pathFile : List Char) (start goal : Place numRows numCols),
        SolverLine argv mazeFile pathFile start goal → pathFile ≠ mazeFile →
        disk.read mazeFile = some text → disk.writable pathFile = true →
        disk.closes mazeFile = true → disk.closes pathFile = true →
        ∃ full : List (Place numRows numCols),
          solverMain true disk stack hex fuel argv =
            some ⟨0, "", "", some (header true ++ (full.map Place.coords).flatMap printPlace)⟩ ∧
          ∀ w : (Carved.openGraph (grid numRows numCols) maze.sides).Walk start goal, w.IsPath →
            Backtrack.pruned full = w.support ∧
            solverMain false disk stack hex fuel argv = some ⟨0, "", "",
              some (header false ++ (w.support.map Place.coords).flatMap printPlace)⟩ := by
  obtain ⟨prog, rows, cols, rfl, hrows, hcols⟩ := hline
  obtain ⟨init, maze, pos, hinit, hwalk, hlen, hfin⟩ :=
    walk_perfect hfit hr hc rand stack hfuel
  obtain ⟨result', henc, -⟩ := encodeMaze_spec hfit hlen result
  have hpos : ¬ ((numCols : Int) ≤ 0 ∨ (numRows : Int) ≤ 0) := by omega
  refine ⟨mazeText numRows numCols result', maze, ?_, hfin.tree, ?_⟩
  · rw [generatorMain, hrows, hcols]
    simp only [if_neg hpos, hinit, hwalk, Option.bind_eq_bind, Option.bind_some,
      Int.toNat_natCast, henc, hwrite, hclose, printMaze_of_fit hfit, Bool.true_eq_false,
      ↓reduceIte]
    rfl
  · intro disk stack hex argv mazeFile pathFile start goal hline hne hread hwrite hclose hclosep
    obtain ⟨encoded, text, maze', henc', hprint, hload, hsides⟩ :=
      encode_then_load hfit hlen hfin.binary result stack hex
    rw [henc, Option.some.injEq] at henc'
    subst henc'
    rw [printMaze_of_fit hfit, Option.some.injEq] at hprint
    subst hprint
    obtain ⟨maze₁, hload₁, hl⟩ :=
      loadMaze_any hfit stack hex (mazeText numRows numCols result')
    rw [hload] at hload₁
    cases hload₁
    obtain ⟨found, full, pruned, hsolved, hfull, hpruned⟩ := solve_spec hfit hl start goal hfuel
    obtain ⟨rfl, hcut, hpath⟩ := hfin.solved hsides hsolved
    refine ⟨full, ?_, fun w hw => ?_⟩
    · rw [solverMain_run hfit true stack hex fuel hline hread hwrite, if_neg hne, hload,
        Option.bind_eq_bind, Option.bind_some, hfull, hclose, hclosep]
      rfl
    · rw [hpath w hw]
      refine ⟨hcut, ?_⟩
      rw [solverMain_run hfit false stack hex fuel hline hread hwrite, if_neg hne, hload,
        Option.bind_eq_bind, Option.bind_some, hpruned, hclose, hclosep]
      rfl

/-- A disk on which every file has the text `text`. -/
def Disk.holding (text : List Char) : Disk :=
  ⟨fun _ => some text, fun _ => true, fun _ => true⟩

theorem generated_one_by_two :
    ∃ (text : List Char) (maze : Rooms) (full : List (Place 1 2)),
      generatorMain (fun n => n) (.holding []) oneWay.room id 2 [[], ['m'], ['1'], ['2']] =
        some ⟨0, "", "", some text⟩ ∧
      solverMain true (.holding text) oneWay.room 9 2
          [[], ['m'], ['1'], ['2'], ['p'], ['0'], ['0'], ['0'], ['1']] =
        some ⟨0, "", "", some (header true ++ (full.map Place.coords).flatMap printPlace)⟩ ∧
      ∀ w : (Carved.openGraph (grid 1 2) maze.sides).Walk (0, 0) (0, 1), w.IsPath →
        Backtrack.pruned full = w.support ∧
        solverMain false (.holding text) oneWay.room 9 2
            [[], ['m'], ['1'], ['2'], ['p'], ['0'], ['0'], ['0'], ['1']] = some ⟨0, "", "",
          some (header false ++ (w.support.map Place.coords).flatMap printPlace)⟩ := by
  obtain ⟨text, maze, hgen, -, hsolve⟩ := generated_mazes_are_solved (fun n => n) (.holding [])
    oneWay.room id 2 (le_refl 1) (by decide) (by decide) (le_refl 2)
    (show GeneratorLine [[], ['m'], ['1'], ['2']] ['m'] 1 2 from ⟨_, _, _, rfl, by decide, by decide⟩)
    rfl rfl
  obtain ⟨full, hfull, hpruned⟩ := hsolve (.holding text) oneWay.room 9
    [[], ['m'], ['1'], ['2'], ['p'], ['0'], ['0'], ['0'], ['1']] ['m'] ['p'] (0, 0) (0, 1)
    ⟨_, _, _, _, _, _, _, rfl, by decide, by decide, by decide, by decide⟩ (by decide) rfl rfl rfl rfl
  exact ⟨text, maze, full, hgen, hfull, hpruned⟩

end CourseProjects.Maze

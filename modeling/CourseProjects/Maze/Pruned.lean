import CourseProjects.Maze.Full

/-!
# The two builds of the solver

The lines that the `FULL` build writes, with the dead ends cut off, are the lines of
`print_prunned`: the rooms in which the recursion still is when the goal is found are
the ones that the `next` pointers lead through.
-/

namespace CourseProjects.Maze

open Backtrack

variable {numRows numCols n : Nat} {maze maze' maze'' : Rooms} {d : Direction}
  {u v p q goal : Place numRows numCols} {walls : Place numRows numCols → Direction → Int}
  {trail rooms : List (Place numRows numCols)} {found : Bool}

/-- The rooms `rooms` are written while the recursion is in the rooms `trail`, and it is
then back in them, or has gone on from them to the goal along the path `path`. -/
structure Cut (walls : Place numRows numCols → Direction → Int) (goal : Place numRows numCols)
    (maze maze' : Rooms) (trail rooms : List (Place numRows numCols))
    (path : List (Place numRows numCols)) : Prop where
  trace : Trace walls goal maze maze' path
  cut : rooms.foldl prune trail = path.reverse ++ trail

/-- What a call of `dfs` on a new room writes, up to dead ends. -/
def SearchesCut
    (search : Rooms → List (Int × Int) → Int → Int → Option (Bool × Rooms × List (Int × Int)))
    (walls : Place numRows numCols → Direction → Int) (goal : Place numRows numCols) (n : Nat) :
    Prop :=
  ∀ (maze : Rooms) (file : List (Int × Int)) (v : Place numRows numCols)
    (trail : List (Place numRows numCols)), Static walls maze → ¬ maze.Seen v →
    (∀ p ∈ trail, maze.Seen p) → maze.unseen numRows numCols ≤ n →
    ∃ found maze' rooms, search maze file v.coords.1 v.coords.2 =
        some (found, maze', file ++ rooms.map Place.coords) ∧
      Static walls maze' ∧
      (∀ p : Place numRows numCols, maze.Seen p → maze'.Seen p ∧
        maze'.room p.index = maze.room p.index) ∧
      maze'.Seen v ∧
      (found = false → rooms.foldl prune trail = v :: trail) ∧
      (found = true → ∃ path, Cut walls goal maze maze' trail rooms path ∧ path.head? = some v)

/-- What the loop at `u` has written. -/
structure TriedCut (walls : Place numRows numCols → Direction → Int)
    (goal u : Place numRows numCols) (trail : List (Place numRows numCols)) (maze : Rooms)
    (found : Bool) (maze' : Rooms) (rooms : List (Place numRows numCols)) : Prop where
  static : Static walls maze'
  keep : ∀ p : Place numRows numCols, maze.Seen p → maze'.Seen p ∧
    (p ≠ u → maze'.room p.index = maze.room p.index)
  failed : found = false → rooms.foldl prune trail = trail
  succeeded : found = true → ∃ path q, Cut walls goal maze maze' trail rooms path ∧
    path.head? = some q ∧ Move walls u q ∧ (maze'.room u.index).next = some q.index

/-- A part of the loop that found nothing comes first. -/
theorem TriedCut.cons {rooms' : List (Place numRows numCols)}
    (hkeep : ∀ p : Place numRows numCols, maze.Seen p → maze'.Seen p ∧
      (p ≠ u → maze'.room p.index = maze.room p.index))
    (hcut : rooms'.foldl prune trail = trail)
    (h : TriedCut walls goal u trail maze' found maze'' rooms) :
    TriedCut walls goal u trail maze found maze'' (rooms' ++ rooms) := by
  refine ⟨h.static, ?_, ?_, ?_⟩
  · intro p hp
    obtain ⟨hp', hroom⟩ := hkeep p hp
    obtain ⟨hp'', hroom'⟩ := h.keep p hp'
    exact ⟨hp'', fun hpu => (hroom' hpu).trans (hroom hpu)⟩
  · intro hf
    rw [List.foldl_append, hcut, h.failed hf]
  · intro hf
    obtain ⟨path, q, hpath, hq⟩ := h.succeeded hf
    refine ⟨path, q, ⟨hpath.trace.mono fun p hp => (hkeep p hp).1, ?_⟩, hq⟩
    rw [List.foldl_append, hcut, hpath.cut]

variable
  {search : Rooms → List (Int × Int) → Int → Int → Option (Bool × Rooms × List (Int × Int))}

theorem dfsSidesFull_cut (hs : SearchesCut search walls goal n) (dirs : List Direction)
    (hst : Static walls maze) (hu : maze.Seen u) (htrail : ∀ p ∈ trail, maze.Seen p)
    (hn : maze.unseen numRows numCols ≤ n) (file : List (Int × Int)) :
    ∃ found maze' rooms, dfsSidesFull search u.coords.1 u.coords.2 numRows numCols dirs maze file =
        some (found, maze', file ++ rooms.map Place.coords) ∧
      TriedCut walls goal u (u :: trail) maze found maze' rooms := by
  induction dirs generalizing maze file with
  | nil =>
    refine ⟨false, maze, [], by simp [dfsSidesFull], hst, fun p hp => ⟨hp, fun _ => rfl⟩,
      fun _ => rfl, fun h => ?_⟩
    cases h
  | cons d dirs ih =>
    by_cases hin : ∃ q : Place numRows numCols, q.coords = step d u.coords
    · obtain ⟨q, hq⟩ := hin
      have hst1 : Static walls (maze.pointed u q) := hst.set u rfl rfl
      have hseen1 : ∀ p : Place numRows numCols, (maze.pointed u q).Seen p ↔ maze.Seen p :=
        fun p => seen_set maze u p rfl
      have hkeep1 : ∀ p : Place numRows numCols, maze.Seen p → (maze.pointed u q).Seen p ∧
          (p ≠ u → (maze.pointed u q).room p.index = maze.room p.index) := fun p hp =>
        ⟨(hseen1 p).mpr hp, fun hpu => room_set_of_ne _ _ hpu⟩
      have hn1 : (maze.pointed u q).unseen numRows numCols ≤ n :=
        le_trans (unseen_mono fun p hp => (hseen1 p).mpr hp) hn
      rw [dfsSidesFull_cons hst hq]
      by_cases hopen : walls u d = 0 ∧ ((maze.pointed u q).room q.index).visited = false
      · have hnew : ¬ (maze.pointed u q).Seen q := by simp [Rooms.Seen, hopen.2]
        have htrail1 : ∀ p ∈ u :: trail, (maze.pointed u q).Seen p :=
          List.forall_mem_cons.mpr ⟨(hseen1 u).mpr hu, fun p hp => (hseen1 p).mpr (htrail p hp)⟩
        obtain ⟨found, maze2, rooms2, hrun, hst2, hkeep2, hq2, hfailed, hfound⟩ :=
          hs (maze.pointed u q) file q (u :: trail) hst1 hnew htrail1 hn1
        have hkeep : ∀ p : Place numRows numCols, maze.Seen p → maze2.Seen p ∧
            (p ≠ u → maze2.room p.index = maze.room p.index) := fun p hp => by
          obtain ⟨hp2, hroom⟩ := hkeep2 p ((hseen1 p).mpr hp)
          exact ⟨hp2, fun hpu => hroom.trans ((hkeep1 p hp).2 hpu)⟩
        rw [if_pos hopen, hrun]
        cases found with
        | true =>
          refine ⟨true, maze2, rooms2, rfl, hst2, hkeep, fun h => absurd h (by decide), fun _ => ?_⟩
          obtain ⟨path, hpath, hhead⟩ := hfound rfl
          have htrace := hpath.trace.mono fun p hp => (hseen1 p).mpr hp
          refine ⟨path, q, ⟨htrace, hpath.cut⟩, hhead, ⟨d, hq, hopen.1⟩, ?_⟩
          rw [(hkeep2 u ((hseen1 u).mpr hu)).2, Rooms.pointed, Rooms.set_room_self]
        | false =>
          have hback : (rooms2 ++ [u]).foldl prune (u :: trail) = u :: trail := by
            rw [List.foldl_append, hfailed rfl]
            exact prune_back q u trail
          obtain ⟨found, maze', rooms, hrest, htried⟩ := ih hst2 (hkeep u hu).1
            (fun p hp => (hkeep p (htrail p hp)).1)
            (le_trans (unseen_mono fun p hp => (hkeep p hp).1) hn)
            (file ++ rooms2.map Place.coords ++ [u.coords])
          refine ⟨found, maze', rooms2 ++ [u] ++ rooms, ?_, htried.cons hkeep hback⟩
          simpa using hrest
      · rw [if_neg hopen]
        obtain ⟨found, maze', rooms, hrest, htried⟩ := ih hst1 ((hseen1 u).mpr hu)
          (fun p hp => (hseen1 p).mpr (htrail p hp)) hn1 file
        have hskip : TriedCut walls goal u (u :: trail) maze found maze' ([] ++ rooms) :=
          htried.cons hkeep1 rfl
        exact ⟨found, maze', rooms, hrest, hskip⟩
    · rw [dfsSidesFull_out fun q hq => hin ⟨q, hq⟩]
      exact ih hst hu htrail hn file

theorem dfsFull_cut (walls : Place numRows numCols → Direction → Int)
    (goal : Place numRows numCols) (fuel : Nat) :
    SearchesCut (dfsFull goal.coords.1 goal.coords.2 numRows numCols fuel) walls goal fuel := by
  induction fuel with
  | zero =>
    intro maze file v trail _ hv _ hn
    have hpos := unseen_pos hv
    omega
  | succ fuel ih =>
    intro maze file v trail hst hv htrail hn
    have hmark : ∀ {room : Room}, room.visited = true → ∀ p : Place numRows numCols,
        (maze.set v.index room).Seen p ↔ maze.Seen p ∨ p = v := fun hroom p =>
      Iff.of_eq (congrFun (seen_mark maze v hroom) p)
    have hne : ∀ (room : Room) (p : Place numRows numCols), maze.Seen p →
        (maze.set v.index room).room p.index = maze.room p.index := by
      intro room p hp
      refine room_set_of_ne maze room ?_
      rintro rfl
      exact hv hp
    have hpush : prune trail v = v :: trail := prune_new fun h => hv (htrail v h)
    by_cases hgoal : v = goal
    · subst hgoal
      let maze1 := maze.set v.index
        { maze.room v.index with next := some v.index, visited := true }
      have hv1 : maze1.Seen v := (hmark rfl v).mpr (Or.inr rfl)
      refine ⟨true, maze1, [v], dfsFull_goal hst fuel file, hst.set v rfl rfl, ?_, hv1, ?_, ?_⟩
      · intro p hp
        exact ⟨(hmark rfl p).mpr (Or.inl hp), hne _ p hp⟩
      · intro h
        cases h
      · intro _
        exact ⟨[v], ⟨Trace.single hv hv1, hpush⟩, rfl⟩
    · let maze1 := maze.set v.index { maze.room v.index with visited := true }
      have hseen1 : ∀ p : Place numRows numCols, maze1.Seen p ↔ maze.Seen p ∨ p = v := hmark rfl
      have hmono : ∀ p : Place numRows numCols, maze.Seen p → maze1.Seen p := fun p hp =>
        (hseen1 p).mpr (Or.inl hp)
      have hv1 : maze1.Seen v := (hseen1 v).mpr (Or.inr rfl)
      have hless := unseen_lt hmono hv hv1
      obtain ⟨found, maze', rooms, hrun, htried⟩ := dfsSidesFull_cut ih directions
        (show Static walls maze1 from hst.set v rfl rfl) hv1 (fun p hp => hmono p (htrail p hp))
        (by omega) (file ++ [v.coords])
      have hv' : maze'.Seen v := (htried.keep v hv1).1
      refine ⟨found, maze', v :: rooms, ?_, htried.static, ?_, hv', ?_, ?_⟩
      · rw [dfsFull_of_ne hst hgoal, hrun]
        simp
      · intro p hp
        have hpv : p ≠ v := fun h => hv (h ▸ hp)
        obtain ⟨hp', hroom⟩ := htried.keep p (hmono p hp)
        exact ⟨hp', (hroom hpv).trans (hne _ p hp)⟩
      · intro hf
        rw [List.foldl_cons, hpush, htried.failed hf]
      · intro hf
        obtain ⟨path, q, hpath, hhead, hmove, hnext⟩ := htried.succeeded hf
        have htrace := hpath.trace.cons hhead hmove hnext hmono hv hv1 hv'
        refine ⟨v :: path, ⟨htrace, ?_⟩, rfl⟩
        rw [List.foldl_cons, hpush, hpath.cut, List.reverse_cons, List.append_assoc]
        rfl

end CourseProjects.Maze

import CourseProjects.Maze.Perfect

/-!
# The solver

`dfs` marks the rooms that it enters and leaves a path behind in the `next`
pointers. A search that fails has closed off everything it entered: each open
side leads to a marked room.
-/

namespace CourseProjects.Maze

open CInt

/-- The loop over the four directions in `dfs`; `search` is the recursive call. -/
def dfsSides (search : Rooms → Int → Int → Option (Bool × Rooms)) (row col numRows numCols : Int) :
    List Direction → Rooms → Option (Bool × Rooms)
  | [], maze => some (false, maze)
  | d :: dirs, maze => do
    if directionIndex row col d numRows numCols = true then
      let i ← getIndex row col numCols
      let room ← maze.get i
      let j ← getNeighbor numRows numCols room d
      let maze := maze.set i { room with next := some j }
      let neighbor ← maze.get j
      if room.connections d = 0 ∧ neighbor.visited = false then
        let (found, maze) ← search maze neighbor.r neighbor.c
        if found = true then return (true, maze)
        else dfsSides search row col numRows numCols dirs maze
      else dfsSides search row col numRows numCols dirs maze
    else dfsSides search row col numRows numCols dirs maze

def dfs (goalRow goalCol numRows numCols : Int) :
    Nat → Rooms → Int → Int → Option (Bool × Rooms)
  | 0, _, _, _ => none
  | fuel + 1, maze, row, col => do
    let i ← getIndex row col numCols
    let room ← maze.get i
    if row = goalRow ∧ col = goalCol then
      return (true, maze.set i { room with next := some i, visited := true })
    else
      dfsSides (dfs goalRow goalCol numRows numCols fuel) row col numRows numCols directions
        (maze.set i { room with visited := true })

/-- The rooms that are printed on the way along `next`. -/
def printPrunned (goalRow goalCol : Int) : Nat → Rooms → Int → Option (List (Int × Int))
  | 0, _, _ => none
  | fuel + 1, maze, i => do
    let room ← maze.get i
    if room.r = goalRow ∧ room.c = goalCol then
      return [(room.r, room.c)]
    else
      let n ← room.next
      let rest ← printPrunned goalRow goalCol fuel maze n
      return (room.r, room.c) :: rest

variable {numRows numCols n : Nat} {maze maze' maze'' : Rooms} {d : Direction}
  {u v p q goal : Place numRows numCols} {walls : Place numRows numCols → Direction → Int}

theorem coords_ne (hgoal : v ≠ goal) :
    ¬ (v.coords.1 = goal.coords.1 ∧ v.coords.2 = goal.coords.2) := by
  rintro ⟨hrow, hcol⟩
  exact hgoal (coords_injective (Prod.ext hrow hcol))

/-- A move through a side whose bit is `0` in the room that is left. -/
def Move (walls : Place numRows numCols → Direction → Int) (p q : Place numRows numCols) : Prop :=
  ∃ d, q.coords = step d p.coords ∧ walls p d = 0

/-- What `dfs` does not change. -/
structure Static (walls : Place numRows numCols → Direction → Int) (maze : Rooms) : Prop where
  len : maze.len = (numRows : Int) * numCols
  fits : (numRows : Int) * numCols ≤ intMax
  sides : maze.sides = walls
  coords : ∀ p : Place numRows numCols, ((maze.room p.index).r, (maze.room p.index).c) = p.coords

theorem Static.set {room : Room} (h : Static walls maze) (u : Place numRows numCols)
    (hr : (room.r, room.c) = ((maze.room u.index).r, (maze.room u.index).c))
    (hc : room.connections = (maze.room u.index).connections) :
    Static walls (maze.set u.index room) := by
  refine ⟨h.len, h.fits, ?_, fun p => ?_⟩
  · rw [← h.sides]
    funext p e
    unfold Rooms.sides
    by_cases hp : p = u
    · subst hp
      rw [Rooms.set_room_self, hc]
    · rw [room_set_of_ne _ _ hp]
  · by_cases hp : p = u
    · subst hp
      rw [Rooms.set_room_self, hr, h.coords]
    · rw [room_set_of_ne _ _ hp, h.coords]

/-- A path that the `next` pointers record, through rooms not seen at first. -/
structure Trace (walls : Place numRows numCols → Direction → Int) (goal : Place numRows numCols)
    (maze maze' : Rooms) (path : List (Place numRows numCols)) : Prop where
  last : path.getLast? = some goal
  nodup : path.Nodup
  fresh : ∀ p ∈ path, ¬ maze.Seen p
  seen : ∀ p ∈ path, maze'.Seen p
  moves : path.IsChain (Move walls)
  links : path.IsChain fun p q => (maze'.room p.index).next = some q.index

theorem Trace.single (hv : ¬ maze.Seen v) (hv' : maze'.Seen v) : Trace walls v maze maze' [v] := by
  refine ⟨rfl, List.nodup_singleton v, ?_, ?_, List.isChain_singleton v, List.isChain_singleton v⟩
  · intro p hp
    rwa [List.mem_singleton.mp hp]
  · intro p hp
    rwa [List.mem_singleton.mp hp]

/-- A path recorded since a later moment. -/
theorem Trace.mono {path : List (Place numRows numCols)} (h : Trace walls goal maze' maze'' path)
    (hmono : ∀ p : Place numRows numCols, maze.Seen p → maze'.Seen p) :
    Trace walls goal maze maze'' path :=
  ⟨h.last, h.nodup, fun p hp hp0 => h.fresh p hp (hmono p hp0), h.seen, h.moves, h.links⟩

/-- The room from which the path was found is put before it. -/
theorem Trace.cons {path : List (Place numRows numCols)} (h : Trace walls goal maze' maze'' path)
    (hhead : path.head? = some q) (hmove : Move walls v q)
    (hnext : (maze''.room v.index).next = some q.index)
    (hmono : ∀ p : Place numRows numCols, maze.Seen p → maze'.Seen p) (hv : ¬ maze.Seen v)
    (hv' : maze'.Seen v) (hv'' : maze''.Seen v) : Trace walls goal maze maze'' (v :: path) := by
  have hfirst : ∀ w ∈ path.head?, w = q := by
    intro w hw
    rw [hhead] at hw
    exact (Option.some.inj hw).symm
  refine ⟨?_, ?_, ?_, ?_, ?_, ?_⟩
  · rw [List.getLast?_cons, h.last]
    rfl
  · exact List.nodup_cons.mpr ⟨fun hmem => h.fresh v hmem hv', h.nodup⟩
  · exact List.forall_mem_cons.mpr ⟨hv, (h.mono hmono).fresh⟩
  · exact List.forall_mem_cons.mpr ⟨hv'', h.seen⟩
  · refine List.isChain_cons.mpr ⟨?_, h.moves⟩
    intro w hw
    rwa [hfirst w hw]
  · refine List.isChain_cons.mpr ⟨?_, h.links⟩
    intro w hw
    rwa [hfirst w hw]

/-- Every room entered since then is not the goal, and closed off. -/
def Closed (walls : Place numRows numCols → Direction → Int) (goal : Place numRows numCols)
    (maze maze' : Rooms) : Prop :=
  ∀ p, maze'.Seen p → ¬ maze.Seen p → p ≠ goal ∧ ∀ q, Move walls p q → maze'.Seen q

/-- What a call of `dfs` on a new room does. -/
def Searches (search : Rooms → Int → Int → Option (Bool × Rooms))
    (walls : Place numRows numCols → Direction → Int) (goal : Place numRows numCols) (n : Nat) :
    Prop :=
  ∀ (maze : Rooms) (v : Place numRows numCols), Static walls maze → ¬ maze.Seen v →
    maze.unseen numRows numCols ≤ n →
    ∃ found maze', search maze v.coords.1 v.coords.2 = some (found, maze') ∧
      Static walls maze' ∧ maze'.Seen v ∧
      (∀ p : Place numRows numCols, maze.Seen p → maze'.Seen p ∧
        maze'.room p.index = maze.room p.index) ∧
      (found = false → Closed walls goal maze maze') ∧
      (found = true → ∃ path, Trace walls goal maze maze' path ∧ path.head? = some v)

variable {search : Rooms → Int → Int → Option (Bool × Rooms)}

theorem Closed.trans (h : Closed walls goal maze maze') (h' : Closed walls goal maze' maze'')
    (hmono : ∀ p : Place numRows numCols, maze'.Seen p → maze''.Seen p) :
    Closed walls goal maze maze'' := by
  intro p hp hp0
  by_cases hp' : maze'.Seen p
  · obtain ⟨hgoal, hmoves⟩ := h p hp' hp0
    exact ⟨hgoal, fun q hq => hmono q (hmoves q hq)⟩
  · exact h' p hp hp'

theorem Closed.of_seen (h : ∀ p : Place numRows numCols, maze'.Seen p → maze.Seen p) :
    Closed walls goal maze maze' :=
  fun p hp hp0 => absurd (h p hp) hp0

/-- What the loop at `u` has done after the directions `dirs`. -/
structure Tried (walls : Place numRows numCols → Direction → Int) (goal u : Place numRows numCols)
    (dirs : List Direction) (maze : Rooms) (found : Bool) (maze' : Rooms) : Prop where
  static : Static walls maze'
  keep : ∀ p : Place numRows numCols, maze.Seen p → maze'.Seen p ∧
    (p ≠ u → maze'.room p.index = maze.room p.index)
  failed : found = false → Closed walls goal maze maze' ∧
    ∀ d ∈ dirs, ∀ q : Place numRows numCols, q.coords = step d u.coords → walls u d = 0 →
      maze'.Seen q
  succeeded : found = true → ∃ path q, Trace walls goal maze maze' path ∧ path.head? = some q ∧
    Move walls u q ∧ (maze'.room u.index).next = some q.index

/-- A direction that needs no search, or whose search failed. -/
theorem Tried.cons {found : Bool} {dirs : List Direction}
    (hclosed : Closed walls goal maze maze')
    (hkeep : ∀ p : Place numRows numCols, maze.Seen p → maze'.Seen p ∧
      (p ≠ u → maze'.room p.index = maze.room p.index))
    (hd : ∀ q : Place numRows numCols, q.coords = step d u.coords → walls u d = 0 → maze'.Seen q)
    (h : Tried walls goal u dirs maze' found maze'') :
    Tried walls goal u (d :: dirs) maze found maze'' := by
  refine ⟨h.static, fun p hp => ?_, fun hf => ?_, fun hf => ?_⟩
  · obtain ⟨hp', hroom⟩ := hkeep p hp
    obtain ⟨hp'', hroom'⟩ := h.keep p hp'
    exact ⟨hp'', fun hpu => (hroom' hpu).trans (hroom hpu)⟩
  · obtain ⟨hcl, hrest⟩ := h.failed hf
    refine ⟨hclosed.trans hcl fun p hp => (h.keep p hp).1, fun e he q hq hw => ?_⟩
    rcases List.mem_cons.mp he with rfl | he
    · exact (h.keep q (hd q hq hw)).1
    · exact hrest e he q hq hw
  · obtain ⟨path, q, htr, hq⟩ := h.succeeded hf
    exact ⟨path, q, htr.mono fun p hp => (hkeep p hp).1, hq⟩

/-- All four directions have failed, and the room has been marked. -/
theorem Tried.closed (h : Tried walls goal v directions maze' false maze'') (hgoal : v ≠ goal)
    (hseen : ∀ p : Place numRows numCols, maze'.Seen p ↔ maze.Seen p ∨ p = v) :
    Closed walls goal maze maze'' := by
  obtain ⟨hclosed, hsides⟩ := h.failed rfl
  intro p hp hp0
  by_cases hpv : p = v
  · subst hpv
    refine ⟨hgoal, ?_⟩
    rintro q ⟨d, hd, h0⟩
    exact hsides d (by cases d <;> decide) q hd h0
  · refine hclosed p hp ?_
    intro h1
    exact ((hseen p).mp h1).elim hp0 hpv

/-- The room of a step of the loop, pointing to the neighbor that is looked at. -/
def Rooms.pointed (maze : Rooms) (u q : Place numRows numCols) : Rooms :=
  maze.set u.index { maze.room u.index with next := some q.index }

/-- What a round of the loop reads, the neighbor being in range. -/
theorem Static.reads (hst : Static walls maze) (hq : q.coords = step d u.coords) :
    directionIndex u.coords.1 u.coords.2 d numRows numCols = true ∧
      getIndex u.coords.1 u.coords.2 numCols = some u.index ∧
      maze.get u.index = some (maze.room u.index) ∧
      getNeighbor numRows numCols (maze.room u.index) d = some q.index ∧
      (maze.set u.index { maze.room u.index with next := some q.index }).get q.index =
        some ((maze.pointed u q).room q.index) ∧
      (((maze.pointed u q).room q.index).r, ((maze.pointed u q).room q.index).c) = q.coords ∧
      (maze.room u.index).connections d = walls u d := by
  have hst1 : Static walls (maze.pointed u q) := hst.set u rfl rfl
  refine ⟨directionIndex_iff.mpr ⟨q, hq⟩, getIndex_place hst.fits u, get_place hst.len u,
    getNeighbor_place hst.fits (hst.coords u) hq, get_place hst1.len q, hst1.coords q, ?_⟩
  rw [← hst.sides]
  rfl

/-- One round of the loop, the neighbor being in range. -/
theorem dfsSides_cons (hst : Static walls maze) (hq : q.coords = step d u.coords)
    (dirs : List Direction) :
    dfsSides search u.coords.1 u.coords.2 numRows numCols (d :: dirs) maze =
      if walls u d = 0 ∧ ((maze.pointed u q).room q.index).visited = false then do
        let (found, maze') ← search (maze.pointed u q) q.coords.1 q.coords.2
        if found = true then return (true, maze')
        else dfsSides search u.coords.1 u.coords.2 numRows numCols dirs maze'
      else dfsSides search u.coords.1 u.coords.2 numRows numCols dirs (maze.pointed u q) := by
  obtain ⟨hdir, hindex, hget, hneighbor, hget1, hcoords, hwall⟩ := hst.reads hq
  rw [← hcoords]
  simp only [dfsSides, hdir, ↓reduceIte, hindex, hget, Option.bind_eq_bind, Option.bind_some, hneighbor,
    hget1, hwall]
  rfl

theorem dfsSides_out (hout : ∀ q : Place numRows numCols, q.coords ≠ step d u.coords)
    (dirs : List Direction) :
    dfsSides search u.coords.1 u.coords.2 numRows numCols (d :: dirs) maze =
      dfsSides search u.coords.1 u.coords.2 numRows numCols dirs maze := by
  have hdir : ¬ directionIndex u.coords.1 u.coords.2 d numRows numCols = true := fun h => by
    obtain ⟨q, hq⟩ := directionIndex_iff.mp h
    exact hout q hq
  rw [dfsSides, if_neg hdir]

theorem dfsSides_spec (hs : Searches search walls goal n) (dirs : List Direction)
    (hst : Static walls maze) (hu : maze.Seen u) (hn : maze.unseen numRows numCols ≤ n) :
    ∃ found maze', dfsSides search u.coords.1 u.coords.2 numRows numCols dirs maze =
      some (found, maze') ∧ Tried walls goal u dirs maze found maze' := by
  induction dirs generalizing maze with
  | nil =>
    refine ⟨false, maze, rfl, hst, fun p hp => ⟨hp, fun _ => rfl⟩, fun _ => ⟨?_, ?_⟩, ?_⟩
    · exact Closed.of_seen fun _ h => h
    · exact fun d hd => absurd hd List.not_mem_nil
    · exact fun h => absurd h (by decide)
  | cons d dirs ih =>
    by_cases hin : ∃ q : Place numRows numCols, q.coords = step d u.coords
    · obtain ⟨q, hq⟩ := hin
      have hq' : ∀ v : Place numRows numCols, v.coords = step d u.coords → v = q := fun v hv =>
        coords_injective (hv.trans hq.symm)
      have hst1 : Static walls (maze.pointed u q) := hst.set u rfl rfl
      have hseen1 : ∀ p : Place numRows numCols, (maze.pointed u q).Seen p ↔ maze.Seen p :=
        fun p => seen_set maze u p rfl
      have hkeep1 : ∀ p : Place numRows numCols, maze.Seen p → (maze.pointed u q).Seen p ∧
          (p ≠ u → (maze.pointed u q).room p.index = maze.room p.index) := fun p hp =>
        ⟨(hseen1 p).mpr hp, fun hpu => room_set_of_ne _ _ hpu⟩
      have hclosed1 : Closed walls goal maze (maze.pointed u q) :=
        Closed.of_seen fun p hp => (hseen1 p).mp hp
      have hn1 : (maze.pointed u q).unseen numRows numCols ≤ n :=
        le_trans (unseen_mono fun p hp => (hseen1 p).mpr hp) hn
      rw [dfsSides_cons hst hq]
      by_cases hopen : walls u d = 0 ∧ ((maze.pointed u q).room q.index).visited = false
      · have hnew : ¬ (maze.pointed u q).Seen q := by simp [Rooms.Seen, hopen.2]
        obtain ⟨found, maze2, hrun, hst2, hq2, hkeep2, hfailed, hfound⟩ :=
          hs (maze.pointed u q) q hst1 hnew hn1
        have hkeep : ∀ p : Place numRows numCols, maze.Seen p → maze2.Seen p ∧
            (p ≠ u → maze2.room p.index = maze.room p.index) := fun p hp => by
          obtain ⟨hp2, hroom⟩ := hkeep2 p ((hseen1 p).mpr hp)
          exact ⟨hp2, fun hpu => hroom.trans ((hkeep1 p hp).2 hpu)⟩
        rw [if_pos hopen, hrun]
        cases found with
        | true =>
          refine ⟨true, maze2, rfl, hst2, hkeep, fun h => absurd h (by decide), fun _ => ?_⟩
          obtain ⟨path, htr, hhead⟩ := hfound rfl
          refine ⟨path, q, htr.mono fun p hp => (hseen1 p).mpr hp, hhead, ⟨d, hq, hopen.1⟩, ?_⟩
          rw [(hkeep2 u ((hseen1 u).mpr hu)).2, Rooms.pointed, Rooms.set_room_self]
        | false =>
          have hclosed : Closed walls goal maze maze2 :=
            hclosed1.trans (hfailed rfl) fun p hp => (hkeep2 p hp).1
          obtain ⟨found, maze', hrest, htried⟩ := ih hst2 (hkeep u hu).1
            (le_trans (unseen_mono fun p hp => (hkeep p hp).1) hn)
          exact ⟨found, maze', hrest, htried.cons hclosed hkeep fun v hv _ => hq' v hv ▸ hq2⟩
      · rw [if_neg hopen]
        obtain ⟨found, maze', hrest, htried⟩ := ih hst1 ((hseen1 u).mpr hu) hn1
        refine ⟨found, maze', hrest, htried.cons hclosed1 hkeep1 fun v hv hw => ?_⟩
        rw [hq' v hv]
        by_contra hv0
        exact hopen ⟨hw, by simpa [Rooms.Seen] using hv0⟩
    · have hout : ∀ q : Place numRows numCols, q.coords ≠ step d u.coords := fun q hq =>
        hin ⟨q, hq⟩
      rw [dfsSides_out hout]
      obtain ⟨found, maze', hrest, htried⟩ := ih hst hu hn
      exact ⟨found, maze', hrest, htried.cons (Closed.of_seen fun _ h => h)
        (fun p hp => ⟨hp, fun _ => rfl⟩) fun v hv _ => absurd hv (hout v)⟩

/-! ## The search -/

theorem dfs_goal (hst : Static walls maze) (fuel : Nat) :
    dfs goal.coords.1 goal.coords.2 numRows numCols (fuel + 1) maze goal.coords.1 goal.coords.2 =
      some (true, maze.set goal.index
        { maze.room goal.index with next := some goal.index, visited := true }) := by
  rw [dfs, getIndex_place hst.fits goal, Option.bind_eq_bind, Option.bind_some,
    get_place hst.len goal]
  simp only [Option.bind_eq_bind, Option.bind_some, and_self, ↓reduceIte]
  rfl

theorem dfs_of_ne (hst : Static walls maze) (hgoal : v ≠ goal) (fuel : Nat) :
    dfs goal.coords.1 goal.coords.2 numRows numCols (fuel + 1) maze v.coords.1 v.coords.2 =
      dfsSides (dfs goal.coords.1 goal.coords.2 numRows numCols fuel) v.coords.1 v.coords.2
        numRows numCols directions
        (maze.set v.index { maze.room v.index with visited := true }) := by
  rw [dfs, getIndex_place hst.fits v, Option.bind_eq_bind, Option.bind_some,
    get_place hst.len v]
  simp only [Option.bind_eq_bind, Option.bind_some, coords_ne hgoal, ↓reduceIte]

theorem dfs_spec (walls : Place numRows numCols → Direction → Int) (goal : Place numRows numCols)
    (fuel : Nat) :
    Searches (dfs goal.coords.1 goal.coords.2 numRows numCols fuel) walls goal fuel := by
  induction fuel with
  | zero =>
    intro maze v _ hv hn
    have hpos := unseen_pos hv
    omega
  | succ fuel ih =>
    intro maze v hst hv hn
    have hmark : ∀ {room : Room}, room.visited = true → ∀ p : Place numRows numCols,
        (maze.set v.index room).Seen p ↔ maze.Seen p ∨ p = v := fun hroom p =>
      Iff.of_eq (congrFun (seen_mark maze v hroom) p)
    have hne : ∀ (room : Room) (p : Place numRows numCols), maze.Seen p →
        (maze.set v.index room).room p.index = maze.room p.index := by
      intro room p hp
      refine room_set_of_ne maze room ?_
      rintro rfl
      exact hv hp
    by_cases hgoal : v = goal
    · subst hgoal
      let maze1 := maze.set v.index
        { maze.room v.index with next := some v.index, visited := true }
      have hv1 : maze1.Seen v := (hmark rfl v).mpr (Or.inr rfl)
      refine ⟨true, maze1, dfs_goal hst fuel, hst.set v rfl rfl, hv1, ?_, ?_, ?_⟩
      · intro p hp
        exact ⟨(hmark rfl p).mpr (Or.inl hp), hne _ p hp⟩
      · intro h
        cases h
      · intro _
        exact ⟨[v], Trace.single hv hv1, rfl⟩
    · let maze1 := maze.set v.index { maze.room v.index with visited := true }
      have hseen1 : ∀ p : Place numRows numCols, maze1.Seen p ↔ maze.Seen p ∨ p = v := hmark rfl
      have hmono : ∀ p : Place numRows numCols, maze.Seen p → maze1.Seen p := fun p hp =>
        (hseen1 p).mpr (Or.inl hp)
      have hv1 : maze1.Seen v := (hseen1 v).mpr (Or.inr rfl)
      have hless := unseen_lt hmono hv hv1
      obtain ⟨found, maze', hrun, htried⟩ := dfsSides_spec ih directions
        (show Static walls maze1 from hst.set v rfl rfl) hv1 (by omega)
      have hv' : maze'.Seen v := (htried.keep v hv1).1
      refine ⟨found, maze', (dfs_of_ne hst hgoal fuel).trans hrun, htried.static, hv', ?_, ?_, ?_⟩
      · intro p hp
        have hpv : p ≠ v := fun h => hv (h ▸ hp)
        obtain ⟨hp', hroom⟩ := htried.keep p (hmono p hp)
        exact ⟨hp', (hroom hpv).trans (hne _ p hp)⟩
      · rintro rfl
        exact htried.closed hgoal hseen1
      · intro hf
        obtain ⟨path, q, htr, hhead, hmove, hnext⟩ := htried.succeeded hf
        exact ⟨v :: path, htr.cons hhead hmove hnext hmono hv hv1 hv', rfl⟩

/-! ## Printing the path -/

theorem printPrunned_spec {fuel : Nat} {path : List (Place numRows numCols)}
    (hst : Static walls maze') (hhead : path.head? = some v)
    (hlast : path.getLast? = some goal) (hnd : path.Nodup)
    (hlinks : path.IsChain fun p q => (maze'.room p.index).next = some q.index)
    (hfuel : path.length ≤ fuel) :
    printPrunned goal.coords.1 goal.coords.2 fuel maze' v.index = some (path.map Place.coords) := by
  induction path generalizing v fuel with
  | nil => cases hhead
  | cons u path ih =>
    have huv : u = v := by simpa using hhead
    subst huv
    obtain ⟨fuel, rfl⟩ : ∃ k, fuel = k + 1 := ⟨fuel - 1, by simp at hfuel; omega⟩
    have hcoords := hst.coords u
    have hr : (maze'.room u.index).r = u.coords.1 := congrArg Prod.fst hcoords
    have hc : (maze'.room u.index).c = u.coords.2 := congrArg Prod.snd hcoords
    rw [printPrunned, get_place hst.len u, Option.bind_eq_bind, Option.bind_some, hr, hc]
    cases path with
    | nil =>
      have hug : u = goal := by simpa using hlast
      subst hug
      rw [if_pos ⟨rfl, rfl⟩]
      rfl
    | cons w path =>
      obtain ⟨hnot, hnd'⟩ := List.nodup_cons.mp hnd
      obtain ⟨hlink, hlinks'⟩ := List.isChain_cons_cons.mp hlinks
      have hlast' : (w :: path).getLast? = some goal := by simpa using hlast
      have hug : u ≠ goal := fun h => hnot (h ▸ List.mem_of_getLast? hlast')
      have hrest := ih rfl hlast' hnd' hlinks' (Nat.le_of_succ_le_succ hfuel)
      rw [if_neg (coords_ne hug), hlink, Option.bind_eq_bind, Option.bind_some, hrest]
      rfl

/-! ## A freshly loaded maze -/

/-- The rooms as `main` loads them: each knows its place and its wall bits, and
none is visited. -/
structure Loaded (maze : Rooms) (numRows numCols : Nat) : Prop where
  len : maze.len = (numRows : Int) * numCols
  coords : ∀ p : Place numRows numCols, ((maze.room p.index).r, (maze.room p.index).c) = p.coords
  bits : ∀ (p : Place numRows numCols) d, maze.sides p d = 0 ∨ maze.sides p d = 1
  unvisited : ∀ p : Place numRows numCols, (maze.room p.index).visited = false
  next : ∀ p : Place numRows numCols, (maze.room p.index).next = none

/-- A path from start to goal without backtracking, recorded in the maze and
printed by `print_prunned`. -/
structure PrunedPath (maze' : Rooms) (start goal : Place numRows numCols)
    (path : List (Place numRows numCols)) : Prop where
  head : path.head? = some start
  last : path.getLast? = some goal
  nodup : path.Nodup
  moves : path.IsChain (Move maze'.sides)
  links : path.IsChain fun p q => (maze'.room p.index).next = some q.index
  printed : ∀ fuel, path.length ≤ fuel →
    printPrunned goal.coords.1 goal.coords.2 fuel maze' start.index = some (path.map Place.coords)

theorem PrunedPath.reaches {start : Place numRows numCols} {path : List (Place numRows numCols)}
    (h : PrunedPath maze' start goal path) (hsides : maze'.sides = walls) :
    Relation.ReflTransGen (Move walls) start goal := by
  obtain ⟨rest, rfl⟩ := List.head?_eq_some_iff.mp h.head
  have hmoves : (start :: rest).IsChain (Move walls) := hsides ▸ h.moves
  refine List.relationReflTransGen_of_exists_isChain_cons rest hmoves ?_
  exact Option.some_injective _ ((List.getLast?_eq_some_getLast _).symm.trans h.last)

theorem Trace.prunedPath {start : Place numRows numCols} {path : List (Place numRows numCols)}
    (h : Trace walls goal maze maze' path) (hst : Static walls maze')
    (hhead : path.head? = some start) : PrunedPath maze' start goal path :=
  ⟨hhead, h.last, h.nodup, hst.sides ▸ h.moves, h.links, fun _ hlen =>
    printPrunned_spec hst hhead h.last h.nodup h.links hlen⟩

/-- A search that closes off everything it enters has no way to the goal. -/
theorem Closed.not_reaches {start : Place numRows numCols} (h : Closed walls goal maze maze')
    (hnew : ∀ p : Place numRows numCols, ¬ maze.Seen p) (hstart : maze'.Seen start) :
    ¬ Relation.ReflTransGen (Move walls) start goal := by
  intro hreach
  have hall : ∀ p, Relation.ReflTransGen (Move walls) start p → maze'.Seen p := by
    intro p hp
    induction hp with
    | refl => exact hstart
    | tail _ hm ih => exact (h _ ih (hnew _)).2 _ hm
  exact (h goal (hall goal hreach) (hnew goal)).1 rfl

theorem Loaded.static (h : Loaded maze numRows numCols)
    (hfit : (numRows : Int) * numCols ≤ intMax) :
    Static (maze.sides : Place numRows numCols → Direction → Int) maze :=
  ⟨h.len, hfit, rfl, h.coords⟩

theorem Loaded.not_seen (h : Loaded maze numRows numCols) (p : Place numRows numCols) :
    ¬ maze.Seen p := by
  simp [Rooms.Seen, h.unvisited p]

/-- `dfs` returns, it answers whether the goal can be reached, and it leaves a
path behind when it can, if the number of rooms is an `int`. -/
theorem dfs_correct (numRows numCols : Nat) (hfit : (numRows : Int) * numCols ≤ intMax)
    (maze : Rooms) (hl : Loaded maze numRows numCols) (start goal : Place numRows numCols)
    (fuel : Nat) (hfuel : numRows * numCols ≤ fuel) :
    ∃ found maze', dfs goal.coords.1 goal.coords.2 numRows numCols fuel maze start.coords.1
        start.coords.2 = some (found, maze') ∧
      (maze'.sides : Place numRows numCols → Direction → Int) = maze.sides ∧
      (found = true ↔ Relation.ReflTransGen (Move maze.sides) start goal) ∧
      (found = true → ∃ path, PrunedPath maze' start goal path) := by
  have hless : maze.unseen numRows numCols ≤ fuel :=
    le_trans (unseen_le maze numRows numCols) hfuel
  obtain ⟨found, maze', hrun, hst, hstart, -, hfailed, hfound⟩ :=
    dfs_spec maze.sides goal fuel maze start (hl.static hfit) (hl.not_seen start) hless
  have hpath : found = true → ∃ path, PrunedPath maze' start goal path := fun hf => by
    obtain ⟨path, htr, hhead⟩ := hfound hf
    exact ⟨path, htr.prunedPath hst hhead⟩
  refine ⟨found, maze', hrun, hst.sides, ⟨fun hf => ?_, fun hreach => ?_⟩, hpath⟩
  · obtain ⟨path, h⟩ := hpath hf
    exact h.reaches hst.sides
  · by_contra hf
    exact (hfailed (by simpa using hf)).not_reaches hl.not_seen hstart hreach

/-- Two rooms in a row with a door that only the left room has. -/
def oneWay : Rooms where
  len := 2
  room i := ⟨0, i, false, fun d => if i = 0 ∧ d = .east then 0 else 1, none⟩

theorem dfs_one_way :
    ∃ found maze', dfs 0 1 1 2 2 oneWay 0 0 = some (found, maze') ∧
      (maze'.sides : Place 1 2 → Direction → Int) = oneWay.sides ∧
      (found = true ↔ Relation.ReflTransGen (Move oneWay.sides)
        ((0, 0) : Place 1 2) ((0, 1) : Place 1 2)) ∧
      (found = true → ∃ path, PrunedPath maze' ((0, 0) : Place 1 2) ((0, 1) : Place 1 2) path) :=
  dfs_correct 1 2 (by decide) oneWay ⟨rfl, by decide, fun p d => by cases d <;> revert p <;> decide,
    by decide, by decide⟩ (0, 0) (0, 1) 2
    (by decide)

/-- A loaded maze in which every side is a wall. -/
def walled (numRows numCols : Nat) : Rooms where
  len := numRows * numCols
  room i := ⟨i / numCols, i % numCols, false, fun _ => 1, none⟩

theorem walled_loaded (numRows numCols : Nat) :
    Loaded (walled numRows numCols) numRows numCols := by
  refine ⟨rfl, fun p => ?_, fun _ _ => Or.inr rfl, fun _ => rfl, fun _ => rfl⟩
  have hcol : p.coords.2 < numCols := Int.ofNat_lt.mpr p.2.isLt
  have hcol0 : 0 ≤ p.coords.2 := Int.natCast_nonneg p.2.val
  have hindex : p.index = p.coords.2 + p.coords.1 * numCols := Int.add_comm _ _
  have hdiv : p.index / numCols = p.coords.1 := by
    rw [hindex, Int.add_mul_ediv_right _ _ (by omega), Int.ediv_eq_zero_of_lt hcol0 hcol, Int.zero_add]
  have hmod : p.index % numCols = p.coords.2 := by
    rw [hindex, Int.add_mul_emod_self_right, Int.emod_eq_of_lt hcol0 hcol]
  exact Prod.ext hdiv hmod

/-- The index of the last room overflows. -/
theorem dfs_overflows : Loaded (walled 46341 46341) 46341 46341 ∧
    ¬ ∃ fuel found maze', dfs 46340 46340 46341 46341 fuel (walled 46341 46341) 46340 46340 =
      some (found, maze') := by
  refine ⟨walled_loaded 46341 46341, ?_⟩
  rintro ⟨fuel, found, maze', hrun⟩
  have hindex : getIndex 46340 46340 46341 = none := by decide
  cases fuel with
  | zero => cases hrun
  | succ fuel =>
    rw [dfs, hindex] at hrun
    cases hrun

end CourseProjects.Maze

import CourseProjects.Maze.Generator

/-!
# The generator makes perfect mazes
-/

namespace CourseProjects.Maze

open Carving CInt

variable {numRows numCols : Nat}

/-- A place has been visited. -/
def Rooms.Seen (maze : Rooms) (p : Place numRows numCols) : Prop :=
  (maze.room p.index).visited = true

def Rooms.sides (maze : Rooms) (p : Place numRows numCols) (d : Direction) : Int :=
  (maze.room p.index).connections d

variable {maze maze' maze'' : Rooms} {p q u v : Place numRows numCols} {d : Direction} {a : Int}

/-- Only the room that is set changes. -/
theorem room_set_of_ne (maze : Rooms) (room : Room) (hp : p ≠ u) :
    (maze.set u.index room).room p.index = maze.room p.index :=
  Rooms.set_room_ne maze room fun h => hp (index_injective h)

theorem sides_connect (maze : Rooms) (u : Place numRows numCols) (d : Direction) (a : Int) :
    (maze.set u.index ((maze.room u.index).connect d a)).sides = setSide maze.sides u d a := by
  funext p e
  unfold Rooms.sides setSide
  by_cases hp : p = u
  · subst hp
    simp [Room.connect]
  · rw [room_set_of_ne _ _ hp, if_neg fun h => hp h.1]

/-- A room is replaced by one with the same mark. -/
theorem seen_set {room : Room} (maze : Rooms) (u p : Place numRows numCols)
    (hv : room.visited = (maze.room u.index).visited) :
    (maze.set u.index room).Seen p ↔ maze.Seen p := by
  unfold Rooms.Seen
  by_cases hp : p = u
  · subst hp
    rw [Rooms.set_room_self, hv]
  · rw [room_set_of_ne _ _ hp]

/-- A room is marked. -/
theorem seen_mark {room : Room} (maze : Rooms) (v : Place numRows numCols)
    (hv : room.visited = true) :
    (maze.set v.index room).Seen = fun p => maze.Seen p ∨ p = v := by
  funext p
  unfold Rooms.Seen
  by_cases hp : p = v
  · subst hp
    simp [hv]
  · rw [room_set_of_ne _ _ hp]
    simp [hp]

/-- The rooms seen before, except perhaps `v`, are as they were, and those seen
since then are decided on all sides. -/
structure Since (except : Place numRows numCols → Prop) (maze maze' : Rooms) : Prop where
  len : maze'.len = maze.len
  mono : ∀ p : Place numRows numCols, maze.Seen p → maze'.Seen p
  keep : ∀ p : Place numRows numCols, maze.Seen p → ¬ except p →
    maze'.room p.index = maze.room p.index
  done : ∀ p : Place numRows numCols, maze'.Seen p → ¬ maze.Seen p → ∀ d, maze'.sides p d ≠ -1

theorem Since.refl (except : Place numRows numCols → Prop) (maze : Rooms) :
    Since except maze maze :=
  ⟨rfl, fun _ h => h, fun _ _ _ => rfl, fun _ h h' => absurd h h'⟩

theorem Since.trans {except : Place numRows numCols → Prop} (h : Since except maze maze')
    (h' : Since except maze' maze'') (hex : ∀ p, except p → maze.Seen p) :
    Since except maze maze'' := by
  refine ⟨h'.len.trans h.len, fun p hp => h'.mono p (h.mono p hp), fun p hp hpe => ?_,
    fun p hp hp0 d => ?_⟩
  · rw [h'.keep p (h.mono p hp) hpe, h.keep p hp hpe]
  · by_cases hp' : maze'.Seen p
    · have hkeep := h'.keep p hp' fun hpe => hp0 (hex p hpe)
      unfold Rooms.sides
      rw [hkeep]
      exact h.done p hp' hp0 d
    · exact h'.done p hp hp' d

/-- The number of rooms that are not seen yet. -/
noncomputable def Rooms.unseen (maze : Rooms) (numRows numCols : Nat) : Nat :=
  {p : Place numRows numCols | ¬ maze.Seen p}.ncard

theorem unseen_mono (h : ∀ p : Place numRows numCols, maze.Seen p → maze'.Seen p) :
    maze'.unseen numRows numCols ≤ maze.unseen numRows numCols :=
  Set.ncard_le_ncard (fun p hp hp' => hp (h p hp')) (Set.toFinite _)

theorem unseen_lt (h : ∀ p : Place numRows numCols, maze.Seen p → maze'.Seen p)
    (hv : ¬ maze.Seen v) (hv' : maze'.Seen v) :
    maze'.unseen numRows numCols < maze.unseen numRows numCols := by
  refine Set.ncard_lt_ncard ⟨fun p hp hp' => hp (h p hp'), fun hsub => ?_⟩ (Set.toFinite _)
  exact hsub hv hv'

theorem unseen_pos (hv : ¬ maze.Seen v) : 0 < maze.unseen numRows numCols :=
  (Set.ncard_pos (Set.toFinite _)).mpr ⟨v, hv⟩

theorem unseen_le (maze : Rooms) (numRows numCols : Nat) :
    maze.unseen numRows numCols ≤ numRows * numCols := by
  refine le_trans (Set.ncard_le_card _) ?_
  rw [Nat.card_eq_fintype_card, Fintype.card_prod, Fintype.card_fin, Fintype.card_fin]

/-! ## One side -/

/-- What a call that walks into a new room does. -/
def Walks (walk : Rooms → Nat → Int → Int → Option (Rooms × Nat)) (numRows numCols n : Nat) :
    Prop :=
  ∀ (maze : Rooms) (pos : Nat) (root v : Place numRows numCols) par level,
    maze.len = (numRows : Int) * numCols → ¬ maze.Seen v → (∀ d, maze.sides v d = -1) →
    Carved (grid numRows numCols) root (fun p => maze.Seen p ∨ p = v) maze.sides par level →
    maze.unseen numRows numCols ≤ n →
    ∃ maze' pos' par' level', walk maze pos v.coords.1 v.coords.2 = some (maze', pos') ∧
      Since (fun _ : Place numRows numCols => False) maze maze' ∧ maze'.Seen v ∧
      Carved (grid numRows numCols) root maze'.Seen maze'.sides par' level'

theorem since_connect (maze : Rooms) (u : Place numRows numCols) (d : Direction) (a : Int) :
    Since (fun p : Place numRows numCols => p = u) maze
      (maze.set u.index ((maze.room u.index).connect d a)) := by
  have hseen : ∀ p : Place numRows numCols,
      (maze.set u.index ((maze.room u.index).connect d a)).Seen p ↔ maze.Seen p := fun p =>
    seen_set maze u p rfl
  refine ⟨rfl, fun p hp => (hseen p).mpr hp, fun p _ hpu => ?_,
    fun p hp hp0 => absurd ((hseen p).mp hp) hp0⟩
  exact room_set_of_ne _ _ hpu

/-- The room that is told its place is not otherwise changed. -/
theorem room_placed (maze : Rooms) (u q : Place numRows numCols) (d : Direction)
    (hq : q.coords = step d u.coords) :
    let room := (maze.room q.index).placed u.coords.1 u.coords.2 d
    (room.r, room.c) = q.coords ∧ room.visited = (maze.room q.index).visited ∧
      room.connections = (maze.room q.index).connections := by
  rw [hq]
  cases d <;> exact ⟨rfl, rfl, rfl⟩

theorem sides_placed (maze : Rooms) (u q : Place numRows numCols) (d : Direction)
    (hq : q.coords = step d u.coords) :
    ((maze.set q.index ((maze.room q.index).placed u.coords.1 u.coords.2 d)).sides :
      Place numRows numCols → Direction → Int) = maze.sides := by
  funext p e
  unfold Rooms.sides
  by_cases hp : p = q
  · subst hp
    rw [Rooms.set_room_self, (room_placed maze u p d hq).2.2]
  · rw [room_set_of_ne _ _ hp]

theorem seen_placed (maze : Rooms) (u q p : Place numRows numCols) (d : Direction)
    (hq : q.coords = step d u.coords) :
    (maze.set q.index ((maze.room q.index).placed u.coords.1 u.coords.2 d)).Seen p ↔
      maze.Seen p := by
  unfold Rooms.Seen
  by_cases hp : p = q
  · subst hp
    rw [Rooms.set_room_self, (room_placed maze u p d hq).2.1]
  · rw [room_set_of_ne _ _ hp]

variable {walk : Rooms → Nat → Int → Int → Option (Rooms × Nat)} {n pos : Nat}
  {root : Place numRows numCols} {par : Place numRows numCols → Option (Place numRows numCols)}
  {level : Place numRows numCols → Nat}

/-- What one side of the room at `u` does to the maze. -/
def SideDone (maze : Rooms) (u root : Place numRows numCols) (d : Direction) (maze' : Rooms) :
    Prop :=
  Since (fun p => p = u) maze maze' ∧
    (∃ par' level', Carved (grid numRows numCols) root maze'.Seen maze'.sides par' level') ∧
    ∃ a, a ≠ -1 ∧ maze'.room u.index = (maze.room u.index).connect d a

/-- A side that is decided without walking on. -/
theorem settle_side (hc : Carved (grid numRows numCols) root maze.Seen maze.sides par level)
    (hu : maze.Seen u) (hd : maze.sides u d = -1) (ha : a = 0 ∨ a = 1)
    (hnext : ∀ v : Place numRows numCols, v.coords = step d u.coords → maze.Seen v ∧
      (maze.sides v (getOppositeDir d) = -1 ∨ maze.sides v (getOppositeDir d) = a))
    (hopen : a = 0 → ∃ v : Place numRows numCols, v.coords = step d u.coords ∧
      maze.sides v (getOppositeDir d) = 0) :
    SideDone maze u root d (maze.set u.index ((maze.room u.index).connect d a)) := by
  refine ⟨since_connect maze u d a, ⟨par, level, ?_⟩, a, ?_, Rooms.set_room_self _ _ _⟩
  · rw [sides_connect, show (maze.set u.index ((maze.room u.index).connect d a)).Seen =
      (maze.Seen : Place numRows numCols → Prop) from
        funext fun p => propext (seen_set maze u p rfl)]
    exact hc.settle hu hd ha hnext hopen
  · rcases ha with rfl | rfl <;> decide

/-- A side behind which a new room is entered. -/
theorem enter_side (pos : Nat) (hw : Walks walk numRows numCols n)
    (hlen : maze.len = (numRows : Int) * numCols)
    (hc : Carved (grid numRows numCols) root maze.Seen maze.sides par level) (hu : maze.Seen u)
    (hq : q.coords = step d u.coords) (hnew : ¬ maze.Seen q)
    (hn : maze.unseen numRows numCols ≤ n) :
    let maze1 := maze.set u.index ((maze.room u.index).connect d 0)
    let maze2 := maze1.set q.index ((maze1.room q.index).placed u.coords.1 u.coords.2 d)
    ∃ maze' pos', walk maze2 pos q.coords.1 q.coords.2 = some (maze', pos') ∧
      SideDone maze u root d maze' := by
  intro maze1 maze2
  have hsides : maze2.sides = setSide maze.sides u d 0 := by
    rw [sides_placed maze1 u q d hq, sides_connect]
  have hseen : ∀ p : Place numRows numCols, maze2.Seen p ↔ maze.Seen p := fun p =>
    (seen_placed maze1 u q p d hq).trans (seen_set maze u p rfl)
  have huq : u.index ≠ q.index := fun h => hnew (index_injective h ▸ hu)
  have hfresh : ∀ e, maze2.sides q e = -1 := fun e => by
    rw [hsides, setSide_ne fun h => huq (congrArg Place.index h.1.symm), hc.fresh q e hnew]
  have hstart := hc.enter hu hq hnew
  rw [← hsides, ← show maze2.Seen = maze.Seen from funext fun p => propext (hseen p)] at hstart
  have hless : maze2.unseen numRows numCols ≤ n :=
    le_trans (unseen_mono fun p hp => (hseen p).mpr hp) hn
  obtain ⟨maze', pos', par', level', hrun, hsince, -, hc'⟩ :=
    hw maze2 pos root q _ _ hlen (fun h => hnew ((hseen q).mp h)) hfresh hstart hless
  have hfirst : Since (fun p => p = u) maze maze2 := by
    refine ⟨rfl, fun p hp => (hseen p).mpr hp, fun p hp hpu => ?_,
      fun p hp hp0 => absurd ((hseen p).mp hp) hp0⟩
    have hpq : p.index ≠ q.index := fun h => hnew (index_injective h ▸ hp)
    rw [Rooms.set_room_ne _ _ hpq, room_set_of_ne _ _ hpu]
  refine ⟨maze', pos', hrun, hfirst.trans ⟨hsince.len, hsince.mono, fun p hp _ =>
    hsince.keep p hp id, hsince.done⟩ (fun p hp => hp ▸ hu), ⟨par', level', hc'⟩, 0, by decide, ?_⟩
  rw [hsince.keep u ((hseen u).mpr hu) id, Rooms.set_room_ne _ _ huq, Rooms.set_room_self]

theorem walkSide_spec (pos : Nat) (hfit : (numRows : Int) * numCols ≤ intMax)
    (hw : Walks walk numRows numCols n) (hlen : maze.len = (numRows : Int) * numCols)
    (hc : Carved (grid numRows numCols) root maze.Seen maze.sides par level) (hu : maze.Seen u)
    (hcoords : ((maze.room u.index).r, (maze.room u.index).c) = u.coords)
    (hd : maze.sides u d = -1) (hn : maze.unseen numRows numCols ≤ n) :
    ∃ maze' pos', walkSide walk u.coords.1 u.coords.2 numRows numCols maze pos d =
      some (maze', pos') ∧ SideDone maze u root d maze' := by
  unfold walkSide
  simp only [getIndex_place hfit u, get_place hlen u, Option.bind_eq_bind, Option.bind_some]
  by_cases hdir : directionIndex u.coords.1 u.coords.2 d numRows numCols = true
  · obtain ⟨q, hq⟩ := directionIndex_iff.mp hdir
    have hqget := get_place hlen q
    simp only [hdir, Bool.true_eq_false, ↓reduceIte, getNeighbor_place hfit hcoords hq,
      Option.bind_some, hqget]
    by_cases hnew : (maze.room q.index).visited = false
    · obtain ⟨maze', pos', hrun, hside⟩ := enter_side pos hw hlen hc hu hq
        (by simp [Rooms.Seen, hnew]) hn
      refine ⟨maze', pos', ?_, hside⟩
      have hget1 : (maze.set u.index ((maze.room u.index).connect d 0)).get q.index = some _ :=
        get_place (show (maze.set _ _).len = _ from hlen) q
      have hplaced := (room_placed (maze.set u.index ((maze.room u.index).connect d 0)) u q d hq).1
      simp only [hnew, ↓reduceIte, hget1, Option.bind_some]
      rw [← hrun, ← hplaced]
    · have hseen : maze.Seen q := by simpa [Rooms.Seen] using hnew
      have hq' : ∀ v : Place numRows numCols, v.coords = step d u.coords → v = q := fun v hv =>
        coords_injective (hv.trans hq.symm)
      simp only [hnew]
      by_cases hset : (maze.room q.index).connections (getOppositeDir d) = 1 ∨
          (maze.room q.index).connections (getOppositeDir d) = 0
      · rw [if_pos hset]
        exact ⟨_, pos, rfl, settle_side hc hu hd hset.symm
          (fun v hv => by rw [hq' v hv]; exact ⟨hseen, Or.inr rfl⟩) fun h => ⟨q, hq, h⟩⟩
      · rw [if_neg hset]
        have hopp : maze.sides q (getOppositeDir d) = -1 := by
          rcases hc.range q (getOppositeDir d) with h | h | h
          · exact h
          · exact absurd (Or.inr h) hset
          · exact absurd (Or.inl h) hset
        exact ⟨_, pos, rfl, settle_side hc hu hd (Or.inr rfl)
          (fun v hv => by rw [hq' v hv]; exact ⟨hseen, Or.inl hopp⟩) fun h => absurd h (by decide)⟩
  · have hfalse : directionIndex u.coords.1 u.coords.2 d numRows numCols = false := by
      simpa using hdir
    have hnone : ∀ v : Place numRows numCols, v.coords ≠ step d u.coords := fun v hv =>
      hdir (directionIndex_iff.mpr ⟨v, hv⟩)
    simp only [hfalse, ↓reduceIte]
    exact ⟨_, pos, rfl, settle_side hc hu hd (Or.inr rfl) (fun v hv => absurd hv (hnone v))
      (fun h => absurd h (by decide))⟩

/-! ## All sides of a room -/

/-- The loop over the shuffled directions. -/
theorem sides_spec {dirs : List Direction} (pos : Nat)
    (hfit : (numRows : Int) * numCols ≤ intMax) (hw : Walks walk numRows numCols n)
    (hlen : maze.len = (numRows : Int) * numCols)
    (hc : Carved (grid numRows numCols) root maze.Seen maze.sides par level) (hu : maze.Seen u)
    (hcoords : ((maze.room u.index).r, (maze.room u.index).c) = u.coords)
    (hnd : dirs.Nodup) (hd : ∀ d ∈ dirs, maze.sides u d = -1)
    (hdone : ∀ d ∉ dirs, maze.sides u d ≠ -1) (hn : maze.unseen numRows numCols ≤ n) :
    ∃ maze' pos' par' level', dirs.foldlM (fun (st : Rooms × Nat) dir =>
        walkSide walk u.coords.1 u.coords.2 numRows numCols st.1 st.2 dir) (maze, pos) =
          some (maze', pos') ∧
      Since (fun p => p = u) maze maze' ∧ (∀ d, maze'.sides u d ≠ -1) ∧
      Carved (grid numRows numCols) root maze'.Seen maze'.sides par' level' := by
  induction dirs generalizing maze pos par level with
  | nil => exact ⟨maze, pos, par, level, rfl, Since.refl _ maze, fun d => hdone d List.not_mem_nil, hc⟩
  | cons d dirs ih =>
    obtain ⟨hdnot, hnd⟩ := List.nodup_cons.mp hnd
    obtain ⟨maze1, pos1, hrun1, hsince1, ⟨par1, level1, hc1⟩, a, ha, hroom⟩ :=
      walkSide_spec pos hfit hw hlen hc hu hcoords (hd d List.mem_cons_self) hn
    have hside : ∀ e, maze1.sides u e = if e = d then a else maze.sides u e := fun e => by
      unfold Rooms.sides
      rw [hroom]
      rfl
    obtain ⟨maze', pos', par', level', hrun, hsince, hall, hc'⟩ :=
      ih pos1 (hsince1.len.trans hlen) hc1 (hsince1.mono u hu)
        (by rw [hroom]; exact hcoords) hnd
        (fun e he => by
          rw [hside, if_neg (by rintro rfl; exact hdnot he)]
          exact hd e (List.mem_cons_of_mem _ he))
        (fun e he => by
          rw [hside]
          split_ifs with hed
          · exact ha
          · refine hdone e fun hm => ?_
            rcases List.mem_cons.mp hm with h | h
            · exact hed h
            · exact he h)
        (le_trans (unseen_mono hsince1.mono) hn)
    refine ⟨maze', pos', par', level', ?_, hsince1.trans hsince fun p hp => hp ▸ hu, hall, hc'⟩
    rw [List.foldlM_cons, hrun1]
    exact hrun

/-! ## The walk -/

/-- Enough fuel for the rooms that are not seen yet is enough. -/
theorem drunkenWalk_spec (hfit : (numRows : Int) * numCols ≤ intMax) (rand : Nat → Nat)
    (fuel : Nat) :
    Walks (drunkenWalk rand numRows numCols fuel) numRows numCols fuel := by
  induction fuel with
  | zero =>
    intro maze pos root v par level _ hv _ _ hn
    have hpos := unseen_pos hv
    omega
  | succ fuel ih =>
    intro maze pos root v par level hlen hv hfresh hc hn
    let here : Room := { maze.room v.index with
      visited := true, r := v.coords.1, c := v.coords.2, next := none }
    let maze1 := maze.set v.index here
    have hne : ∀ p : Place numRows numCols, p ≠ v → maze1.room p.index = maze.room p.index :=
      fun p hp => room_set_of_ne _ _ hp
    have hself : maze1.room v.index = here := Rooms.set_room_self _ _ _
    have hseen : maze1.Seen = fun p => maze.Seen p ∨ p = v := seen_mark maze v rfl
    have hsides : maze1.sides = (maze.sides : Place numRows numCols → Direction → Int) := by
      funext p e
      unfold Rooms.sides
      by_cases hp : p = v
      · subst hp
        rw [hself]
      · rw [hne p hp]
    have hv1 : maze1.Seen v := by
      rw [hseen]
      exact Or.inr rfl
    have hmono : ∀ p : Place numRows numCols, maze.Seen p → maze1.Seen p := fun p hp => by
      rw [hseen]
      exact Or.inl hp
    rw [← hseen, ← hsides] at hc
    have hperm := shuffleArray_perm rand pos directions
    have hless := unseen_lt hmono hv hv1
    obtain ⟨maze', pos', par', level', hrun, hsince, hall, hc'⟩ :=
      sides_spec (shuffleArray rand pos directions).2 hfit ih
        (show maze1.len = _ from hlen) hc hv1 (by rw [hself])
        (hperm.nodup_iff.mpr (by decide)) (fun d _ => by rw [hsides]; exact hfresh d)
        (fun d hd => absurd (hperm.mem_iff.mpr (by cases d <;> decide)) hd) (by omega)
    refine ⟨maze', pos', par', level', ?_, ⟨hsince.len, fun p hp => hsince.mono p (hmono p hp),
      fun p hp _ => ?_, fun p hp hp0 d => ?_⟩, hsince.mono v hv1, hc'⟩
    · rw [drunkenWalk, getIndex_place hfit v, Option.bind_eq_bind, Option.bind_some,
        get_place hlen v]
      exact hrun
    · have hpv : p ≠ v := fun h => hv (h ▸ hp)
      rw [hsince.keep p (hmono p hp) hpv, hne p hpv]
    · by_cases hpv : p = v
      · rw [hpv]
        exact hall d
      · refine hsince.done p hp (fun h1 => ?_) d
        rw [hseen] at h1
        exact hp0 (h1.resolve_right hpv)

/-- A perfect maze: sides are open or walls, the same from both rooms, walls at
the border, and the open passages form a spanning tree of the grid. -/
structure Perfect (maze : Rooms) (numRows numCols : Nat) : Prop where
  binary : ∀ (p : Place numRows numCols) d, maze.sides p d = 0 ∨ maze.sides p d = 1
  border : ∀ (p : Place numRows numCols) d, (∀ q : Place numRows numCols,
    q.coords ≠ step d p.coords) → maze.sides p d = 1
  symmetric : ∀ (p q : Place numRows numCols) d, q.coords = step d p.coords →
    maze.sides p d = maze.sides q (getOppositeDir d)
  tree : (Carved.openGraph (grid numRows numCols) maze.sides).IsTree
  paths : ∀ p q, ∃! w : (Carved.openGraph (grid numRows numCols) maze.sides).Walk p q, w.IsPath

/-- Every room can be walked to from the first one. -/
theorem grid_connected (root : Place numRows numCols) (hroot : root.coords = (0, 0))
    (p : Place numRows numCols) :
    Relation.ReflTransGen (fun p q => ∃ d, (grid numRows numCols).next p d q) root p := by
  obtain ⟨⟨i, hi⟩, ⟨j, hj⟩⟩ := p
  induction hn : i + j using Nat.strong_induction_on generalizing i j with
  | _ n ih =>
    by_cases hi0 : i = 0
    · by_cases hj0 : j = 0
      · subst hi0 hj0
        rw [coords_injective (p := (⟨0, hi⟩, ⟨0, hj⟩)) (q := root) (hroot ▸ rfl)]
      · refine (ih (i + (j - 1)) (by omega) i hi (j - 1) (by omega) rfl).tail ⟨.east, ?_⟩
        change ((i : Int), (j : Int)) = ((i : Int), ((j - 1 : Nat) : Int) + 1)
        rw [Prod.mk.injEq]
        omega
    · refine (ih (i - 1 + j) (by omega) (i - 1) (by omega) j hj rfl).tail ⟨.south, ?_⟩
      change ((i : Int), (j : Int)) = (((i - 1 : Nat) : Int) + 1, (j : Int))
      rw [Prod.mk.injEq]
      omega

/-- The rooms that `main` initialises and walks through. -/
theorem walk_perfect (hfit : (numRows : Int) * numCols ≤ intMax) (hr : 1 ≤ numRows)
    (hc : 1 ≤ numCols) (rand : Nat → Nat) (stack : Int → Room) {fuel : Nat}
    (hfuel : numRows * numCols ≤ fuel) :
    ∃ init maze pos, initialRooms numRows numCols stack = some init ∧
      drunkenWalk rand numRows numCols fuel init 0 0 0 = some (maze, pos) ∧
      maze.len = (numRows : Int) * numCols ∧ Perfect maze numRows numCols := by
  obtain ⟨init, hinit, hlen, hroom⟩ := initialRooms_of_fit hfit stack
  let root : Place numRows numCols := (⟨0, hr⟩, ⟨0, hc⟩)
  have hseen : ∀ p : Place numRows numCols, ¬ init.Seen p := fun p => by
    simp [Rooms.Seen, hroom]
  have hfresh : init.sides = fun (_ : Place numRows numCols) _ => (-1 : Int) := by
    funext p d
    rw [Rooms.sides, (hroom p.index).2]
  have hstart : Carved (grid numRows numCols) root (fun p => init.Seen p ∨ p = root) init.sides
      (fun _ => none) (fun _ => 0) := by
    have hfun : (fun p => init.Seen p ∨ p = root) = fun p => p = root :=
      funext fun p => propext (or_iff_right (hseen p))
    rw [hfun, hfresh]
    exact Carved.initial _ _
  have hless : init.unseen numRows numCols ≤ fuel :=
    le_trans (unseen_le init numRows numCols) hfuel
  obtain ⟨maze, pos, par, level, hrun, hsince, -, hcarved⟩ := drunkenWalk_spec hfit rand fuel init 0
    root root _ _ hlen (hseen root) (fun d => by rw [hfresh]) hstart hless
  refine ⟨init, maze, pos, hinit, hrun, hsince.len.trans hlen, ?_⟩
  have hdone : ∀ (p : Place numRows numCols) d, maze.Seen p → maze.sides p d ≠ -1 := fun p d hp =>
    hsince.done p hp (hseen p) d
  have hall : ∀ p : Place numRows numCols, maze.Seen p := fun p =>
    hcarved.seen_all hdone (grid_connected root rfl p)
  have hne : ∀ (p : Place numRows numCols) d, maze.sides p d ≠ -1 := fun p d => hdone p d (hall p)
  have htree := hcarved.isTree hall
  refine ⟨fun p d => (hcarved.range p d).resolve_left (hne p d), fun p d hp => ?_,
    fun p q d hq => hcarved.agree p d q hq (hne p d) (hne q _), htree, htree.existsUnique_path⟩
  exact ((hcarved.range p d).resolve_left (hne p d)).resolve_left (hcarved.border p d hp)

/-- The walk from the first room returns without an access outside the maze or an
overflow, and the maze is perfect, if the number of rooms is an `int`. -/
theorem drunkenWalk_perfect (numRows numCols : Nat) (hr : 1 ≤ numRows) (hc : 1 ≤ numCols)
    (hfit : (numRows : Int) * numCols ≤ intMax) (rand : Nat → Nat) (stack : Int → Room)
    (fuel : Nat) (hfuel : numRows * numCols ≤ fuel) :
    ∃ init maze pos, initialRooms numRows numCols stack = some init ∧
      drunkenWalk rand numRows numCols fuel init 0 0 0 = some (maze, pos) ∧
      Perfect maze numRows numCols := by
  obtain ⟨init, maze, pos, hinit, hrun, -, hperfect⟩ := walk_perfect hfit hr hc rand stack hfuel
  exact ⟨init, maze, pos, hinit, hrun, hperfect⟩

/-- A room as it may be on the stack. -/
def blank : Room :=
  ⟨0, 0, false, fun _ => 0, none⟩

theorem drunkenWalk_two_by_three :
    ∃ init maze pos, initialRooms 2 3 (fun _ => blank) = some init ∧
      drunkenWalk (fun n => 3 * n) 2 3 6 init 0 0 0 = some (maze, pos) ∧ Perfect maze 2 3 :=
  drunkenWalk_perfect 2 3 (by decide) (by decide) (by decide) _ _ 6 (by decide)

/-- The number of rooms overflows. -/
theorem too_many_rooms : ¬ ∃ fuel init maze pos,
    initialRooms 65536 65536 (fun _ => blank) = some init ∧
      drunkenWalk (fun n => n) 65536 65536 fuel init 0 0 0 = some (maze, pos) ∧
      Perfect maze 65536 65536 := by
  rintro ⟨fuel, init, maze, pos, hinit, -⟩
  cases hinit

end CourseProjects.Maze

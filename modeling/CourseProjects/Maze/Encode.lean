import CourseProjects.Lib.Text
import CourseProjects.Maze.Solver

/-!
# The maze file

The generator writes one hex digit for each room and ends each row with a
newline. The solver reads the digits back with `%1x`, which skips white space.
-/

namespace CourseProjects.Maze

open CInt Text

/-! ## The generator's side -/

def encodeRoom (room : Room) : Int :=
  room.connections .north * 1 + room.connections .south * 2 + room.connections .west * 4 +
    room.connections .east * 8

def encodeMaze (maze : Rooms) (numRows numCols : Nat) (result : Int → Int) :
    Option (Int → Int) := do
  let size ← checked (numRows * numCols)
  (List.range size.toNat).foldlM (fun r (i : Nat) => do
    let room ← maze.get i
    return fun k => if k = i then encodeRoom room else r k) result

/-- `%x` prints an `int` as a 32-bit unsigned number. -/
def printHex (value : Int) : List Char :=
  Nat.toDigits 16 (value % 2 ^ 32).toNat

/-- The loops of `main` over the rows and columns. -/
def printMaze (numRows numCols : Nat) (result : Int → Int) : Option (List Char) := do
  let rows ← (List.range numRows).mapM fun (i : Nat) => do
    let digits ← (List.range numCols).mapM fun (k : Nat) => do
      let index ← getIndex i k numCols
      return printHex (result index)
    return digits.flatten ++ ['\n']
  return rows.flatten

/-! ## The solver's side -/

def hexValue (c : Char) : Option Nat :=
  if '0'.toNat ≤ c.toNat ∧ c.toNat ≤ '9'.toNat then some (c.toNat - '0'.toNat)
  else if 'a'.toNat ≤ c.toNat ∧ c.toNat ≤ 'f'.toNat then some (c.toNat - 'a'.toNat + 10)
  else if 'A'.toNat ≤ c.toNat ∧ c.toNat ≤ 'F'.toNat then some (c.toNat - 'A'.toNat + 10)
  else none

/-- `fscanf(file, "%1x", &hex)`: a sign is consumed but is not a number by
itself, and without a number `hex` keeps its value. -/
def fscanf (text : List Char) (hex : Nat) : Nat × List Char :=
  match text.dropWhile isspace with
  | [] => (hex, [])
  | c :: rest =>
    match hexValue c with
    | some v => (v, rest)
    | none => if c = '+' ∨ c = '-' then (hex, rest) else (hex, c :: rest)

def createRoomConnections (room : Room) (hex : Nat) : Room :=
  let (hex, east) := if hex ≥ 8 then (hex - 8, 1) else (hex, 0)
  let (hex, west) := if hex ≥ 4 then (hex - 4, 1) else (hex, 0)
  let (hex, south) := if hex ≥ 2 then (hex - 2, 1) else (hex, 0)
  let north := if hex = 1 then 1 else 0
  { room with connections := fun
    | .north => north
    | .south => south
    | .west => west
    | .east => east }

structure Loading where
  maze : Rooms
  text : List Char
  hex : Nat

/-- One round of the inner loop. -/
def loadRoom (numCols : Nat) (st : Loading) (i j : Nat) : Option Loading := do
  let (hex, text) := fscanf st.text st.hex
  let index ← getIndex i j numCols
  let room ← st.maze.get index
  let room := createRoomConnections room hex
  return ⟨st.maze.set index { room with r := i, c := j, visited := false, next := none }, text, hex⟩

/-- The rooms and `hex` are uninitialised at first. -/
def loadMaze (numRows numCols : Nat) (stack : Int → Room) (hex : Nat) (text : List Char) :
    Option Rooms := do
  let size ← checked (numRows * numCols)
  let st ← (List.range numRows).foldlM (fun st i =>
    (List.range numCols).foldlM (fun st j => loadRoom numCols st i j) st)
    ⟨⟨size, stack⟩, text, hex⟩
  return st.maze

/-! ## One room -/

theorem encode_create (room : Room) {v : Nat} (hv : v < 16) :
    encodeRoom (createRoomConnections room v) = v := by
  simp only [encodeRoom, createRoomConnections]
  split_ifs <;> omega

theorem encodeRoom_range {room : Room}
    (h : ∀ d, room.connections d = 0 ∨ room.connections d = 1) :
    0 ≤ encodeRoom room ∧ encodeRoom room < 16 := by
  have := h .north
  have := h .south
  have := h .west
  have := h .east
  unfold encodeRoom
  omega

theorem create_encode {room : Room} (room' : Room) {v : Nat}
    (h : ∀ d, room.connections d = 0 ∨ room.connections d = 1) (hv : encodeRoom room = v) :
    (createRoomConnections room' v).connections = room.connections := by
  have hn := h .north
  have hs := h .south
  have hw := h .west
  have he := h .east
  unfold encodeRoom at hv
  funext d
  cases d
  all_goals
    simp only [createRoomConnections]
    split_ifs <;> omega

theorem create_bits (room : Room) (v : Nat) (d : Direction) :
    (createRoomConnections room v).connections d = 0 ∨
      (createRoomConnections room v).connections d = 1 := by
  cases d
  all_goals
    simp only [createRoomConnections]
    split_ifs <;> simp

/-! ## The text -/

/-- White space aside, the text consists of hex digits with these values. -/
def Holds (text : List Char) (values : List Nat) : Prop :=
  (text.filter fun c => !isspace c).map hexValue = values.map some

instance (text : List Char) (values : List Nat) : Decidable (Holds text values) :=
  inferInstanceAs (Decidable (_ = _))

theorem Holds.fscanf {text : List Char} {v : Nat} {values : List Nat}
    (h : Holds text (v :: values)) (hex : Nat) :
    ∃ rest, fscanf text hex = (v, rest) ∧ Holds rest values := by
  induction text with
  | nil => simp [Holds] at h
  | cons c text ih =>
    unfold Holds at h
    by_cases hc : isspace c = true
    · obtain ⟨rest, hrun, hrest⟩ := ih (by simpa [Holds, hc] using h)
      refine ⟨rest, ?_, hrest⟩
      rwa [Maze.fscanf, List.dropWhile_cons_of_pos hc]
    · simp only [hc, Bool.not_false, List.filter_cons_of_pos, List.map_cons, List.cons.injEq] at h
      refine ⟨text, ?_, h.2⟩
      rw [Maze.fscanf, List.dropWhile_cons_of_neg hc]
      simp only [h.1]

theorem hexValue_lt {c : Char} {v : Nat} (h : hexValue c = some v) : v < 16 := by
  simp only [hexValue, Char.reduceToNat] at h
  split_ifs at h
  all_goals
    cases h
    omega

theorem Holds.lt {text : List Char} {values : List Nat} (h : Holds text values) {v : Nat}
    (hv : v ∈ values) : v < 16 := by
  have hmem : some v ∈ values.map some := List.mem_map_of_mem hv
  rw [← h] at hmem
  obtain ⟨c, -, hc⟩ := List.mem_map.mp hmem
  exact hexValue_lt hc

/-- A digit is printed as itself. -/
theorem printHex_digit {v : Int} (h0 : 0 ≤ v) (hv : v < 16) :
    ((printHex v).filter fun c => !isspace c).map hexValue = [some v.toNat] := by
  obtain ⟨n, rfl⟩ : ∃ n : Nat, v = n := ⟨v.toNat, (Int.toNat_of_nonneg h0).symm⟩
  have hall : ∀ n : Nat, n < 16 →
      ((printHex n).filter fun c => !isspace c).map hexValue = [some n] := by
    decide
  exact hall n (by omega)

variable {numRows numCols : Nat}

theorem checked_size (hfit : (numRows : Int) * numCols ≤ intMax) :
    checked ((numRows : Int) * numCols) = some ((numRows : Int) * numCols) :=
  checked_of_nonneg (Int.natCast_nonneg (numRows * numCols)) hfit

/-- The text of a maze file, an index in the array being `i * numCols + k`. -/
def mazeText (numRows numCols : Nat) (result : Int → Int) : List Char :=
  (List.range numRows).flatMap fun i =>
    (List.range numCols).flatMap (fun k => printHex (result (i * numCols + k : Nat))) ++ ['\n']

theorem printMaze_of_fit (hfit : (numRows : Int) * numCols ≤ intMax) (result : Int → Int) :
    printMaze numRows numCols result = some (mazeText numRows numCols result) := by
  have hdigit : ∀ i < numRows, ∀ k < numCols, getIndex i k numCols = some ↑(i * numCols + k) := by
    intro i hi k hk
    have hindex := getIndex_place hfit ((⟨i, hi⟩, ⟨k, hk⟩) : Place numRows numCols)
    rw [show ((i * numCols + k : Nat) : Int) = (i : Int) * numCols + k by push_cast; rfl]
    exact hindex
  have hrow : ∀ i < numRows, (List.range numCols).mapM (fun (k : Nat) => do
      let index ← getIndex i k numCols
      return printHex (result index)) =
      some ((List.range numCols).map fun k => printHex (result (i * numCols + k : Nat))) := by
    intro i hi
    refine mapM_of_forall fun k hk => ?_
    rw [hdigit i hi k (List.mem_range.mp hk)]
    rfl
  have hrows : (List.range numRows).mapM (fun (i : Nat) => do
      let digits ← (List.range numCols).mapM fun (k : Nat) => do
        let index ← getIndex i k numCols
        return printHex (result index)
      return digits.flatten ++ ['\n']) = some ((List.range numRows).map fun i =>
        (List.range numCols).flatMap (fun k => printHex (result (i * numCols + k : Nat))) ++
          ['\n']) := by
    refine mapM_of_forall fun i hi => ?_
    rw [hrow i (List.mem_range.mp hi)]
    rfl
  rw [printMaze, hrows]
  rfl

/-- One row of the file: its digits and a newline. -/
theorem row_holds {result : Int → Int} {start n : Nat}
    (h : ∀ k < n, 0 ≤ result (start + k : Nat) ∧ result (start + k : Nat) < 16) :
    Holds ((List.range n).flatMap (fun k : Nat => printHex (result (start + k : Nat))) ++ ['\n'])
      ((List.range n).map fun k => (result (start + k : Nat)).toNat) := by
  have hnewline : isspace '\n' = true := by decide
  unfold Holds
  rw [List.filter_append, List.filter_singleton, hnewline, Bool.not_true, cond_false,
    List.append_nil, List.filter_flatMap, List.map_flatMap, List.map_map, ← List.flatMap_pure_eq_map]
  refine List.flatMap_congr fun k hk => ?_
  have := h k (List.mem_range.mp hk)
  exact printHex_digit this.1 this.2

theorem mazeText_holds {result : Int → Int}
    (h : ∀ k < numRows * numCols, 0 ≤ result k ∧ result k < 16) :
    Holds (mazeText numRows numCols result)
      ((List.range (numRows * numCols)).map fun k : Nat => (result k).toNat) := by
  induction numRows with
  | zero => simp [mazeText, Holds]
  | succ m ih =>
    have hrange : m * numCols + numCols = (m + 1) * numCols := (Nat.succ_mul m numCols).symm
    have hrows := ih fun k hk => h k (by omega)
    have hrow := row_holds fun k (hk : k < numCols) => h (m * numCols + k) (by omega)
    rw [← hrange, List.range_add, List.map_append]
    unfold Holds mazeText at *
    rw [List.range_succ, List.flatMap_append, List.filter_append, List.map_append, hrows,
      List.flatMap_singleton, hrow, List.map_append]
    simp only [List.map_map]
    rfl

/-! ## Encoding -/

theorem encodeMaze_spec (hfit : (numRows : Int) * numCols ≤ intMax) {maze : Rooms}
    (hlen : maze.len = (numRows : Int) * numCols) (result : Int → Int) :
    ∃ result', encodeMaze maze numRows numCols result = some result' ∧
      ∀ k < numRows * numCols, result' k = encodeRoom (maze.room k) := by
  have hloop : ∀ n ≤ numRows * numCols, ∃ result', (List.range n).foldlM (fun r (i : Nat) => do
      let room ← maze.get i
      return fun k : Int => if k = i then encodeRoom room else r k) result = some result' ∧
        ∀ k < n, result' k = encodeRoom (maze.room k) := by
    intro n hn
    induction n with
    | zero => exact ⟨result, rfl, fun k hk => absurd hk (Nat.not_lt_zero k)⟩
    | succ n ih =>
      obtain ⟨r, hrun, hr⟩ := ih (Nat.le_of_succ_le hn)
      have hget : maze.get n = some (maze.room n) := by
        rw [Rooms.get, hlen, ← Nat.cast_mul, if_pos (by omega)]
      refine ⟨_, by rw [List.range_succ, List.foldlM_append, hrun]; simp [hget]; rfl, ?_⟩
      intro k hk
      by_cases hkn : k = n
      · simp [hkn]
      · simp [hkn, hr k (by omega)]
  rw [encodeMaze, checked_size hfit, Option.bind_eq_bind, Option.bind_some, ← Nat.cast_mul,
    Int.toNat_natCast]
  exact hloop _ le_rfl

/-! ## Loading -/

/-- What the solver makes of a room whose digit has the value `v`. -/
def loaded (p : Place numRows numCols) (v : Nat) (room : Room) : Room :=
  { createRoomConnections room v with
    r := p.coords.1, c := p.coords.2, visited := false, next := none }

variable {values : List Nat} {st : Loading}

/-- One round, whatever `%1x` reads. -/
theorem loadRoom_place (hfit : (numRows : Int) * numCols ≤ intMax)
    (hlen : st.maze.len = (numRows : Int) * numCols) (p : Place numRows numCols) :
    loadRoom numCols st p.1 p.2 = some
      ⟨st.maze.set p.index (loaded p (fscanf st.text st.hex).1 (st.maze.room p.index)),
        (fscanf st.text st.hex).2, (fscanf st.text st.hex).1⟩ := by
  have hindex : getIndex p.1 p.2 numCols = some p.index := getIndex_place hfit p
  rw [loadRoom, hindex]
  simp only [get_place hlen p, Option.bind_eq_bind, Option.bind_some]
  rfl

/-- The two loops of `main`: what every round keeps, for one room more, holds in the end
for all rooms. -/
theorem loadMaze_induct {P : Nat → Loading → Prop} (hfit : (numRows : Int) * numCols ≤ intMax)
    (hround : ∀ (p : Place numRows numCols) {k : Nat} {st : Loading}, p.index = k → P k st →
      ∃ st', loadRoom numCols st p.1 p.2 = some st' ∧ P (k + 1) st')
    {stack : Int → Room} {hex : Nat} {text : List Char}
    (h : P 0 ⟨⟨(numRows : Int) * numCols, stack⟩, text, hex⟩) :
    ∃ st, loadMaze numRows numCols stack hex text = some st.maze ∧ P (numRows * numCols) st := by
  have hrow : ∀ {i : Nat} {st : Loading}, i < numRows → P (i * numCols) st → ∀ n ≤ numCols,
      ∃ st', (List.range n).foldlM (fun st j => loadRoom numCols st i j) st = some st' ∧
        P (i * numCols + n) st' := by
    intro i st hi hst n hn
    induction n with
    | zero => exact ⟨st, rfl, hst⟩
    | succ n ih =>
      obtain ⟨st1, hrun, h1⟩ := ih (Nat.le_of_succ_le hn)
      let p : Place numRows numCols := (⟨i, hi⟩, ⟨n, hn⟩)
      have hp : p.index = (i * numCols + n : Nat) := by
        simp [Place.index, Place.coords, p]
      obtain ⟨st2, hroom, h2⟩ := hround p hp h1
      refine ⟨st2, ?_, h2⟩
      rw [List.range_succ, List.foldlM_append, hrun]
      simpa using hroom
  have hrows : ∀ m ≤ numRows, ∃ st', (List.range m).foldlM (fun st i =>
        (List.range numCols).foldlM (fun st j => loadRoom numCols st i j) st)
        ⟨⟨(numRows : Int) * numCols, stack⟩, text, hex⟩ = some st' ∧ P (m * numCols) st' := by
    intro m hm
    induction m with
    | zero => exact ⟨_, rfl, by rwa [Nat.zero_mul]⟩
    | succ m ih =>
      obtain ⟨st1, hrun, h1⟩ := ih (Nat.le_of_succ_le hm)
      obtain ⟨st2, hrow2, h2⟩ := hrow hm h1 numCols le_rfl
      refine ⟨st2, ?_, by rwa [Nat.succ_mul]⟩
      rw [List.range_succ, List.foldlM_append, hrun]
      simpa using hrow2
  obtain ⟨st, hrun, hst⟩ := hrows numRows le_rfl
  refine ⟨st, ?_, hst⟩
  rw [loadMaze, checked_size hfit, Option.bind_eq_bind, Option.bind_some, hrun]
  rfl

/-- The first `k` rooms are loaded, and the rest of the text has the other values. -/
structure LoadedTo (numRows numCols : Nat) (values : List Nat) (k : Nat) (st : Loading) :
    Prop where
  len : st.maze.len = (numRows : Int) * numCols
  text : Holds st.text (values.drop k)
  rooms : ∀ p : Place numRows numCols, p.index < k → ∃ room v,
    values[p.index.toNat]? = some v ∧ st.maze.room p.index = loaded p v room

theorem LoadedTo.round (hfit : (numRows : Int) * numCols ≤ intMax)
    (hlen : values.length = numRows * numCols) (p : Place numRows numCols) {k : Nat}
    (hp : p.index = k) (h : LoadedTo numRows numCols values k st) :
    ∃ st', loadRoom numCols st p.1 p.2 = some st' ∧
      LoadedTo numRows numCols values (k + 1) st' := by
  have hk : k < values.length := by
    have := (index_bounds p).2
    rw [← Nat.cast_mul] at this
    omega
  have htext := h.text
  rw [List.drop_eq_getElem_cons hk] at htext
  obtain ⟨rest, hscan, hrest⟩ := htext.fscanf st.hex
  refine ⟨_, loadRoom_place hfit h.len p, h.len, by rwa [hscan], fun q hq => ?_⟩
  rw [hscan]
  by_cases hqp : q = p
  · subst hqp
    refine ⟨st.maze.room q.index, values[k], ?_, Rooms.set_room_self _ _ _⟩
    rw [hp, Int.toNat_natCast, List.getElem?_eq_getElem hk]
  · have hne : q.index ≠ p.index := fun hi => hqp (index_injective hi)
    obtain ⟨room, v, hv, hroom⟩ := h.rooms q (by omega)
    exact ⟨room, v, hv, by rw [Rooms.set_room_ne _ _ hne, hroom]⟩

/-- Every text with the right number of digits is loaded. -/
theorem loadMaze_spec (hfit : (numRows : Int) * numCols ≤ intMax) {text : List Char}
    (htext : Holds text values) (hlen : values.length = numRows * numCols) (stack : Int → Room)
    (hex : Nat) :
    ∃ maze, loadMaze numRows numCols stack hex text = some maze ∧
      maze.len = (numRows : Int) * numCols ∧ ∀ p : Place numRows numCols, ∃ room v,
        values[p.index.toNat]? = some v ∧ maze.room p.index = loaded p v room := by
  have hstart : LoadedTo numRows numCols values 0 ⟨⟨(numRows : Int) * numCols, stack⟩, text, hex⟩ :=
    ⟨rfl, htext, fun p hp => absurd hp (not_lt.mpr (index_bounds p).1)⟩
  obtain ⟨st, hrun, h⟩ := loadMaze_induct hfit
    (fun p _ _ hp h => LoadedTo.round hfit hlen p hp h) hstart
  refine ⟨st.maze, hrun, h.len, fun p => h.rooms p ?_⟩
  rw [Nat.cast_mul]
  exact (index_bounds p).2

/-! ## The round trip -/

theorem exists_place {k : Nat} (hk : k < numRows * numCols) :
    ∃ p : Place numRows numCols, p.index = k :=
  ⟨finProdFinEquiv.symm ⟨k, hk⟩, by rw [index_eq, Equiv.apply_symm_apply]⟩

theorem encode_then_load (hfit : (numRows : Int) * numCols ≤ intMax) {maze : Rooms}
    (hlen : maze.len = (numRows : Int) * numCols)
    (hbits : ∀ (p : Place numRows numCols) d, maze.sides p d = 0 ∨ maze.sides p d = 1)
    (result : Int → Int) (stack : Int → Room) (hex : Nat) :
    ∃ result' text maze', encodeMaze maze numRows numCols result = some result' ∧
      printMaze numRows numCols result' = some text ∧
      loadMaze numRows numCols stack hex text = some maze' ∧
      (maze'.sides : Place numRows numCols → Direction → Int) = maze.sides := by
  obtain ⟨result', henc, hresult⟩ := encodeMaze_spec hfit hlen result
  have hrange : ∀ k < numRows * numCols, 0 ≤ result' k ∧ result' k < 16 := fun k hk => by
    obtain ⟨p, hp⟩ := exists_place hk
    rw [hresult k hk, ← hp]
    exact encodeRoom_range (hbits p)
  have hcount : ((List.range (numRows * numCols)).map fun k : Nat => (result' k).toNat).length =
      numRows * numCols := by
    rw [List.length_map, List.length_range]
  obtain ⟨maze', hload, -, hrooms⟩ :=
    loadMaze_spec hfit (mazeText_holds hrange) hcount stack hex
  refine ⟨result', _, maze', henc, printMaze_of_fit hfit result', hload, ?_⟩
  funext p d
  obtain ⟨room, v, hv, hroom⟩ := hrooms p
  obtain ⟨k, hk⟩ := Int.eq_ofNat_of_zero_le (index_bounds p).1
  have hlt : k < numRows * numCols := by
    have := (index_bounds p).2
    rw [← Nat.cast_mul] at this
    omega
  have hval : (result' k).toNat = v := by
    simpa [hk, List.getElem?_range hlt] using hv
  have hcode : encodeRoom (maze.room p.index) = v := by
    rw [hk, ← hresult k hlt, ← hval, Int.toNat_of_nonneg (hrange k hlt).1]
  unfold Rooms.sides
  rw [hroom, ← create_encode room (hbits p) hcode]
  rfl

theorem load_then_encode (hfit : (numRows : Int) * numCols ≤ intMax) {text : List Char}
    (htext : Holds text values) (hlen : values.length = numRows * numCols) (stack : Int → Room)
    (hex : Nat) (result : Int → Int) :
    ∃ maze result', loadMaze numRows numCols stack hex text = some maze ∧
      encodeMaze maze numRows numCols result = some result' ∧
      (List.range (numRows * numCols)).map (fun k : Nat => result' k) = values.map Nat.cast := by
  obtain ⟨maze, hload, hmaze, hrooms⟩ := loadMaze_spec hfit htext hlen stack hex
  obtain ⟨result', henc, hresult⟩ := encodeMaze_spec hfit hmaze result
  refine ⟨maze, result', hload, henc, ?_⟩
  refine List.ext_getElem (by simp [hlen]) fun k hk hk' => ?_
  have hlt : k < numRows * numCols := by simpa using hk
  obtain ⟨p, hp⟩ := exists_place hlt
  obtain ⟨room, v, hv, hroom⟩ := hrooms p
  rw [hp, Int.toNat_natCast] at hv
  obtain ⟨hk', rfl⟩ := List.getElem?_eq_some_iff.mp hv
  have hcode : encodeRoom (maze.room k) = values[k] := by
    rw [← hp, hroom]
    exact encode_create room (htext.lt (List.getElem_mem hk'))
  simpa [hcode] using hresult k hlt

/-- What the generator writes is read back by the solver, and what the solver
reads is written again by the generator, if the number of rooms is an `int`. -/
theorem encode_load_round_trip (numRows numCols : Nat)
    (hfit : (numRows : Int) * numCols ≤ intMax) (stack : Int → Room) (hex : Nat)
    (result : Int → Int) :
    (∀ maze : Rooms, maze.len = (numRows : Int) * numCols →
      (∀ (p : Place numRows numCols) d, maze.sides p d = 0 ∨ maze.sides p d = 1) →
      ∃ result' text maze', encodeMaze maze numRows numCols result = some result' ∧
        printMaze numRows numCols result' = some text ∧
        loadMaze numRows numCols stack hex text = some maze' ∧
        ∀ (p : Place numRows numCols) d, maze'.sides p d = maze.sides p d) ∧
    ∀ (text : List Char) (values : List Nat), Holds text values →
      values.length = numRows * numCols →
      ∃ maze result', loadMaze numRows numCols stack hex text = some maze ∧
        encodeMaze maze numRows numCols result = some result' ∧
        (List.range (numRows * numCols)).map (fun k : Nat => result' k) =
          values.map Nat.cast := by
  refine ⟨fun maze hlen hbits => ?_, fun text values htext hlen =>
    load_then_encode hfit htext hlen stack hex result⟩
  obtain ⟨result', text, maze', henc, hprint, hload, hsides⟩ :=
    encode_then_load hfit hlen hbits result stack hex
  exact ⟨result', text, maze', henc, hprint, hload, fun p d => by rw [hsides]⟩

theorem one_way_round_trip :
    (∃ result' text maze', encodeMaze oneWay 1 2 id = some result' ∧
      printMaze 1 2 result' = some text ∧ loadMaze 1 2 oneWay.room 7 text = some maze' ∧
      ∀ (p : Place 1 2) d, maze'.sides p d = oneWay.sides p d) ∧
    ∃ maze result', loadMaze 1 2 oneWay.room 7 ['D', ' ', '3', '\n'] = some maze ∧
      encodeMaze maze 1 2 id = some result' ∧
      (List.range 2).map (fun k : Nat => result' k) = [13, 3] :=
  have h := encode_load_round_trip 1 2 (by decide) oneWay.room 7 id
  ⟨h.1 oneWay rfl fun p d => by cases d <;> revert p <;> decide,
    h.2 ['D', ' ', '3', '\n'] [13, 3] (by decide) rfl⟩

/-- The number of rooms overflows. -/
theorem round_trip_too_large : (walled 65536 65536).len = 65536 * 65536 ∧
    (∀ (p : Place 65536 65536) d, (walled 65536 65536).sides p d = 1) ∧
    ¬ ∃ result' text maze', encodeMaze (walled 65536 65536) 65536 65536 id = some result' ∧
      printMaze 65536 65536 result' = some text ∧
      loadMaze 65536 65536 oneWay.room 7 text = some maze' ∧
      ∀ (p : Place 65536 65536) d, maze'.sides p d = (walled 65536 65536).sides p d := by
  refine ⟨rfl, fun _ _ => rfl, ?_⟩
  rintro ⟨result', text, maze', henc, -⟩
  cases henc

end CourseProjects.Maze

import Mathlib.Order.Bounds.Basic
import CourseProjects.Lib.Scan
import CourseProjects.Malloc.Driver

/-!
# `read_trace`

A trace file has four numbers in front and then the requests, each a word of which the first
letter counts and one or two numbers. Nothing is said when a number is missing: the variable
that it is for keeps its value.
-/

namespace CourseProjects.Malloc

open Scan Text

/-- A request as it is stored in `ops`. The size of a `FREE` is not set. -/
structure TraceLine where
  type : OpType
  index : Int
  size : Option Int
  deriving DecidableEq, Repr

/-- The numbers that nobody uses may be missing. -/
structure Trace where
  traceName : List Char
  suggHeapsize : Option Int
  numIds : Int
  numOps : Int
  weight : Option Int
  ops : List TraceLine
  deriving DecidableEq, Repr

/-- Ends of the program before the end of `main`: `exit(1)` after a message, and `assert`. -/
inductive Stop
  | exit (msg : String)
  | assert (cond : String)
  deriving DecidableEq, Repr

/-- What the library does: the texts of the files that can be opened, whether a call of `malloc`
in `read_trace` gets what it asks for, and the text of `errno`. -/
structure Libc where
  fopen : List Char → Option (List Char)
  malloc : Nat → Nat → Bool
  strerror : String

def Libc.unixError (libc : Libc) (msg : String) : Stop := .exit (msg ++ ": " ++ libc.strerror ++ "\n")

/-- `MAXLINE` -/
def maxLine : Nat := 1024

/-- The bytes of `n` elements, with `n` as a `size_t`. -/
def bytesOf (n : Int) (size : Nat) : Nat := (n * size % 2 ^ 64).toNat

/-- An `unsigned` as an `int`. -/
def asInt (n : Nat) : Int := (BitVec.ofNat 32 n).toInt

/-- The local variables of `read_trace`, with what is left of the file; `size` is not set at first. -/
structure Reading where
  rest : List Char
  index : Nat
  size : Option Nat
  maxIndex : Nat
  ops : List TraceLine

namespace Reading

/-- `fscanf(tracefile, "%u %u", &index, &size)` -/
def pair (r : Reading) : Option Reading := do
  match ← unsigned r.rest with
  | (none, rest) => return { r with rest }
  | (some index, rest) =>
    match ← unsigned rest with
    | (none, rest) => return { r with rest, index }
    | (some size, rest) => return { r with rest, index, size := some size }

/-- `fscanf(tracefile, "%ud", &index)`, which takes a `d` right behind the number. -/
def single (r : Reading) : Option Reading := do
  match ← unsigned r.rest with
  | (none, rest) => return { r with rest }
  | (some index, 'd' :: rest) => return { r with rest, index }
  | (some index, rest) => return { r with rest, index }

/-- The array has room for `num_ops` requests. -/
def store (r : Reading) (numOps : Int) (op : TraceLine) : Option Reading :=
  if r.ops.length < numOps then some { r with ops := r.ops ++ [op] } else none

/-- `a` and `r`; a size that has not been set has no value. -/
def request (r : Reading) (numOps : Int) (type : OpType) : Option Reading := do
  let r ← r.pair
  let size ← r.size
  let r ← r.store numOps ⟨type, asInt r.index, some (asInt size)⟩
  return { r with maxIndex := if r.index > r.maxIndex then r.index else r.maxIndex }

def release (r : Reading) (numOps : Int) : Option Reading := do
  let r ← r.single
  r.store numOps ⟨.free, asInt r.index, none⟩

end Reading

def bogus (c : Char) (path : List Char) : Stop :=
  .exit ("Bogus type character (" ++ String.singleton c ++ ") in tracefile " ++
    String.ofList path ++ "\n")

/-- The loop. A word that does not fit into `type` runs over it. -/
def readLines (path : List Char) (numOps : Int) : Nat → Reading → Option (Except Stop Reading)
  | 0, _ => none
  | fuel + 1, r =>
    match word r.rest with
    | none => some (.ok r)
    | some (type, rest) =>
      if maxLine ≤ type.length then none
      else
        let r := { r with rest }
        match type.headD '\x00' with
        | 'a' => do readLines path numOps fuel (← r.request numOps .alloc)
        | 'r' => do readLines path numOps fuel (← r.request numOps .realloc)
        | 'f' => do readLines path numOps fuel (← r.release numOps)
        | c => some (.error (bogus c path))

def checkCounts (t : Trace) (r : Reading) : Except Stop Trace :=
  if asInt r.maxIndex ≠ t.numIds - 1 then
    .error (.assert "(int)max_index == trace->num_ids - 1")
  else if asInt r.ops.length ≠ t.numOps then
    .error (.assert "(int)op_index == trace->num_ops")
  else .ok { t with ops := r.ops }

/-- Behind `fopen`. The memory of `trace` is not set before `fscanf` sets it. -/
def readFile (libc : Libc) (path name text : List Char) : Option (Except Stop Trace) := do
  let (suggHeapsize, s) ← int text
  let (numIds, s) ← int s
  let (numOps, s) ← int s
  let (weight, s) ← int s
  let numOps ← numOps
  let numIds ← numIds
  if libc.malloc 2 (bytesOf numOps 12) = false then
    return .error (libc.unixError "malloc 2 failed in read_trace")
  if libc.malloc 3 (bytesOf numIds 8) = false then
    return .error (libc.unixError "malloc 3 failed in read_trace")
  if libc.malloc 4 (bytesOf numIds 8) = false then
    return .error (libc.unixError "malloc 4 failed in read_trace")
  match ← readLines path numOps (s.length + 1) ⟨s, 0, none, 0, []⟩ with
  | .error e => return .error e
  | .ok r => return checkCounts ⟨name, suggHeapsize, numIds, numOps, weight, []⟩ r

def readTrace (libc : Libc) (tracedir filename : List Char) : Option (Except Stop Trace) :=
  let path := tracedir ++ filename
  if libc.malloc 1 1064 = false then some (.error (libc.unixError "malloc 1 failed in read_trance"))
  else if maxLine ≤ path.length then none
  else
    match libc.fopen path with
    | some text => readFile libc path filename text
    | none =>
      let msg := "Could not open " ++ String.ofList path ++ " in read_trace"
      if maxLine ≤ msg.length then none else some (.error (libc.unixError msg))

/-! ## What is written in a trace file -/

def TraceLine.words : TraceLine → List (List Char)
  | ⟨.alloc, index, size⟩ => [['a'], numeral index, numeral (size.getD 0)]
  | ⟨.realloc, index, size⟩ => [['r'], numeral index, numeral (size.getD 0)]
  | ⟨.free, index, _⟩ => [['f'], numeral index]

/-- The words of the file of a trace; any white space may stand between them. -/
def Trace.words (t : Trace) : List (List Char) :=
  numeral (t.suggHeapsize.getD 0) :: numeral t.numIds :: numeral t.numOps ::
    numeral (t.weight.getD 0) :: t.ops.flatMap TraceLine.words

/-- The ids that are allocated. -/
def allocated (ops : List TraceLine) : Set Int := {n | ∃ op ∈ ops, op.type ≠ .free ∧ op.index = n}

def IsInt (n : Int) : Prop := -2 ^ 31 ≤ n ∧ n < 2 ^ 31

/-- The numbers in front are all there. -/
structure Trace.Header (t : Trace) : Prop where
  suggHeapsize : ∃ n, t.suggHeapsize = some n ∧ IsInt n
  numIds : IsInt t.numIds
  numOps : IsInt t.numOps ∧ 0 ≤ t.numOps
  weight : ∃ n, t.weight = some n ∧ IsInt n

structure TraceLine.Writable (op : TraceLine) : Prop where
  index : 0 ≤ op.index ∧ op.index < 2 ^ 31
  size : if op.type = .free then op.size = none else ∃ n, op.size = some n ∧ 0 ≤ n ∧ n < 2 ^ 31

/-- The calls of `malloc` for a trace succeed. -/
def Libc.Serves (libc : Libc) (t : Trace) : Prop :=
  libc.malloc 1 1064 = true ∧ libc.malloc 2 (bytesOf t.numOps 12) = true ∧
    libc.malloc 3 (bytesOf t.numIds 8) = true ∧ libc.malloc 4 (bytesOf t.numIds 8) = true

variable {libc : Libc} {t : Trace} {op : TraceLine} {ops : List TraceLine} {r r' : Reading}
  {ws : List (List Char)} {path tracedir text : List Char} {numOps m : Int} {i n fuel : Nat}

theorem asInt_eq (h : n < 2 ^ 32) : asInt n = if n < 2 ^ 31 then (n : Int) else n - 2 ^ 32 := by
  unfold asInt
  rw [BitVec.toInt_eq_toNat_cond, BitVec.toNat_ofNat, Nat.mod_eq_of_lt h]
  split <;> split <;> omega

theorem asInt_of_lt (h : n < 2 ^ 31) : asInt n = n := by
  rw [asInt_eq (by omega), if_pos h]

/-! ## One request -/

theorem Reading.pair_words (hi : i < 2 ^ 32) (hn : n < 2 ^ 32)
    (h : Text.words isspace r.rest = numeral i :: numeral n :: ws) :
    ∃ rest, r.pair = some { r with rest, index := i, size := some n } ∧
      Text.words isspace rest = ws := by
  obtain ⟨rest, hindex, hrest, -⟩ := unsigned_numeral hi h
  obtain ⟨rest', hsize, hws, -⟩ := unsigned_numeral hn hrest
  refine ⟨rest', ?_, hws⟩
  simp only [Reading.pair, hindex, hsize, Option.bind_eq_bind, Option.bind_some, Option.pure_def]

theorem Reading.single_words (hi : i < 2 ^ 32) (h : Text.words isspace r.rest = numeral i :: ws) :
    ∃ rest, r.single = some { r with rest, index := i } ∧ Text.words isspace rest = ws := by
  obtain ⟨rest, hindex, hws, hhead⟩ := unsigned_numeral hi h
  refine ⟨rest, ?_, hws⟩
  simp only [Reading.single, hindex, Option.bind_eq_bind, Option.bind_some]
  split
  · next heq =>
    cases heq
  · next heq =>
    -- white space is no `d`
    obtain ⟨-, rfl⟩ := Prod.mk.inj heq
    exact absurd (hhead 'd' rfl) (by decide)
  · next heq =>
    obtain ⟨hi', rfl⟩ := Prod.mk.inj heq
    obtain rfl := Option.some.inj hi'
    rfl

theorem Reading.request_words (hi : i < 2 ^ 31) (hn : n < 2 ^ 31)
    (h : Text.words isspace r.rest = numeral i :: numeral n :: ws) (numOps : Int) (type : OpType) :
    ∃ r' : Reading, Text.words isspace r'.rest = ws ∧ r'.ops = r.ops ++ [⟨type, i, some n⟩] ∧
      r'.maxIndex = max r.maxIndex i ∧
      r.request numOps type = if (r.ops.length : Int) < numOps then some r' else none := by
  obtain ⟨rest, hpair, hws⟩ := Reading.pair_words (by omega) (by omega) h
  refine ⟨⟨rest, i, some n, max r.maxIndex i, r.ops ++ [⟨type, i, some n⟩]⟩, hws, rfl, rfl, ?_⟩
  have hmax : (if i > r.maxIndex then i else r.maxIndex) = max r.maxIndex i := by
    rw [Nat.max_def]
    split <;> split <;> omega
  rw [Reading.request, hpair]
  simp only [Option.bind_eq_bind, Option.bind_some, Reading.store, asInt_of_lt hi, asInt_of_lt hn]
  split
  · simp only [Option.bind_some, hmax, Option.pure_def]
  · rfl

theorem Reading.release_words (hi : i < 2 ^ 31) (h : Text.words isspace r.rest = numeral i :: ws)
    (numOps : Int) :
    ∃ r' : Reading, Text.words isspace r'.rest = ws ∧ r'.ops = r.ops ++ [⟨.free, i, none⟩] ∧
      r'.maxIndex = r.maxIndex ∧
      r.release numOps = if (r.ops.length : Int) < numOps then some r' else none := by
  obtain ⟨rest, hsingle, hws⟩ := Reading.single_words (by omega) h
  refine ⟨⟨rest, i, r.size, r.maxIndex, r.ops ++ [⟨.free, i, none⟩]⟩, hws, rfl, rfl, ?_⟩
  rw [Reading.release, hsingle]
  simp only [Option.bind_eq_bind, Option.bind_some, Reading.store, asInt_of_lt hi]

theorem short_word (c : Char) : ¬ maxLine ≤ [c].length :=
  Nat.not_le.mpr (by decide : 1 < maxLine)

theorem readLines_request (path : List Char) (numOps : Int) (fuel : Nat) {c : Char} {type : OpType}
    (hc : c = 'a' ∧ type = .alloc ∨ c = 'r' ∧ type = .realloc) (hi : i < 2 ^ 31) (hn : n < 2 ^ 31)
    (h : Text.words isspace r.rest = [c] :: numeral i :: numeral n :: ws) :
    ∃ r' : Reading, Text.words isspace r'.rest = ws ∧ r'.ops = r.ops ++ [⟨type, i, some n⟩] ∧
      r'.maxIndex = max r.maxIndex i ∧ readLines path numOps (fuel + 1) r =
        if (r.ops.length : Int) < numOps then readLines path numOps fuel r' else none := by
  obtain ⟨rest, hword, hrest⟩ := word_some h
  obtain ⟨r', hws, hops, hmax, hrun⟩ :=
    Reading.request_words (r := { r with rest }) hi hn hrest numOps type
  refine ⟨r', hws, hops, hmax, ?_⟩
  rw [readLines, hword]
  obtain ⟨rfl, rfl⟩ | ⟨rfl, rfl⟩ := hc <;>
  · simp only [if_neg (short_word _), List.headD_cons, hrun]
    split <;> rfl

theorem readLines_release (path : List Char) (numOps : Int) (fuel : Nat) (hi : i < 2 ^ 31)
    (h : Text.words isspace r.rest = ['f'] :: numeral i :: ws) :
    ∃ r' : Reading, Text.words isspace r'.rest = ws ∧ r'.ops = r.ops ++ [⟨.free, i, none⟩] ∧
      r'.maxIndex = r.maxIndex ∧ readLines path numOps (fuel + 1) r =
        if (r.ops.length : Int) < numOps then readLines path numOps fuel r' else none := by
  obtain ⟨rest, hword, hrest⟩ := word_some h
  obtain ⟨r', hws, hops, hmax, hrun⟩ :=
    Reading.release_words (r := { r with rest }) hi hrest numOps
  refine ⟨r', hws, hops, hmax, ?_⟩
  rw [readLines, hword]
  simp only [if_neg (short_word _), List.headD_cons, hrun]
  split <;> rfl

/-- A request is read as it is written, if the array has room for it. -/
theorem readLines_line (path : List Char) (numOps : Int) (fuel : Nat) (hw : op.Writable)
    (h : Text.words isspace r.rest = op.words ++ ws) :
    ∃ r' : Reading, Text.words isspace r'.rest = ws ∧ r'.ops = r.ops ++ [op] ∧
      (r'.maxIndex : Int) = (if op.type = .free then (r.maxIndex : Int) else max ↑r.maxIndex op.index) ∧
      readLines path numOps (fuel + 1) r =
        if (r.ops.length : Int) < numOps then readLines path numOps fuel r' else none := by
  obtain ⟨type, index, size⟩ := op
  obtain ⟨⟨hpos, hlt⟩, hsize⟩ := hw
  simp only at hpos hlt hsize
  obtain ⟨i, rfl⟩ := Int.eq_ofNat_of_zero_le hpos
  have hi : i < 2 ^ 31 := by omega
  have hmax : ∀ {k : Nat}, k = max r.maxIndex i → (k : Int) = max (r.maxIndex : Int) i := by omega
  cases type with
  | alloc =>
    obtain ⟨n, rfl, hn, hn'⟩ : ∃ n, size = some n ∧ 0 ≤ n ∧ n < 2 ^ 31 := hsize
    obtain ⟨n, rfl⟩ := Int.eq_ofNat_of_zero_le hn
    obtain ⟨r', hws, hops, hk, hrun⟩ :=
      readLines_request path numOps fuel (.inl ⟨rfl, rfl⟩) hi (by omega) h
    exact ⟨r', hws, hops, hmax hk, hrun⟩
  | realloc =>
    obtain ⟨n, rfl, hn, hn'⟩ : ∃ n, size = some n ∧ 0 ≤ n ∧ n < 2 ^ 31 := hsize
    obtain ⟨n, rfl⟩ := Int.eq_ofNat_of_zero_le hn
    obtain ⟨r', hws, hops, hk, hrun⟩ :=
      readLines_request path numOps fuel (.inr ⟨rfl, rfl⟩) hi (by omega) h
    exact ⟨r', hws, hops, hmax hk, hrun⟩
  | free =>
    obtain rfl : size = none := hsize
    obtain ⟨r', hws, hops, hk, hrun⟩ := readLines_release path numOps fuel hi h
    exact ⟨r', hws, hops, congrArg _ hk, hrun⟩

/-! ## The whole file -/

/-- The largest id, one request further. -/
theorem greatest_line {k : Int}
    (h : IsGreatest (insert (if op.type = .free then k else max k op.index) (allocated ops)) m) :
    IsGreatest (insert k (allocated (op :: ops))) m := by
  obtain ⟨hmem, hle⟩ := h
  have hhead : op.type ≠ .free → op.index ∈ allocated (op :: ops) := fun hop =>
    ⟨op, List.mem_cons_self, hop, rfl⟩
  have htail : ∀ n ∈ allocated ops, n ∈ allocated (op :: ops) := fun n ⟨o, ho, hn⟩ =>
    ⟨o, List.mem_cons_of_mem op ho, hn⟩
  constructor
  · rcases hmem with rfl | hmem
    · split
      · exact Set.mem_insert k _
      · next hop =>
        rcases le_total k op.index with hmax | hmax
        · rw [max_eq_right hmax]
          exact Set.mem_insert_of_mem k (hhead hop)
        · rw [max_eq_left hmax]
          exact Set.mem_insert k _
    · exact Set.mem_insert_of_mem k (htail m hmem)
  · have hfirst := hle (Set.mem_insert _ _)
    rintro n (rfl | ⟨o, ho, hop, rfl⟩)
    · split at hfirst
      · exact hfirst
      · exact (le_max_left _ _).trans hfirst
    · rcases List.mem_cons.mp ho with rfl | ho
      · rw [if_neg hop] at hfirst
        exact (le_max_right _ _).trans hfirst
      · exact hle (Set.mem_insert_of_mem _ ⟨o, ho, hop, rfl⟩)

theorem readLines_words (hroom : (r.ops.length : Int) ≤ numOps) (hw : ∀ op ∈ ops, op.Writable)
    (h : Text.words isspace r.rest = ops.flatMap TraceLine.words) (hfuel : ops.length < fuel) :
    (numOps < r.ops.length + ops.length → readLines path numOps fuel r = none) ∧
      (r.ops.length + ops.length ≤ numOps → ∃ r', readLines path numOps fuel r = some (.ok r') ∧
        r'.ops = r.ops ++ ops ∧ IsGreatest (insert (r.maxIndex : Int) (allocated ops)) r'.maxIndex) := by
  induction ops generalizing r fuel with
  | nil =>
    refine ⟨fun hover => ?_, fun _ => ⟨r, ?_, (List.append_nil _).symm, Or.inl rfl, ?_⟩⟩
    · simp only [List.length_nil] at hover
      omega
    · cases fuel with
      | zero => cases hfuel
      | succ fuel => rw [readLines, word_none h]
    · rintro n (rfl | ⟨o, ho, -⟩)
      · exact le_refl _
      · cases ho
  | cons op ops ih =>
    cases fuel with
    | zero => cases hfuel
    | succ fuel =>
      obtain ⟨r', hws, hops, hmax, hrun⟩ :=
        readLines_line path numOps fuel (hw op List.mem_cons_self) h
      have hlen : (r'.ops.length : Int) = r.ops.length + 1 := by simp [hops]
      rw [hrun, List.length_cons]
      by_cases hfits : (r.ops.length : Int) < numOps
      · obtain ⟨hover, hend⟩ := ih (by omega) (fun o ho => hw o (List.mem_cons_of_mem op ho)) hws
          (Nat.lt_of_succ_lt_succ hfuel)
        rw [if_pos hfits]
        refine ⟨fun h => hover (by omega), fun h => ?_⟩
        obtain ⟨r'', hrun', hops', hgreat⟩ := hend (by omega)
        rw [hmax] at hgreat
        refine ⟨r'', hrun', ?_, greatest_line hgreat⟩
        rw [hops', hops, List.append_assoc]
        rfl
      · rw [if_neg hfits]
        exact ⟨fun _ => rfl, fun h => absurd h (by omega)⟩

theorem length_le_words (ops : List TraceLine) : ops.length ≤ (ops.flatMap TraceLine.words).length := by
  induction ops with
  | nil => exact Nat.le_refl 0
  | cons op ops ih =>
    have hpos : 0 < op.words.length := by
      unfold TraceLine.words
      split <;> exact Nat.succ_pos _
    rw [List.flatMap_cons, List.length_append, List.length_cons]
    omega

theorem readFile_words (hserves : libc.Serves t) (hheader : t.Header)
    (hw : ∀ op ∈ t.ops, op.Writable) (htext : Text.words isspace text = t.words)
    (hm : IsGreatest (insert 0 (allocated t.ops)) m) :
    readFile libc path t.traceName text =
      if t.numOps < t.ops.length then none
      else if m ≠ t.numIds - 1 then some (.error (.assert "(int)max_index == trace->num_ids - 1"))
      else if (t.ops.length : Int) ≠ t.numOps then
        some (.error (.assert "(int)op_index == trace->num_ops"))
      else some (.ok t) := by
  obtain ⟨-, h₂, h₃, h₄⟩ := hserves
  obtain ⟨⟨sugg, hsugg, hsugg'⟩, hids, ⟨hops, hops'⟩, ⟨weight, hweight, hweight'⟩⟩ := hheader
  obtain ⟨s₁, hint₁, hs₁⟩ := int_numeral hsugg'.1 hsugg'.2 (by rw [htext, Trace.words, hsugg]; rfl)
  obtain ⟨s₂, hint₂, hs₂⟩ := int_numeral hids.1 hids.2 hs₁
  obtain ⟨s₃, hint₃, hs₃⟩ := int_numeral hops.1 hops.2 hs₂
  obtain ⟨s₄, hint₄, hs₄⟩ := int_numeral hweight'.1 hweight'.2 (by rw [hs₃, hweight]; rfl)
  have hfuel : t.ops.length < s₄.length + 1 := by
    have hwords := length_le_words t.ops
    rw [← hs₄] at hwords
    exact Nat.lt_succ_of_le (hwords.trans words_length_le)
  obtain ⟨hover, hend⟩ := readLines_words (r := ⟨s₄, 0, none, 0, []⟩) hops' hw hs₄ hfuel
  have hrun : readFile libc path t.traceName text =
      (readLines path t.numOps (s₄.length + 1) ⟨s₄, 0, none, 0, []⟩).map
        fun x => x.bind (checkCounts { t with ops := [] }) := by
    rw [readFile]
    simp only [hint₁, hint₂, hint₃, hint₄, Option.bind_eq_bind, Option.bind_some, h₂, h₃, h₄,
      Bool.true_eq_false, if_false]
    cases readLines path t.numOps (s₄.length + 1) ⟨s₄, 0, none, 0, []⟩ with
    | none => rfl
    | some x =>
      cases x with
      | error e => rfl
      | ok r => simp only [Option.bind_some, Option.pure_def, Option.map_some, Except.bind, hsugg, hweight]
  have hzero : (([] : List TraceLine).length : Int) + t.ops.length = t.ops.length := Int.zero_add _
  rw [hrun]
  simp only [hzero, List.nil_append] at hover hend
  split
  · next h => rw [hover h, Option.map_none]
  · next h =>
    obtain ⟨r, hlines, hr, hmax⟩ := hend (by omega)
    obtain rfl : m = r.maxIndex := hm.unique hmax
    have hlt : r.maxIndex < 2 ^ 31 := by
      rcases hmax.1 with hzero | ⟨op, ho, -, hop⟩
      · omega
      · have := (hw op ho).index.2
        omega
    have hcount : t.ops.length < 2 ^ 31 := by
      have := hops.2
      omega
    rw [hlines, Option.map_some, Except.bind, checkCounts, asInt_of_lt hlt, hr, asInt_of_lt hcount]
    split
    · rfl
    · split <;> rfl

theorem readTrace_open (hopen : libc.fopen (tracedir ++ path) = some text)
    (hpath : (tracedir ++ path).length < maxLine) (hmalloc : libc.malloc 1 1064 = true) :
    readTrace libc tracedir path = readFile libc (tracedir ++ path) path text := by
  rw [readTrace]
  simp only [hmalloc, Bool.true_eq_false, if_false, if_neg (Nat.not_le.mpr hpath), hopen]

/-- **A trace file is read as it is written**, with any white space between the words. It is
accepted exactly when the second number in front is one more than the largest id, or than 0,
and the third is the number of requests; too many requests are stored behind the end of the
array before anything is checked. No id that is freed is looked at. -/
theorem readTrace_words (hopen : libc.fopen (tracedir ++ t.traceName) = some text)
    (hpath : (tracedir ++ t.traceName).length < maxLine) (hserves : libc.Serves t)
    (hheader : t.Header) (hw : ∀ op ∈ t.ops, op.Writable) (htext : Text.words isspace text = t.words)
    (hm : IsGreatest (insert 0 (allocated t.ops)) m) :
    readTrace libc tracedir t.traceName =
      if t.numOps < t.ops.length then none
      else if m ≠ t.numIds - 1 then some (.error (.assert "(int)max_index == trace->num_ids - 1"))
      else if (t.ops.length : Int) ≠ t.numOps then
        some (.error (.assert "(int)op_index == trace->num_ops"))
      else some (.ok t) := by
  rw [readTrace_open hopen hpath hserves.1]
  exact readFile_words hserves hheader hw htext hm

/-- Two blocks of which one is given back. -/
def twoBlocks : Trace where
  traceName := "two.rep".toList
  suggHeapsize := some 20000
  numIds := 2
  numOps := 3
  weight := some 1
  ops := [⟨.alloc, 0, some 24⟩, ⟨.alloc, 1, some 8⟩, ⟨.free, 0, none⟩]

/-- A library with one file. -/
def oneFile (path text : String) : Libc where
  fopen p := if p = path.toList then some text.toList else none
  malloc _ n := n < 2 ^ 31
  strerror := "No such file or directory"

theorem twoBlocks_header : twoBlocks.Header where
  suggHeapsize := ⟨20000, rfl, by decide, by decide⟩
  numIds := ⟨by decide, by decide⟩
  numOps := ⟨⟨by decide, by decide⟩, by decide⟩
  weight := ⟨1, rfl, by decide, by decide⟩

theorem twoBlocks_writable : ∀ op ∈ twoBlocks.ops, op.Writable := by
  rintro op (_ | ⟨_, _ | ⟨_, _ | ⟨_, _ | _⟩⟩⟩)
  · exact ⟨⟨by decide, by decide⟩, 24, rfl, by decide, by decide⟩
  · exact ⟨⟨by decide, by decide⟩, 8, rfl, by decide, by decide⟩
  · exact ⟨⟨by decide, by decide⟩, rfl⟩

theorem twoBlocks_greatest : IsGreatest (insert 0 (allocated twoBlocks.ops)) 1 := by
  refine ⟨Or.inr ⟨⟨.alloc, 1, some 8⟩, by decide, by decide, rfl⟩, ?_⟩
  rintro n (rfl | ⟨op, hop, -, rfl⟩)
  · decide
  · revert op
    decide

def twoText : String := "20000\n2\n3\n1\na 0 24\n\ta 1 8\nf 0\n"

theorem twoBlocks_words : Text.words isspace twoText.toList = twoBlocks.words := by
  decide +kernel

theorem twoBlocks_read :
    readTrace (oneFile "traces/two.rep" twoText) "traces/".toList twoBlocks.traceName =
      some (.ok twoBlocks) :=
  have hopen : (oneFile "traces/two.rep" twoText).fopen ("traces/".toList ++ twoBlocks.traceName) =
      some twoText.toList := by decide +kernel
  (readTrace_words hopen (by decide +kernel) ⟨by decide, by decide, by decide, by decide⟩
    twoBlocks_header twoBlocks_writable twoBlocks_words twoBlocks_greatest).trans rfl

/-! ## What is accepted -/

/-- What holds of the requests that have been read, whatever is in the file. -/
structure Reading.Sound (r : Reading) (numOps : Int) : Prop where
  room : r.ops = [] ∨ (r.ops.length : Int) ≤ numOps
  sized : ∀ op ∈ r.ops, op.size.isSome = decide (op.type ≠ .free)
  index : r.index < 2 ^ 32
  small : r.maxIndex < 2 ^ 32
  bound : ∀ op ∈ r.ops, op.type ≠ .free → ∃ k ≤ r.maxIndex, op.index = asInt k
  attained : r.maxIndex = 0 ∨ ∃ op ∈ r.ops, op.type ≠ .free ∧ op.index = asInt r.maxIndex

/-- The conversions touch nothing but the stream and the two variables. -/
structure Reading.Same (r r' : Reading) : Prop where
  ops : r'.ops = r.ops
  maxIndex : r'.maxIndex = r.maxIndex
  index : r.index < 2 ^ 32 → r'.index < 2 ^ 32

theorem Reading.pair_same (h : r.pair = some r') : r.Same r' := by
  unfold Reading.pair at h
  obtain ⟨⟨index, rest⟩, hindex, h⟩ := Option.bind_eq_some_iff.mp h
  cases index with
  | none =>
    cases h
    exact ⟨rfl, rfl, id⟩
  | some index =>
    have hlt := unsigned_lt hindex
    obtain ⟨⟨size, rest'⟩, -, h⟩ := Option.bind_eq_some_iff.mp h
    cases size <;>
    · cases h
      exact ⟨rfl, rfl, fun _ => hlt⟩

theorem Reading.single_same (h : r.single = some r') : r.Same r' := by
  unfold Reading.single at h
  obtain ⟨⟨index, rest⟩, hindex, h⟩ := Option.bind_eq_some_iff.mp h
  cases index with
  | none =>
    cases h
    exact ⟨rfl, rfl, id⟩
  | some index =>
    have hlt := unsigned_lt hindex
    split at h
    · next heq =>
      cases heq
    · next heq =>
      cases heq
      cases h
      exact ⟨rfl, rfl, fun _ => hlt⟩
    · next heq =>
      cases heq
      cases h
      exact ⟨rfl, rfl, fun _ => hlt⟩

theorem Reading.store_some (h : r.store numOps op = some r') :
    (r.ops.length : Int) < numOps ∧ r' = { r with ops := r.ops ++ [op] } := by
  unfold Reading.store at h
  split at h
  · next hroom =>
    cases h
    exact ⟨hroom, rfl⟩
  · cases h

/-- One request more. -/
theorem Reading.Sound.push {k : Nat} (type : OpType) (size : Option Int) (hr : r.Sound numOps)
    (hsame : r.Same r') (hroom : (r'.ops.length : Int) < numOps)
    (hsize : size.isSome = decide (type ≠ .free))
    (hk : k = if type = .free then r'.maxIndex else max r'.maxIndex r'.index) :
    Reading.Sound ⟨r'.rest, r'.index, r'.size, k, r'.ops ++ [⟨type, asInt r'.index, size⟩]⟩ numOps := by
  have hindex := hsame.index hr.index
  rw [hsame.maxIndex] at hk
  have hk' : r.maxIndex ≤ k ∧ (k = r.maxIndex ∨ type ≠ .free ∧ k = r'.index) := by
    split at hk
    · exact ⟨hk.ge, Or.inl hk⟩
    · next htype =>
      rcases le_total r.maxIndex r'.index with hle | hle
      · rw [max_eq_right hle] at hk
        exact ⟨hk ▸ hle, Or.inr ⟨htype, hk⟩⟩
      · rw [max_eq_left hle] at hk
        exact ⟨hk.ge, Or.inl hk⟩
  obtain ⟨hle, hk'⟩ := hk'
  refine ⟨Or.inr ?_, fun op hop => ?_, hindex, ?_, fun op hop hfree => ?_, ?_⟩
  · rw [List.length_append, List.length_singleton]
    omega
  · rw [hsame.ops] at hop
    rcases List.mem_append.mp hop with hop | hop
    · exact hr.sized op hop
    · obtain rfl := List.mem_singleton.mp hop
      exact hsize
  · rcases hk' with rfl | ⟨-, rfl⟩
    · exact hr.small
    · exact hindex
  · rw [hsame.ops] at hop
    rcases List.mem_append.mp hop with hop | hop
    · obtain ⟨j, hj, hindex⟩ := hr.bound op hop hfree
      exact ⟨j, hj.trans hle, hindex⟩
    · obtain rfl := List.mem_singleton.mp hop
      rw [if_neg hfree] at hk
      exact ⟨r'.index, hk ▸ le_max_right _ _, rfl⟩
  · rcases hk' with rfl | ⟨htype, rfl⟩
    · refine hr.attained.imp_right fun ⟨op, hop, h⟩ => ⟨op, ?_, h⟩
      exact List.mem_append_left _ (hsame.ops ▸ hop)
    · exact Or.inr ⟨_, List.mem_append_right _ (List.mem_singleton.mpr rfl), htype, rfl⟩

theorem Reading.Sound.request {type : OpType} (htype : type ≠ .free) (hr : r.Sound numOps)
    (h : r.request numOps type = some r') : r'.Sound numOps := by
  unfold Reading.request at h
  obtain ⟨r₁, hpair, h⟩ := Option.bind_eq_some_iff.mp h
  obtain ⟨size, -, h⟩ := Option.bind_eq_some_iff.mp h
  obtain ⟨r₂, hstore, h⟩ := Option.bind_eq_some_iff.mp h
  obtain ⟨hroom, rfl⟩ := Reading.store_some hstore
  cases h
  have hk : (if r₁.index > r₁.maxIndex then r₁.index else r₁.maxIndex) =
      if type = .free then r₁.maxIndex else max r₁.maxIndex r₁.index := by
    rw [if_neg htype]
    split <;> omega
  exact hr.push type _ (Reading.pair_same hpair) hroom (decide_eq_true htype).symm hk

theorem Reading.Sound.release (hr : r.Sound numOps) (h : r.release numOps = some r') :
    r'.Sound numOps := by
  unfold Reading.release at h
  obtain ⟨r₁, hsingle, hstore⟩ := Option.bind_eq_some_iff.mp h
  obtain ⟨hroom, rfl⟩ := Reading.store_some hstore
  exact hr.push .free none (Reading.single_same hsingle) hroom rfl rfl

theorem readLines_sound (hr : r.Sound numOps) (h : readLines path numOps fuel r = some (.ok r')) :
    r'.Sound numOps := by
  induction fuel generalizing r with
  | zero => cases h
  | succ fuel ih =>
    rw [readLines] at h
    split at h
    · cases h
      exact hr
    · next type rest hword =>
      have hr' : Reading.Sound { r with rest } numOps :=
        ⟨hr.room, hr.sized, hr.index, hr.small, hr.bound, hr.attained⟩
      split at h
      · cases h
      · simp only at h
        split at h
        · obtain ⟨r₁, hreq, h⟩ := Option.bind_eq_some_iff.mp h
          exact ih (.request (by decide) hr' hreq) h
        · obtain ⟨r₁, hreq, h⟩ := Option.bind_eq_some_iff.mp h
          exact ih (.request (by decide) hr' hreq) h
        · obtain ⟨r₁, hrel, h⟩ := Option.bind_eq_some_iff.mp h
          exact ih (hr'.release hrel) h
        · cases h

/-- A trace that is returned has been read from a file with as many requests as it says. -/
theorem readFile_ok (h : readFile libc path tracedir text = some (.ok t)) :
    ∃ s r, IsInt t.numOps ∧
      readLines path t.numOps (s.length + 1) ⟨s, 0, none, 0, []⟩ = some (.ok r) ∧
      t.ops = r.ops ∧ asInt r.maxIndex = t.numIds - 1 ∧ asInt r.ops.length = t.numOps := by
  unfold readFile at h
  obtain ⟨⟨sugg, s₁⟩, -, h⟩ := Option.bind_eq_some_iff.mp h
  obtain ⟨⟨ids, s₂⟩, -, h⟩ := Option.bind_eq_some_iff.mp h
  obtain ⟨⟨num, s₃⟩, hnum, h⟩ := Option.bind_eq_some_iff.mp h
  obtain ⟨⟨weight, s₄⟩, -, h⟩ := Option.bind_eq_some_iff.mp h
  obtain ⟨numOps, hops, h⟩ := Option.bind_eq_some_iff.mp h
  obtain ⟨numIds, -, h⟩ := Option.bind_eq_some_iff.mp h
  rw [hops] at hnum
  split at h
  · cases h
  split at h
  · cases h
  split at h
  · cases h
  obtain ⟨x, hlines, h⟩ := Option.bind_eq_some_iff.mp h
  cases x with
  | error e => cases h
  | ok r =>
    have hcounts := Option.some.inj h
    unfold checkCounts at hcounts
    split at hcounts
    · cases hcounts
    · next hmax =>
      split at hcounts
      · cases hcounts
      · next hlen =>
        cases hcounts
        exact ⟨s₄, r, int_bounds hnum, hlines, rfl, not_not.mp hmax, not_not.mp hlen⟩

theorem readTrace_ok (h : readTrace libc tracedir path = some (.ok t)) :
    ∃ text, readFile libc (tracedir ++ path) path text = some (.ok t) := by
  unfold readTrace at h
  split at h
  · cases h
  · simp only at h
    split at h
    · cases h
    · split at h
      · next text _ => exact ⟨text, h⟩
      · split at h <;> cases h

/-- **What is accepted.** A trace that `read_trace` returns has the number of requests that it
says, a size with each request that is not a `FREE`, and, if it says that it has ids at all, only
ids below that number in these; and unless it says 1, the largest of them is in use. -/
theorem readTrace_accepts (h : readTrace libc tracedir path = some (.ok t)) :
    (t.ops.length : Int) = t.numOps ∧
      (∀ op ∈ t.ops, op.size.isSome = decide (op.type ≠ .free)) ∧
      (0 < t.numIds → ∀ op ∈ t.ops, op.type ≠ .free → 0 ≤ op.index ∧ op.index < t.numIds) ∧
      (t.numIds ≠ 1 → ∃ op ∈ t.ops, op.type ≠ .free ∧ op.index = t.numIds - 1) := by
  obtain ⟨text, hfile⟩ := readTrace_ok h
  obtain ⟨s, r, hops, hlines, hr, hmax, hlen⟩ := readFile_ok hfile
  have hstart : Reading.Sound ⟨s, 0, none, 0, []⟩ t.numOps :=
    ⟨.inl rfl, fun op hop => absurd hop List.not_mem_nil, Nat.two_pow_pos 32, Nat.two_pow_pos 32,
      fun op hop => absurd hop List.not_mem_nil, .inl rfl⟩
  have hsound : r.Sound t.numOps := readLines_sound hstart hlines
  have hcount : (r.ops.length : Int) = t.numOps := by
    rcases hsound.room with hnil | hle
    · rw [hnil] at hlen ⊢
      exact hlen
    · have hlt : r.ops.length < 2 ^ 31 := by
        have := hops.2
        omega
      rw [← hlen, asInt_of_lt hlt]
  have hids : asInt r.maxIndex = if r.maxIndex < 2 ^ 31 then (r.maxIndex : Int) else r.maxIndex - 2 ^ 32 :=
    asInt_eq hsound.small
  rw [hr]
  refine ⟨hcount, hsound.sized, fun hpos op hop hfree => ?_, fun hone => ?_⟩
  · obtain ⟨k, hk, hindex⟩ := hsound.bound op hop hfree
    have hsmall := hsound.small
    split at hids
    · rw [hindex, asInt_of_lt (by omega)]
      omega
    · omega
  · rcases hsound.attained with hzero | ⟨op, hop, hfree, hindex⟩
    · rw [hzero] at hids hmax
      rw [if_pos (Nat.two_pow_pos 31)] at hids
      omega
    · exact ⟨op, hop, hfree, hindex.trans hmax⟩

/-- No weight, a word for a letter, a sign, and an id that is freed but was never there. -/
theorem odd_accepted : ∃ t, readTrace (oneFile "odd.rep" "7 2 2 abc +1 4 f 9999") [] "odd.rep".toList =
      some (.ok t) ∧
    (t.ops.length : Int) = t.numOps ∧
      (∀ op ∈ t.ops, op.size.isSome = decide (op.type ≠ .free)) ∧
      (0 < t.numIds → ∀ op ∈ t.ops, op.type ≠ .free → 0 ≤ op.index ∧ op.index < t.numIds) ∧
      (t.numIds ≠ 1 → ∃ op ∈ t.ops, op.type ≠ .free ∧ op.index = t.numIds - 1) :=
  have h : readTrace (oneFile "odd.rep" "7 2 2 abc +1 4 f 9999") [] "odd.rep".toList =
      some (.ok ⟨"odd.rep".toList, some 7, 2, 2, none, [⟨.alloc, 1, some 4⟩, ⟨.free, 9999, none⟩]⟩) := by
    decide +kernel
  ⟨_, h, readTrace_accepts h⟩

end CourseProjects.Malloc

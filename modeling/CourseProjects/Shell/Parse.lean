import CourseProjects.Lib.Text

/-!
# The parser of the shell

A buffer is the list of its characters, and a read outside it has no result.
`strcmp` is only compared with 0, which is equality of the C strings.
-/

namespace CourseProjects.Shell

open Text

def nul : Char :=
  Char.ofNat 0

/-- The C string at a position of a buffer. -/
def cstring (str : List Char) (c : Nat) : Option (List Char) :=
  let rest := str.drop c
  if nul ∈ rest then some (rest.takeWhile (· ≠ nul)) else none

/-- First loop of `find_next`. -/
def skipString (str : List Char) (len : Nat) : Nat → Nat → Option Nat
  | 0, _ => none
  | fuel + 1, c =>
    if c ≤ len then do
      let a ← str[c]?
      if a ≠ nul then skipString str len fuel (c + 1) else return c
    else return c

/-- Second loop of `find_next`, and the loop of `parse` before the first string. -/
def skipNulls (str : List Char) (len : Nat) : Nat → Nat → Option Nat
  | 0, _ => none
  | fuel + 1, c => do
    let a ← str[c]?
    if a = nul ∧ c ≤ len then skipNulls str len fuel (c + 1) else return c

def findNext (fuel : Nat) (str : List Char) (c len : Nat) : Option Nat := do
  let c ← skipString str len fuel c
  skipNulls str len fuel c

/-- What `parse` reads and writes through its pointers, and the message of its
`perror` call. -/
structure Parsed where
  str : List Char
  iname : List Char
  oname : List Char
  iflag : Int
  oflag : Int
  aflag : Int
  narg : Int
  argc : Nat → Nat
  error : Option String

/-- The `for` loop of `parse` ends with `i` at the end of the line. -/
def nullSpaces : Nat → Parsed → Nat → Bool → Option (Parsed × Nat)
  | 0, _, _, _ => none
  | fuel + 1, st, i, flip => do
    let a ← st.str[i]?
    if a = nul then return (st, i)
    else if isspace a = true then nullSpaces fuel { st with str := st.str.set i nul } (i + 1) false
    else if flip = false then nullSpaces fuel { st with narg := st.narg + 1 } (i + 1) true
    else nullSpaces fuel st (i + 1) true

/-- A redirection stops the parser or leaves it at its file name. -/
inductive Redirected
  | syntaxError (st : Parsed)
  | named (c : Nat) (st : Parsed)

def appendSymbol : List Char :=
  ['>', '>']

def outputSymbol : List Char :=
  ['>']

def inputSymbol : List Char :=
  ['<']

/-- The branches for an output file; `reject` is the test of its name. -/
def redirectOutput (fuel len : Nat) (flag : Int) (multiple : String) (reject : List Char → Bool)
    (c : Nat) (st : Parsed) : Option Redirected :=
  if st.oflag ≠ 0 then return .syntaxError { st with error := some multiple }
  else do
    let st := { st with oflag := flag, narg := st.narg - 2 }
    let c ← findNext fuel st.str c len
    let oname ← cstring st.str c
    let st := { st with oname := oname }
    if reject oname = true then
      return .syntaxError { st with
        error := some "syntax error: output file is a redirection symbol\n" }
    else if oname = [] then
      return .syntaxError { st with error := some "syntax error: no output file\n" }
    else return .named c st

def redirectAppend (fuel len c : Nat) (st : Parsed) : Option Redirected :=
  redirectOutput fuel len 2 "syntax error: multiple output file\n"
    (fun oname => oname = appendSymbol ∨ oname = outputSymbol ∨ oname = inputSymbol) c st

def redirectTruncate (fuel len c : Nat) (st : Parsed) : Option Redirected :=
  redirectOutput fuel len 1 "syntax error: multiple output files\n"
    (fun oname => oname = appendSymbol ∧ oname = outputSymbol ∧ oname = inputSymbol) c st

def redirectInput (fuel len c : Nat) (st : Parsed) : Option Redirected :=
  if st.iflag ≠ 0 then
    return .syntaxError { st with error := some "syntax error: multiple input files\n" }
  else do
    let st := { st with iflag := 3, narg := st.narg - 2 }
    let c ← findNext fuel st.str c len
    let iname ← cstring st.str c
    let st := { st with iname := iname }
    if iname = appendSymbol ∧ iname = outputSymbol ∧ iname = inputSymbol then
      return .syntaxError { st with
        error := some "syntax error: input file is a redirection symbol\n" }
    else if iname = [] then
      return .syntaxError { st with error := some "syntax error: no input file\n" }
    else return .named c st

/-- The test for a trailing `&` moves on to the next string. -/
def ampersand (fuel len c index : Nat) (st : Parsed) : Option (Nat × Parsed) := do
  let s ← cstring st.str c
  if s = ['&'] ∧ (index : Int) + 1 = st.narg then
    let c ← findNext fuel st.str c len
    return (c, { st with narg := st.narg - 1, aflag := st.aflag + 1 })
  else return (c, st)

/-- The redirection at `c`, if there is one. -/
def redirect (fuel len c : Nat) (st : Parsed) : Option (Option Redirected) := do
  let s ← cstring st.str c
  if s = appendSymbol then some <$> redirectAppend fuel len c st
  else if s = outputSymbol then some <$> redirectTruncate fuel len c st
  else if s = inputSymbol then some <$> redirectInput fuel len c st
  else return none

def parseLoop (fuel len : Nat) : Nat → Nat → Nat → Parsed → Option (Int × Parsed)
  | 0, _, _, _ => none
  | n + 1, c, index, st => do
    let a ← st.str[c]?
    if a = nul then return (1, st)
    let (c, st) ← ampersand fuel len c index st
    match ← redirect fuel len c st with
    | some (.syntaxError st) => return (-1, st)
    | some (.named c st) =>
      let c ← findNext fuel st.str c len
      parseLoop fuel len n c index st
    | none =>
      let st := { st with argc := fun k => if k = index then c else st.argc k }
      let c ← findNext fuel st.str c len
      parseLoop fuel len n c (index + 1) st

/-- Every loop may take `fuel` rounds. -/
def parse (fuel : Nat) (st : Parsed) : Option (Int × Parsed) := do
  let (st, i) ← nullSpaces fuel st 0 false
  if st.narg = 0 then return (-1, st)
  let c ← skipNulls st.str i fuel 0
  parseLoop fuel i fuel c 0 st

/-- The call in `repl`, with the flags and counts zero. -/
def callParse (fuel : Nat) (str iname oname : List Char) (argc : Nat → Nat) :
    Option (Int × Parsed) :=
  parse fuel ⟨str, iname, oname, 0, 0, 0, 0, argc, none⟩

end CourseProjects.Shell

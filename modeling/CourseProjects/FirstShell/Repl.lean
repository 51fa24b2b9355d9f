import CourseProjects.FirstShell.Reading
import CourseProjects.Lib.Descriptors

/-!
# The loop of the first shell

The shell opens the files of a redirection in its own descriptors, runs the
command and copies its own files back. What the kernel answers to a call is in
the input of the round. A line without a word makes `repl` read `argc[0]`, which
is then outside the array, and has no round.
-/

namespace CourseProjects.FirstShell

open Shell Text Descriptors

/-- An open file: one that the shell was started with, or one that `redir` opened. -/
inductive File
  | inherited (n : Nat)
  | opened (fname : Token) (flag : Int)
  deriving DecidableEq

abbrev Fds := Table File

def dupError : String :=
  "dup2: Couldn't duplicate new file descriptor\n"

/-- The end of `redir`: its result, the descriptors and what it prints. -/
def duplicate (fds : Fds) (tempfd fd : Nat) (duped : Bool) : Nat × Fds × List String :=
  match if duped then fds.dup2 tempfd fd else none with
  | some fds => (tempfd, fds, [])
  | none => (fd, fds, [dupError])

def redir (fds : Fds) (fname : Token) (fd : Nat) (flag : Int) (opened duped : Bool) :
    Nat × Fds × List String :=
  if flag = 1 ∨ flag = 2 ∨ flag = 3 then
    if opened then
      let (tempfd, fds) := fds.openFile (.opened fname flag)
      duplicate fds tempfd fd duped
    else (fd, fds, ["open: Couldn't open the file\n"])
  else
    let (fd, fds, messages) := duplicate fds 0 fd duped
    (fd, fds, "error" :: messages)

/-! ## Commands -/

inductive Command
  | cd (path : Token)
  | rm (path : Token)
  | ln (source target : Token)
  | exit
  | execv (argv : List Token)
  | refuse (message : String)
  deriving DecidableEq

/-- An element of `argc` inside the array. -/
def argument (out : Parsed) (k : Nat) : Option Token :=
  if k < out.narg.toNat then cstring out.str (out.argc k) else none

/-- The comparisons with the names of the commands. -/
def commandOf (out : Parsed) : Option Command := do
  let name ← argument out 0
  if name = "cd".toList then
    if out.narg > 1 then return .cd (← argument out 1)
    else return .refuse "cd: syntax error\n"
  else if name = "rm".toList then
    if out.narg = 2 then return .rm (← argument out 1)
    else return .refuse "rm: syntax error\n"
  else if name = "ln".toList then
    if out.narg = 3 then return .ln (← argument out 1) (← argument out 2)
    else return .refuse "ln: syntax error\n"
  else if name = "exit".toList then
    if out.narg = 1 then return .exit
    else return .refuse "exit: syntax error\n"
  else return .execv (← arguments out out.narg.toNat)

/-- What the shell prints about a command; `failed` when its system call fails. -/
def Command.messages (failed : Bool) : Command → List String
  | .cd _ => if failed then ["cd: No such file or directory\n"] else []
  | .rm _ => if failed then ["rm: No such file or directory\n"] else []
  | .ln _ _ => if failed then ["ln: No such file or directory\n"] else []
  | .exit => []
  | .execv _ => if failed then ["fork: "] else []
  | .refuse message => [message]

/-! ## The loop -/

/-- The answers of the kernel; `failed` is that to the call of the command, which is `fork`
for a program. -/
structure Answers where
  openInput : Bool
  dupInput : Bool
  openOutput : Bool
  dupOutput : Bool
  failed : Bool
  restoreOutput : Bool
  restoreInput : Bool

inductive Input
  | endOfInput
  | line (buf iname oname : List Char) (argc : Nat → Nat) (answers : Answers)

/-- The variables of `repl` that live as long as the shell. -/
structure Repl where
  fds : Fds
  stdin : Option Nat
  stdout : Option Nat
  ended : Bool

/-- The command of a round, the descriptors that it finds, and what is printed: by `redir`,
and by the shell about the line or the command. -/
structure Round where
  command : Option Command
  fds : Fds
  redirMessages : List String
  messages : List String

/-- A copy of a descriptor, if there is one. -/
def saved (fds : Fds) (fd : Nat) : Option Nat × Fds :=
  match fds.dup fd with
  | some (copy, fds) => (some copy, fds)
  | none => (none, fds)

def start (fds : Fds) : Repl :=
  let (stdin, fds) := saved fds 0
  let (stdout, fds) := saved fds 1
  ⟨fds, stdin, stdout, false⟩

/-- The redirections of a line: `ifd`, `ofd`, the descriptors and what is printed. -/
def redirections (fds : Fds) (out : Parsed) (answers : Answers) : Nat × Nat × Fds × List String :=
  let (ifd, fds, before) :=
    if out.iflag ≠ 0 then redir fds out.iname 0 out.iflag answers.openInput answers.dupInput
    else (0, fds, [])
  let (ofd, fds, after) :=
    if out.oflag = 1 ∨ out.oflag = 2 then
      redir fds out.oname 1 out.oflag answers.openOutput answers.dupOutput
    else (1, fds, [])
  (ifd, ofd, fds, before ++ after)

/-- The way back to the file of the shell. -/
def restore (fds : Fds) (saved : Option Nat) (fd tempfd : Nat) (answered : Bool) : Fds :=
  if tempfd ≠ fd then
    let back := if answered then saved.bind fun copy => fds.dup2 copy fd else none
    (back.getD fds).close tempfd
  else fds

def round (s : Repl) : Input → Option (Round × Repl)
  | .endOfInput =>
    if s.ended then none else some (⟨none, s.fds, [], []⟩, { s with ended := true })
  | .line buf iname oname argc answers =>
    if s.ended then none
    else do
      let (ret, out) ← callParse buf.length buf iname oname argc
      if ret = -1 then return (⟨none, s.fds, [], out.error.toList⟩, s)
      else
        let (ifd, ofd, fds, messages) := redirections s.fds out answers
        let command ← commandOf out
        let round := ⟨some command, fds, messages, command.messages answers.failed⟩
        match command, answers.failed with
        | .exit, _ => return (round, { s with fds := fds, ended := true })
        | .execv _, true => return (round, { s with fds := fds, ended := true })
        | _, _ =>
          let fds := restore fds s.stdout 1 ofd answers.restoreOutput
          let fds := restore fds s.stdin 0 ifd answers.restoreInput
          return (round, { s with fds := fds })

/-- The rounds of a shell, one for each input. -/
def run (s : Repl) : List Input → Option (List Round × Repl)
  | [] => some ([], s)
  | input :: inputs => do
    let (round, s) ← round s input
    let (rounds, s) ← run s inputs
    return (round :: rounds, s)

/-! ## The meaning of a line -/

/-- The file at a descriptor that a redirection may replace. -/
def shown (redirected : Option (Int × Token)) (opened duped : Bool) (file : Option File) :
    Option File :=
  match redirected, opened, duped with
  | some (flag, fname), true, true => some (.opened fname flag)
  | _, _, _ => file

end CourseProjects.FirstShell

import CourseProjects.Lib.Transition
import CourseProjects.Shell.Jobs

/-!
# Job control

The shell between two system calls takes one step; its children exit, are
killed, stop and continue at any time. A child stays in the kernel until
`waitpid` reports its termination. `repl` reaches a call for a command with at
least one word, since it reads `argc[0]` first; the value behind the last entry
of `argc` is not specified.
-/

namespace CourseProjects.Shell

open CInt (intMax)
open Transition

/-! ## The kernel -/

/-- What `waitpid` can report about a child. -/
inductive Child
  | running (continued : Bool)
  | stopped (sig : Nat) (reported : Bool)
  | exited (code : Nat)
  | signaled (sig : Nat)
  deriving DecidableEq

inductive ChildEvent
  | exits (code : Nat)
  | killed (sig : Nat)
  | stops (sig : Nat)
  | continues

def Child.react : Child → ChildEvent → Option Child
  | .running _, .exits code => some (.exited code)
  | .running _, .killed sig => some (.signaled sig)
  | .stopped _ _, .killed sig => some (.signaled sig)
  | .running _, .stops sig => some (.stopped sig false)
  | .stopped _ _, .continues => some (.running true)
  | _, _ => none

inductive WaitStatus
  | exited (code : Nat)
  | signaled (sig : Nat)
  | stopped (sig : Nat)
  | continued
  deriving DecidableEq

def wifexited : WaitStatus → Bool
  | .exited _ => true
  | _ => false

def wifsignaled : WaitStatus → Bool
  | .signaled _ => true
  | _ => false

def wifstopped : WaitStatus → Bool
  | .stopped _ => true
  | _ => false

def wifcontinued : WaitStatus → Bool
  | .continued => true
  | _ => false

/-- The status to report, and the child after the report; a report of its
termination collects it. -/
def Child.report (untraced continued : Bool) : Child → Option (WaitStatus × Option Child)
  | .exited code => some (.exited code, none)
  | .signaled sig => some (.signaled sig, none)
  | .stopped sig false => if untraced then some (.stopped sig, some (.stopped sig true)) else none
  | .running true => if continued then some (.continued, some (.running false)) else none
  | _ => none

/-- The children that are not collected yet, by their pids. -/
abbrev Children := Int → Option Child

def Children.set (children : Children) (pid : Int) (child : Option Child) : Children :=
  fun q => if q = pid then child else children q

/-- The return value and the status of `waitpid`; without `nohang` the call
lasts until there is a status or a signal interrupts it. -/
def waitpid (children : Children) (pid : Int) (nohang untraced continued interrupted : Bool) :
    Option (Int × Option WaitStatus × Children) :=
  match children pid with
  | none => some (-1, none, children)
  | some child =>
    match child.report untraced continued with
    | some (stat, child) => some (pid, some stat, children.set pid child)
    | none =>
      if nohang then some (0, none, children)
      else if interrupted then some (-1, none, children)
      else none

/-- `SIGCONT` for the process group of a job. -/
def Children.resume (children : Children) (pid : Int) : Children :=
  match children pid with
  | some (.stopped _ _) => children.set pid (some (.running true))
  | _ => children

/-! ## The shell -/

/-- Where the shell is: before `read`, before `get_next_pid`, or before a
`waitpid`. -/
inductive Pc
  | prompt
  | reap
  | reapHelp (pid : Int)
  | waitChild (pid : Int)
  | done
  deriving DecidableEq

structure ShellState where
  aloj : JobList
  jobId : Int
  children : Children
  pc : Pc

/-- What the kernel and the other processes answer to a command. -/
structure Answers where
  pid : Int
  stray : List Char
  resumed : Bool
  granted : Bool

inductive Event
  | child (pid : Int) (event : ChildEvent)
  | startReap
  | nextPid
  | poll
  | wait (interrupted : Bool)
  | command (words : List (List Char)) (aflag : Bool) (answers : Answers)

/-- The chain of tests in `reap_help`. -/
def reapStatus (l : JobList) (pid : Int) (stat : WaitStatus) : JobList :=
  if wifstopped stat then (updateJobPid l pid .stopped).2
  else if wifsignaled stat then (removeJobPid l pid).2
  else if wifexited stat then (removeJobPid l pid).2
  else if wifcontinued stat then (updateJobPid l pid .running).2
  else l

/-- The tests in `wait_child`, one after another. -/
def waitStatus (l : JobList) (pid : Int) (stat : WaitStatus) : JobList :=
  let l := if wifexited stat then (removeJobPid l pid).2 else l
  let l := if wifsignaled stat then (removeJobPid l pid).2 else l
  if wifstopped stat then (updateJobPid l pid .stopped).2 else l

/-- The loop of `reap` up to `waitpid` in `reap_help`. -/
def reapNext (s : ShellState) : ShellState :=
  let (pid, aloj) := getNextPid s.aloj
  if pid > 0 then
    if getJobJid aloj pid < 0 then { s with aloj := aloj }
    else { s with aloj := aloj, pc := .reapHelp pid }
  else { s with aloj := aloj, pc := .prompt }

/-- `waitpid` in `reap_help` and what follows it. -/
def reapHelp (s : ShellState) (pid : Int) : Option ShellState := do
  let (wpid, stat, children) ← waitpid s.children pid true true true false
  match stat with
  | some stat =>
    if wpid > 0 then
      return { s with aloj := reapStatus s.aloj pid stat, children := children, pc := .reap }
    else return { s with children := children, pc := .reap }
  | none => return { s with children := children, pc := .reap }

/-- `waitpid` in `wait_child` and what follows it. -/
def waitChild (s : ShellState) (pid : Int) (interrupted : Bool) : Option ShellState := do
  let (wpid, stat, children) ← waitpid s.children pid false true false interrupted
  match stat with
  | some stat =>
    if wpid > 0 then
      return { s with aloj := waitStatus s.aloj pid stat, children := children, pc := .prompt }
    else return { s with children := children, pc := .prompt }
  | none => return { s with children := children, pc := .prompt }

/-- `fork` answers with a new pid, and `job_id` must not overflow. -/
def forkProcess (s : ShellState) (words : List (List Char)) (aflag : Bool) (pid : Int) :
    Option ShellState :=
  if pid > 0 ∧ s.children pid = none ∧ s.jobId < intMax then
    let jobId := s.jobId + 1
    let children := s.children.set pid (some (.running false))
    let (_, aloj) := addJob s.aloj jobId pid .running words.head?
    some ⟨aloj, jobId, children, if aflag then .prompt else .waitChild pid⟩
  else none

def bg (s : ShellState) (nargs : Nat) (operand : List Char) (resumed : Bool) : ShellState :=
  match (bgTarget s.aloj nargs operand).2 with
  | none => s
  | some p =>
    if resumed then
      { s with aloj := (updateJobPid s.aloj p .running).2, children := s.children.resume p }
    else s

def fg (s : ShellState) (nargs : Nat) (operand : List Char) (resumed granted : Bool) :
    ShellState :=
  match (fgTarget s.aloj nargs operand).2 with
  | none => s
  | some p =>
    if resumed then
      let (updated, aloj) := updateJobPid s.aloj p .running
      let s := { s with aloj := aloj, children := s.children.resume p }
      if updated < 0 then s
      else if granted then { s with pc := .waitChild p }
      else s
    else s

/-- The chain of comparisons in `repl`. -/
def dispatch (s : ShellState) (words : List (List Char)) (aflag : Bool) (answers : Answers) :
    Option ShellState :=
  match words with
  | [] => none
  | name :: operands =>
    if name ∈ ["cd".toList, "rm".toList, "ln".toList, "jobs".toList] then some s
    else if name = "exit".toList then
      if operands = [] then some { s with pc := .done } else some s
    else if name = "fg".toList then
      some (fg s words.length (operands.headD answers.stray) answers.resumed answers.granted)
    else if name = "bg".toList then
      some (bg s words.length (operands.headD answers.stray) answers.resumed)
    else forkProcess s words aflag answers.pid

def shellStep (s : ShellState) : Event → Option ShellState
  | .child pid event => do
    let child ← s.children pid
    let child ← child.react event
    return { s with children := s.children.set pid (some child) }
  | .startReap => if s.pc = .prompt then some { s with pc := .reap } else none
  | .nextPid => if s.pc = .reap then some (reapNext s) else none
  | .poll =>
    match s.pc with
    | .reapHelp pid => reapHelp s pid
    | _ => none
  | .wait interrupted =>
    match s.pc with
    | .waitChild pid => waitChild s pid interrupted
    | _ => none
  | .command words aflag answers =>
    if s.pc = .prompt then dispatch s words aflag answers else none

def shell : System ShellState Event where
  init s := s = ⟨initJobList, 0, fun _ => none, .prompt⟩
  step s e s' := shellStep s e = some s'

end CourseProjects.Shell

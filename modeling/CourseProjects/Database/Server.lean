import CourseProjects.Lib.Linked
import CourseProjects.Lib.Transition

/-!
# The threads of the server

The listener, the client threads, the thread that handles SIGINT and the main
thread take turns; a section under a mutex is one step. A cancelled thread goes
on until it comes to a cancellation point, which can be at any later time.
-/

namespace CourseProjects.Database.Server

open LinkedList (assign)

/-- A `client_t`; no two clients of a run are the same. -/
abbrev Client := Nat

/-- Where the thread of a client is: not created, before `num_client_threads++`,
before it registers, in its loop, between the two parts of its cleanup, and at
the end, when the `client_t` is freed. -/
inductive Pc
  | none
  | created
  | counted
  | running
  | cleaned
  | out
  deriving DecidableEq

inductive Listener
  | accepting
  | accepted
  | ended
  deriving DecidableEq

/-- The thread of `monitor_signal`: in `sigwait`, and in `delete_all` before and
between its two sections. -/
inductive Monitor
  | waiting
  | deleting
  | resetting
  | ended
  deriving DecidableEq

/-- Where `main` is: in its loop, at the statements of the shutdown, in the wait
loop, in `db_cleanup`. -/
inductive Main
  | loop
  | cancelListener
  | cancelMonitor
  | deleting
  | resetting
  | waiting
  | cleanup
  deriving DecidableEq

structure State where
  clients : List Client
  pc : Client → Pc
  next : Client → Option Client
  prev : Client → Option Client
  cancelled : Client → Bool
  threadListHead : Option Client
  numClientThreads : Int
  listener : Listener
  listenerCancelled : Bool
  monitor : Monitor
  monitorCancelled : Bool
  main : Main

def init : State where
  clients := []
  pc _ := .none
  next _ := none
  prev _ := none
  cancelled _ := false
  threadListHead := none
  numClientThreads := 0
  listener := .accepting
  listenerCancelled := false
  monitor := .waiting
  monitorCancelled := false
  main := .loop

namespace State

def setPc (s : State) (c : Client) (pc : Pc) : State :=
  { s with pc := Function.update s.pc c pc }

/-- `client_constructor` up to the start of the thread. -/
def clientConstructor (s : State) (new : Client) : State :=
  { s with
    clients := new :: s.clients
    pc := Function.update s.pc new .created
    prev := Function.update s.prev new none
    next := Function.update s.next new none }

/-- The first section of `run_client`. -/
def countIn (s : State) (c : Client) : State :=
  { s.setPc c .counted with numClientThreads := s.numClientThreads + 1 }

/-- The second section of `run_client`. -/
def register (s : State) (new : Client) : State :=
  match s.threadListHead with
  | none =>
    { s.setPc new .running with
      threadListHead := some new
      next := Function.update s.next new none }
  | some head =>
    { s.setPc new .running with
      next := Function.update s.next new (some head)
      prev := Function.update (Function.update s.prev new none) head (some new)
      threadListHead := some new }

/-- The list that `thread_list_head` leads to. -/
def Walk (next : Client → Option Client) : Option Client → List Client → Prop
  | p, [] => p = none
  | p, c :: l => p = some c ∧ Walk next (next c) l

/-- The first section of `delete_all`; `l` is the list. -/
def cancelAll (s : State) (l : List Client) : State :=
  { s with
    cancelled := fun c => s.cancelled c || decide (c ∈ l)
    threadListHead := none }

/-- The second section of `delete_all`. -/
def resetCount (s : State) : State :=
  { s with numClientThreads := 0 }

/-- The section of `thread_cleanup`. -/
def threadCleanup (s : State) (temp : Client) : State :=
  match s.prev temp, s.next temp with
  | some prev, some next =>
    { s.setPc temp .cleaned with
      next := Function.update s.next prev (some next)
      prev := Function.update s.prev next (some prev) }
  | none, some next =>
    { s.setPc temp .cleaned with
      prev := Function.update s.prev next none
      threadListHead := some next }
  | some prev, none =>
    { s.setPc temp .cleaned with next := Function.update s.next prev none }
  | none, none => { s.setPc temp .cleaned with threadListHead := none }

/-- The section of `client_destructor`; then the client is freed. -/
def countOut (s : State) (c : Client) : State :=
  { s.setPc c .out with numClientThreads := s.numClientThreads - 1 }

end State

inductive Act
  | accept
  | construct (c : Client)
  | endListener
  | countIn (c : Client)
  | register (c : Client)
  | command (c : Client)
  | threadCleanup (c : Client)
  | countOut (c : Client)
  | sigint
  | monitorDelete
  | monitorReset
  | endMonitor
  | eof
  | cancelListener
  | cancelMonitor
  | mainDelete
  | mainReset
  | pass

inductive Step : State → Act → State → Prop
  | accept {s : State} : s.listener = .accepting → s.listenerCancelled = false →
      Step s .accept { s with listener := .accepted }
  | construct {s : State} {c : Client} : s.listener = .accepted → s.pc c = .none →
      Step s (.construct c) { s.clientConstructor c with listener := .accepting }
  | endListener {s : State} : s.listenerCancelled = true →
      Step s .endListener { s with listener := .ended }
  | countIn {s : State} {c : Client} : s.pc c = .created → Step s (.countIn c) (s.countIn c)
  | register {s : State} {c : Client} : s.pc c = .counted → Step s (.register c) (s.register c)
  -- `interpret_command`
  | command {s : State} {c : Client} : s.pc c = .running → Step s (.command c) s
  -- the client has disconnected, or is cancelled
  | threadCleanup {s : State} {c : Client} : s.pc c = .running →
      Step s (.threadCleanup c) (s.threadCleanup c)
  | countOut {s : State} {c : Client} : s.pc c = .cleaned → Step s (.countOut c) (s.countOut c)
  | sigint {s : State} : s.monitor = .waiting → s.monitorCancelled = false →
      Step s .sigint { s with monitor := .deleting }
  | monitorDelete {s : State} {l : List Client} : s.monitor = .deleting →
      State.Walk s.next s.threadListHead l →
      Step s .monitorDelete { s.cancelAll l with monitor := .resetting }
  | monitorReset {s : State} : s.monitor = .resetting →
      Step s .monitorReset { s.resetCount with monitor := .waiting }
  | endMonitor {s : State} : s.monitorCancelled = true → s.monitor ≠ .resetting →
      Step s .endMonitor { s with monitor := .ended }
  | eof {s : State} : s.main = .loop → Step s .eof { s with main := .cancelListener }
  | cancelListener {s : State} : s.main = .cancelListener →
      Step s .cancelListener { s with listenerCancelled := true, main := .cancelMonitor }
  | cancelMonitor {s : State} : s.main = .cancelMonitor →
      Step s .cancelMonitor { s with monitorCancelled := true, main := .deleting }
  | mainDelete {s : State} {l : List Client} : s.main = .deleting →
      State.Walk s.next s.threadListHead l →
      Step s .mainDelete { s.cancelAll l with main := .resetting }
  | mainReset {s : State} : s.main = .resetting →
      Step s .mainReset { s.resetCount with main := .waiting }
  -- the wait loop ends
  | pass {s : State} : s.main = .waiting → s.numClientThreads = 0 →
      Step s .pass { s with main := .cleanup }

def system : Transition.System State Act where
  init s := s = init
  step := Step

/-! ## Counting -/

/-- The thread has counted itself in and not yet out. -/
def Pc.isIn : Pc → Bool
  | .counted | .running | .cleaned => true
  | _ => false

/-- The thread can still come to `interpret_command`. -/
def Pc.CanExecute : Pc → Prop
  | .created | .counted | .running => True
  | _ => False

/-- The number of threads that have counted in and not yet out. -/
def State.threadsIn (s : State) : Nat :=
  s.clients.countP fun c => (s.pc c).isIn

end CourseProjects.Database.Server

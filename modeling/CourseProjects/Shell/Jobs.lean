import CourseProjects.Lib.CInt
import Mathlib.Data.List.Pairwise

/-!
# The job list

The elements of the list are in the order of their `next` pointers. The pointer
`current` of the iterator is the position of its element.
-/

namespace CourseProjects.Shell

open CInt (atoi)

inductive ProcessState
  | running
  | stopped
  deriving DecidableEq, Repr

structure Job where
  jid : Int
  pid : Int
  state : ProcessState
  command : List Char
  deriving DecidableEq

structure JobList where
  jobs : List Job
  current : Option Nat
  valid : ∀ i, current = some i → i < jobs.length

def initJobList : JobList :=
  ⟨[], none, fun _ h => absurd h (by simp)⟩

/-- A null `command` is refused. -/
def addJob (l : JobList) (jid pid : Int) (state : ProcessState) (command : Option (List Char)) :
    Int × JobList :=
  match command with
  | none => (-1, l)
  | some command =>
    let new : Job := ⟨jid, pid, state, command⟩
    if l.jobs = [] then (0, ⟨[new], some 0, fun i h => by cases h; exact Nat.zero_lt_one⟩)
    else (0, ⟨l.jobs ++ [new], l.current, fun i h => by
      rw [List.length_append]
      exact Nat.lt_add_right _ (l.valid i h)⟩)

/-- The iterator after the element at `k` is taken out. -/
def JobList.currentWithout (l : JobList) (k : Nat) : Option Nat :=
  match l.current with
  | none => none
  | some i =>
    if i = k then (if k + 1 < l.jobs.length then some k else none)
    else if k < i then some (i - 1) else some i

theorem JobList.currentWithout_lt (l : JobList) {i k : Nat} (hk : k < l.jobs.length)
    (h : l.currentWithout k = some i) : i < (l.jobs.eraseIdx k).length := by
  rw [List.length_eraseIdx_of_lt hk]
  unfold currentWithout at h
  split at h
  · cases h
  · next j hj =>
    have := l.valid j hj
    split_ifs at h
    all_goals
      cases h
      omega

def JobList.without (l : JobList) (k : Nat) (hk : k < l.jobs.length) : JobList :=
  ⟨l.jobs.eraseIdx k, l.currentWithout k, fun _ h => l.currentWithout_lt hk h⟩

/-- `remove_job_jid` and `remove_job_pid` differ in the field that they compare. -/
def removeJob (l : JobList) (p : Job → Bool) : Int × JobList :=
  match h : l.jobs.findIdx? p with
  | none => (-1, l)
  | some k => (0, l.without k (List.findIdx?_eq_some_iff_getElem.mp h).1)

def removeJobJid (l : JobList) (jid : Int) : Int × JobList :=
  removeJob l fun job => job.jid = jid

def removeJobPid (l : JobList) (pid : Int) : Int × JobList :=
  removeJob l fun job => job.pid = pid

def updateJob (l : JobList) (p : Job → Bool) (state : ProcessState) : Int × JobList :=
  match l.jobs.findIdx? p with
  | none => (-1, l)
  | some k => (0, ⟨l.jobs.modify k fun job => { job with state := state }, l.current, fun i h => by
      rw [List.length_modify]
      exact l.valid i h⟩)

def updateJobJid (l : JobList) (jid : Int) (state : ProcessState) : Int × JobList :=
  updateJob l (fun job => job.jid = jid) state

def updateJobPid (l : JobList) (pid : Int) (state : ProcessState) : Int × JobList :=
  updateJob l (fun job => job.pid = pid) state

def getJobPid (l : JobList) (jid : Int) : Int :=
  match l.jobs.find? fun job => job.jid = jid with
  | some job => job.pid
  | none => -1

def getJobJid (l : JobList) (pid : Int) : Int :=
  match l.jobs.find? fun job => job.pid = pid with
  | some job => job.jid
  | none => -1

/-- The iterator at a position, or null behind the last element. -/
def JobList.iterate (l : JobList) (i : Nat) : JobList :=
  ⟨l.jobs, if i < l.jobs.length then some i else none, fun j h => by
    split_ifs at h with hi
    cases h
    exact hi⟩

/-- At the end of the list the iterator goes back to the head. -/
def getNextPid (l : JobList) : Int × JobList :=
  match h : l.current with
  | none => (-1, l.iterate 0)
  | some i => ((l.jobs.get ⟨i, l.valid i h⟩).pid, l.iterate (i + 1))

/-! ## `fg` and `bg` up to the signal -/

/-- What `bg` reports, and the process group that it signals; `operand` is the
string at `argc[1]`. -/
def bgTarget (l : JobList) (nargs : Nat) (operand : List Char) : List String × Option Int :=
  if nargs ≠ 2 then (["bg: syntax error\n"], none)
  else if operand.head? ≠ some '%' then (["bg: job input does not begin with %\n"], none)
  else
    let p := getJobPid l (atoi operand.tail)
    if p ≤ 0 then (["bg: could not find job\n"], none) else ([], some p)

/-- `fg` goes on after a wrong number of arguments. -/
def fgTarget (l : JobList) (nargs : Nat) (operand : List Char) : List String × Option Int :=
  let reported := if nargs ≠ 2 then ["fg: syntax error\n"] else []
  if operand.head? ≠ some '%' then
    (reported ++ ["fg: job input does not begin with %\n"], none)
  else
    let p := getJobPid l (atoi operand.tail)
    if p < 0 then (reported ++ ["fg: could not find job\n"], none) else (reported, some p)

/-! ## What the operations do to the elements -/

variable {l : JobList} {job : Job} {jid pid : Int} {state : ProcessState} {command : List Char}

theorem addJob_jobs (l : JobList) (jid pid : Int) (state : ProcessState) (command : List Char) :
    (addJob l jid pid state (some command)).2.jobs = l.jobs ++ [⟨jid, pid, state, command⟩] := by
  by_cases h : l.jobs = []
  · simp [addJob, h]
  · simp [addJob, h]

/-- Removal takes out the first match. -/
theorem removeJob_jobs (l : JobList) (p : Job → Bool) :
    (removeJob l p).2.jobs = l.jobs.eraseP p := by
  rw [List.eraseP_eq_eraseIdx]
  unfold removeJob
  split
  · next h => simp [h]
  · next k h => simp [h, JobList.without]

/-- An update leaves every field but the state. -/
theorem updateJob_map {α : Type} (l : JobList) (p : Job → Bool) (state : ProcessState)
    (field : Job → α) (hf : ∀ job, field { job with state := state } = field job) :
    (updateJob l p state).2.jobs.map field = l.jobs.map field := by
  unfold updateJob
  split
  · rfl
  · next k _ =>
    refine List.ext_getElem? fun i => ?_
    rw [List.getElem?_map, List.getElem?_map, List.getElem?_modify]
    cases l.jobs[i]? with
    | none => rfl
    | some job =>
      by_cases hi : k = i
      · simp [hi, hf]
      · simp [hi]

theorem getNextPid_jobs (l : JobList) : (getNextPid l).2.jobs = l.jobs := by
  unfold getNextPid
  split <;> rfl

end CourseProjects.Shell

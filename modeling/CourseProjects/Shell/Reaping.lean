import CourseProjects.Shell.JobInv

/-!
# One pass of `reap`

The pass goes over the list with its iterator and removes from it on the way. The
iterator stands between the jobs that it has passed and the rest, and is back at the
head when the pass is over.
-/

namespace CourseProjects.Shell

open Transition

/-- What a pass has polled, whether it has gone on to the end of the list, and the
list after it. -/
structure Pass where
  polled : List Int
  complete : Bool
  list : JobList

/-- The loop of `reap`; `outcome` gives the status that the calls of `waitpid` report,
if any. -/
def reap (outcome : Nat → Option WaitStatus) : Nat → Nat → JobList → Option Pass
  | 0, _, _ => none
  | fuel + 1, k, l =>
    let pid := (getNextPid l).1
    let next := (getNextPid l).2
    if pid > 0 then
      if getJobJid next pid < 0 then reap outcome fuel k next
      else do
        let p ← reap outcome fuel (k + 1) <|
          match outcome k with
          | some stat => reapStatus next pid stat
          | none => next
        return { p with polled := pid :: p.polled }
    else some ⟨[], l.current.isNone, next⟩

/-- The iterator of an idle list. -/
def AtHead (l : JobList) : Prop :=
  l.current = if l.jobs = [] then none else some 0

/-- What is left of a job after the status is reported. -/
def Job.after (job : Job) : Option WaitStatus → Option Job
  | some (.exited _) => none
  | some (.signaled _) => none
  | some (.stopped _) => some { job with state := .stopped }
  | some .continued => some { job with state := .running }
  | none => some job

/-- What is left of the jobs; one with a negative jid is not polled. -/
def survivors (outcome : Nat → Option WaitStatus) : Nat → List Job → List Job
  | _, [] => []
  | k, job :: jobs =>
    if job.jid < 0 then job :: survivors outcome k jobs
    else (job.after (outcome k)).toList ++ survivors outcome (k + 1) jobs

/-- The iterator is behind the jobs `past`. -/
structure Visits (l : JobList) (past rest : List Job) : Prop where
  jobs : l.jobs = past ++ rest
  current : l.current = if rest = [] then none else some past.length

variable {l : JobList} {past rest : List Job} {job : Job} {state : ProcessState} {p : Pass}
  {outcome : Nat → Option WaitStatus} {fuel k : Nat}

theorem visits_head_iff : Visits l [] l.jobs ↔ AtHead l :=
  ⟨fun h => h.current, fun h => ⟨rfl, h⟩⟩

theorem Visits.atHead (h : Visits l [] rest) : AtHead l := by
  have hjobs : l.jobs = rest := h.jobs
  rw [← visits_head_iff, hjobs]
  exact h

/-! ## Steps of the iterator -/

theorem Visits.next (h : Visits l past (job :: rest)) :
    (getNextPid l).1 = job.pid ∧ Visits (getNextPid l).2 (past ++ [job]) rest := by
  have hcurrent : l.current = some past.length := h.current
  unfold getNextPid
  split
  · next hnone =>
    rw [hcurrent] at hnone
    cases hnone
  · next i hi =>
    obtain rfl : past.length = i := Option.some.inj (hcurrent.symm.trans hi)
    refine ⟨?_, ?_, ?_⟩
    · simp [h.jobs]
    · simp [JobList.iterate, h.jobs]
    · cases rest with
      | nil => simp [JobList.iterate, h.jobs]
      | cons job' rest => simp [JobList.iterate, h.jobs]

theorem Visits.finish (h : Visits l past []) :
    (getNextPid l).1 = -1 ∧ l.current = none ∧ Visits (getNextPid l).2 [] past := by
  have hcurrent : l.current = none := h.current
  have hjobs : l.jobs = past := by rw [h.jobs, List.append_nil]
  unfold getNextPid
  split
  · refine ⟨rfl, hcurrent, hjobs, ?_⟩
    cases past with
    | nil => simp [JobList.iterate, hjobs]
    | cons job past => simp [JobList.iterate, hjobs]
  · next i hi =>
    rw [hcurrent] at hi
    cases hi

/-! ## What a report does behind the iterator -/

/-- The first job with the pid is the one that was passed last. -/
theorem Visits.findIdx (h : Visits l (past ++ [job]) rest) (hp : ∀ j ∈ past, j.pid ≠ job.pid) :
    l.jobs.findIdx? (fun j => decide (j.pid = job.pid)) = some past.length := by
  have hpast : past.findIdx? (fun j => decide (j.pid = job.pid)) = none := by
    rw [List.findIdx?_eq_none_iff]
    exact fun j hj => decide_eq_false (hp j hj)
  rw [h.jobs, List.append_assoc, List.findIdx?_append, hpast]
  simp [List.findIdx?_cons]

theorem Visits.remove (h : Visits l (past ++ [job]) rest) (hp : ∀ j ∈ past, j.pid ≠ job.pid) :
    Visits (removeJobPid l job.pid).2 past rest := by
  have hidx := h.findIdx hp
  unfold removeJobPid removeJob
  split
  · next hnone =>
    rw [hidx] at hnone
    cases hnone
  · next k hk =>
    obtain rfl : past.length = k := Option.some.inj (hidx.symm.trans hk)
    have hcurrent := h.current
    refine ⟨?_, ?_⟩
    · change l.jobs.eraseIdx past.length = past ++ rest
      rw [h.jobs, List.append_assoc, List.eraseIdx_append_of_length_le (Nat.le_refl _)]
      simp
    · change l.currentWithout past.length = _
      unfold JobList.currentWithout
      cases rest with
      | nil => simp [hcurrent]
      | cons job' rest => simp [hcurrent]

theorem modify_append_cons (f : Job → Job) :
    (past ++ job :: rest).modify past.length f = past ++ f job :: rest := by
  induction past with
  | nil => rfl
  | cons j past ih => simp [ih]

theorem Visits.update (h : Visits l (past ++ [job]) rest) (hp : ∀ j ∈ past, j.pid ≠ job.pid)
    (state : ProcessState) :
    Visits (updateJobPid l job.pid state).2 (past ++ [{ job with state := state }]) rest := by
  have hidx := h.findIdx hp
  unfold updateJobPid updateJob
  split
  · next hnone =>
    rw [hidx] at hnone
    cases hnone
  · next k hk =>
    obtain rfl : past.length = k := Option.some.inj (hidx.symm.trans hk)
    refine ⟨?_, ?_⟩
    · change l.jobs.modify past.length _ = _
      rw [h.jobs, List.append_assoc, List.singleton_append, modify_append_cons,
        List.append_assoc, List.singleton_append]
    · simpa using h.current

/-- A report leaves the iterator behind what is left of the job. -/
theorem Visits.report (h : Visits l (past ++ [job]) rest) (hp : ∀ j ∈ past, j.pid ≠ job.pid)
    (stat : WaitStatus) :
    Visits (reapStatus l job.pid stat) (past ++ (job.after (some stat)).toList) rest := by
  cases stat with
  | exited code =>
    rw [Job.after, Option.toList_none, List.append_nil]
    exact h.remove hp
  | signaled sig =>
    rw [Job.after, Option.toList_none, List.append_nil]
    exact h.remove hp
  | stopped sig => exact h.update hp .stopped
  | continued => exact h.update hp .running

/-! ## The pass -/

theorem after_pid {stat : Option WaitStatus} {job' : Job} (h : job.after stat = some job') :
    job'.pid = job.pid := by
  cases stat with
  | none =>
    cases h
    rfl
  | some stat =>
    cases stat <;> cases h <;> rfl

/-- From any place in the list, the pass goes on to the end and back to the head. -/
theorem reap_spec (outcome : Nat → Option WaitStatus) (h : Visits l past rest)
    (hpids : ((past ++ rest).map Job.pid).Nodup) (hpos : ∀ job ∈ rest, 0 < job.pid)
    (hfuel : rest.length < fuel) :
    ∃ p, reap outcome fuel k l = some p ∧
      p.polled = (rest.filter fun job => 0 ≤ job.jid).map Job.pid ∧ p.complete = true ∧
      Visits p.list [] (past ++ survivors outcome k rest) := by
  induction rest generalizing l past fuel k with
  | nil =>
    obtain ⟨fuel, rfl⟩ := Nat.exists_eq_add_one_of_ne_zero (Nat.ne_zero_of_lt hfuel)
    obtain ⟨hpid, hcurrent, hend⟩ := h.finish
    refine ⟨⟨[], true, (getNextPid l).2⟩, ?_, rfl, rfl, ?_⟩
    · simp [reap, hpid, hcurrent]
    · rwa [survivors, List.append_nil]
  | cons job rest ih =>
    obtain ⟨fuel, rfl⟩ := Nat.exists_eq_add_one_of_ne_zero (Nat.ne_zero_of_lt hfuel)
    have hfuel : rest.length < fuel := Nat.lt_of_succ_lt_succ hfuel
    obtain ⟨hpid, hnext⟩ := h.next
    have hpid0 : job.pid > 0 := hpos job List.mem_cons_self
    have hpos' : ∀ job ∈ rest, 0 < job.pid := fun j hj => hpos j (List.mem_cons_of_mem _ hj)
    have happ : past ++ job :: rest = past ++ [job] ++ rest := by simp
    have hpids' : ((past ++ [job] ++ rest).map Job.pid).Nodup := happ ▸ hpids
    have hjid : getJobJid (getNextPid l).2 job.pid = job.jid := by
      refine getJobJid_of_mem ?_ ?_
      · rw [JobList.pids, hnext.jobs]
        exact hpids'
      · rw [hnext.jobs]
        simp
    by_cases hneg : job.jid < 0
    · -- the job is passed over
      obtain ⟨p, hrun, hpolled, hcomplete, hat⟩ := ih (k := k) hnext hpids' hpos' hfuel
      refine ⟨p, ?_, ?_, hcomplete, ?_⟩
      · simp [reap, hpid, hpid0, hjid, hneg, hrun]
      · rw [hpolled, List.filter_cons_of_neg (by simpa using hneg)]
      · simpa [survivors, hneg] using hat
    · have hp : ∀ j ∈ past, j.pid ≠ job.pid := by
        intro j hj heq
        rw [List.map_append, List.nodup_append] at hpids
        exact hpids.2.2 j.pid (List.mem_map_of_mem hj) job.pid (by simp) heq
      have hreport : Visits (match outcome k with
          | some stat => reapStatus (getNextPid l).2 job.pid stat
          | none => (getNextPid l).2) (past ++ (job.after (outcome k)).toList) rest := by
        cases hout : outcome k with
        | none => exact hnext
        | some stat => exact hnext.report hp stat
      have hpids'' : ((past ++ (job.after (outcome k)).toList ++ rest).map Job.pid).Nodup := by
        cases hafter : job.after (outcome k) with
        | none =>
          refine hpids.sublist (List.Sublist.map _ ?_)
          rw [Option.toList_none, List.append_nil]
          exact (List.sublist_cons_self job rest).append_left past
        | some job' =>
          rw [Option.toList_some]
          simp only [List.map_append, List.map_cons, List.map_nil, after_pid hafter] at hpids' ⊢
          exact hpids'
      obtain ⟨p, hrun, hpolled, hcomplete, hat⟩ := ih (k := k + 1) hreport hpids'' hpos' hfuel
      refine ⟨{ p with polled := job.pid :: p.polled }, ?_, ?_, hcomplete, ?_⟩
      · simp only [reap, hpid, hpid0, hjid, hneg, if_true, if_false]
        rw [hrun]
        rfl
      · rw [List.filter_cons_of_pos (by simpa using hneg), List.map_cons, hpolled]
      · simpa [survivors, hneg] using hat

/-! ## Runs of the list operations -/

inductive JobOp
  | addJob (jid pid : Int) (state : ProcessState) (command : Option (List Char))
  | removeJobPid (pid : Int)
  | removeJobJid (jid : Int)
  | updateJobPid (pid : Int) (state : ProcessState)
  | updateJobJid (jid : Int) (state : ProcessState)
  | reap (outcome : Nat → Option WaitStatus)

def jobStep (l : JobList) : JobOp → JobList → Prop
  | .addJob jid pid state command, l' => l' = (addJob l jid pid state command).2
  | .removeJobPid pid, l' => l' = (removeJobPid l pid).2
  | .removeJobJid jid, l' => l' = (removeJobJid l jid).2
  | .updateJobPid pid state, l' => l' = (updateJobPid l pid state).2
  | .updateJobJid jid state, l' => l' = (updateJobJid l jid state).2
  | .reap outcome, l' =>
    ∃ fuel p, reap outcome fuel 0 l = some p ∧ p.complete = true ∧ l' = p.list

/-- From `init_job_list`, with complete passes only. -/
def jobRuns : System JobList JobOp where
  init l := l = initJobList
  step := jobStep

theorem AtHead.addJob (h : AtHead l) (jid pid : Int) (state : ProcessState)
    (command : Option (List Char)) : AtHead (addJob l jid pid state command).2 := by
  unfold CourseProjects.Shell.addJob
  cases command with
  | none => exact h
  | some command =>
    by_cases hnil : l.jobs = []
    · simp [hnil, AtHead]
    · have hcurrent : l.current = some 0 := by rw [h, if_neg hnil]
      simp [hnil, AtHead, hcurrent]

theorem AtHead.removeJob (h : AtHead l) (p : Job → Bool) : AtHead (removeJob l p).2 := by
  unfold CourseProjects.Shell.removeJob
  split
  · exact h
  · next k hk =>
    have hlt : k < l.jobs.length := (List.findIdx?_eq_some_iff_getElem.mp hk).1
    have hne : l.jobs ≠ [] := List.ne_nil_of_length_pos (Nat.zero_lt_of_lt hlt)
    have hcurrent : l.current = some 0 := by rw [h, if_neg hne]
    change l.currentWithout k = if l.jobs.eraseIdx k = [] then none else some 0
    rw [JobList.currentWithout, hcurrent]
    by_cases hk0 : k = 0
    · -- the iterator goes to the new head
      subst hk0
      obtain ⟨job, rest, hjobs⟩ := List.exists_cons_of_ne_nil hne
      cases rest with
      | nil => simp [hjobs]
      | cons job' rest => simp [hjobs]
    · have hk0' : ¬ 0 = k := fun h => hk0 h.symm
      simp [hk0, hk0', hne]

theorem AtHead.updateJob (h : AtHead l) (p : Job → Bool) (state : ProcessState) :
    AtHead (updateJob l p state).2 := by
  unfold CourseProjects.Shell.updateJob
  split
  · exact h
  · next k _ =>
    change l.current = if l.jobs.modify k _ = [] then none else some 0
    rw [h]
    simp

/-- Where a complete pass ends. -/
theorem atHead_of_complete (h : reap outcome fuel k l = some p) (hc : p.complete = true) :
    AtHead p.list := by
  induction fuel generalizing k l p with
  | zero => cases h
  | succ fuel ih =>
    rw [reap] at h
    split_ifs at h with hpid hjid
    · exact ih h hc
    · obtain ⟨p', hrun, h⟩ := Option.bind_eq_some_iff.mp h
      cases h
      exact ih (p := p') hrun hc
    · cases h
      have hcurrent : l.current = none := by simpa using hc
      have hend : Visits l l.jobs [] := ⟨(List.append_nil _).symm, hcurrent⟩
      exact hend.finish.2.2.atHead

theorem atHead_invariant : jobRuns.Invariant AtHead := by
  constructor
  · rintro l rfl
    rfl
  · intro l op l' h hstep
    cases op with
    | addJob jid pid state command => exact hstep ▸ h.addJob jid pid state command
    | removeJobPid pid => exact hstep ▸ h.removeJob _
    | removeJobJid jid => exact hstep ▸ h.removeJob _
    | updateJobPid pid state => exact hstep ▸ h.updateJob _ state
    | updateJobJid jid state => exact hstep ▸ h.updateJob _ state
    | reap outcome =>
      obtain ⟨fuel, p, hrun, hcomplete, rfl⟩ := hstep
      exact atHead_of_complete hrun hcomplete

/-- **A pass polls every job with a jid once, in order**, and comes back to the head; the
iterator of an idle list is always there. -/
theorem reap_polls :
    (∀ l : JobList, AtHead l → (l.jobs.map Job.pid).Nodup → (∀ job ∈ l.jobs, 0 < job.pid) →
      ∀ outcome, ∃ p, reap outcome (l.jobs.length + 1) 0 l = some p ∧
        p.polled = (l.jobs.filter fun job => 0 ≤ job.jid).map Job.pid ∧ p.complete = true ∧
        p.list.jobs = survivors outcome 0 l.jobs ∧ AtHead p.list) ∧
    ∀ l, jobRuns.Reachable l → AtHead l := by
  constructor
  · intro l hhead hpids hpos outcome
    obtain ⟨p, hrun, hpolled, hcomplete, hat⟩ :=
      reap_spec outcome (k := 0) (visits_head_iff.mpr hhead) hpids hpos
        (Nat.lt_succ_self _)
    exact ⟨p, hrun, hpolled, hcomplete, hat.jobs, hat.atHead⟩
  · exact fun l hl => hl.rule atHead_invariant

def twoJobs : JobList :=
  (addJob (addJob initJobList 1 100 .running (some [])).2 2 200 .running (some [])).2

/-- The first of two jobs has exited. -/
theorem twoJobs_polled : ∃ p,
    reap (fun k => if k = 0 then some (.exited 0) else none) 3 0 twoJobs = some p ∧
      p.polled = [100, 200] ∧ p.complete = true ∧ p.list.jobs = [⟨2, 200, .running, []⟩] ∧
      AtHead p.list :=
  reap_polls.1 twoJobs rfl (by decide) (by decide) _

/-- A job with a negative jid. -/
def negativeJid : JobList :=
  (addJob initJobList (-1) 5 .running (some [])).2

theorem negativeJid_not_polled : AtHead negativeJid ∧
    (negativeJid.jobs.map Job.pid).Nodup ∧ (∀ job ∈ negativeJid.jobs, 0 < job.pid) ∧
    ∃ p, reap (fun _ => some (.exited 0)) 2 0 negativeJid = some p ∧
      p.polled ≠ negativeJid.jobs.map Job.pid := by
  refine ⟨rfl, by decide, by decide, _, rfl, by decide⟩

end CourseProjects.Shell

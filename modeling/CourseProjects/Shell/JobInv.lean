import CourseProjects.Shell.Control
import Mathlib.Data.List.Nodup

/-!
# Jobs and children

In every state of every run the job list is the list of the children that are
not collected yet.
-/

namespace CourseProjects.Shell

open Transition Transition.System

/-- The ids in a job list belong to the children of the kernel. -/
structure Tracks (jids pids : List Int) (jobId : Int) (children : Children) : Prop where
  increasing : jids.Pairwise (· < ·)
  bounds : ∀ jid ∈ jids, 0 < jid ∧ jid ≤ jobId
  counter : 0 ≤ jobId
  once : pids.Nodup
  positive : ∀ pid ∈ pids, 0 < pid
  children : ∀ pid, children pid ≠ none ↔ pid ∈ pids

def JobList.jids (l : JobList) : List Int :=
  l.jobs.map Job.jid

def JobList.pids (l : JobList) : List Int :=
  l.jobs.map Job.pid

def JobInv (s : ShellState) : Prop :=
  Tracks s.aloj.jids s.aloj.pids s.jobId s.children

variable {l : JobList} {jids pids : List Int} {jobId pid : Int} {children : Children}
  {s s' : ShellState} {child : Child} {child' : Option Child} {stat : WaitStatus}

/-! ## Children -/

theorem Tracks.congr {children' : Children} (h : Tracks jids pids jobId children)
    (hc : ∀ q, children' q ≠ none ↔ children q ≠ none) : Tracks jids pids jobId children' :=
  ⟨h.increasing, h.bounds, h.counter, h.once, h.positive, fun q => (hc q).trans (h.children q)⟩

/-- A child that stays a child. -/
theorem Tracks.set (h : Tracks jids pids jobId children) (hp : children pid ≠ none)
    (child : Child) : Tracks jids pids jobId (children.set pid (some child)) := by
  refine h.congr fun q => ?_
  unfold Children.set
  by_cases hq : q = pid
  · simp [hq, hp]
  · simp [hq]

theorem Tracks.resume (h : Tracks jids pids jobId children) (pid : Int) :
    Tracks jids pids jobId (children.resume pid) := by
  unfold Children.resume
  split
  · next hp => exact h.set (by rw [hp]; simp) _
  · exact h

/-! ## The job list -/

theorem updateJobPid_jids (l : JobList) (pid : Int) (state : ProcessState) :
    (updateJobPid l pid state).2.jids = l.jids :=
  updateJob_map l _ state Job.jid fun _ => rfl

theorem updateJobPid_pids (l : JobList) (pid : Int) (state : ProcessState) :
    (updateJobPid l pid state).2.pids = l.pids :=
  updateJob_map l _ state Job.pid fun _ => rfl

theorem removeJobPid_pids (l : JobList) (pid : Int) :
    (removeJobPid l pid).2.pids = l.pids.erase pid := by
  rw [JobList.pids, removeJobPid, removeJob_jobs, JobList.pids, List.erase_eq_eraseP,
    List.eraseP_map]
  congr 2
  funext job
  rw [Function.comp_apply, beq_eq_decide]
  exact decide_eq_decide.mpr eq_comm

theorem removeJobPid_jids (l : JobList) (pid : Int) :
    (removeJobPid l pid).2.jids.Sublist l.jids := by
  rw [JobList.jids, removeJobPid, removeJob_jobs]
  exact List.eraseP_sublist.map Job.jid

/-- A child that is collected leaves the job list. -/
theorem Tracks.remove (h : Tracks l.jids l.pids jobId children) (pid : Int) :
    Tracks (removeJobPid l pid).2.jids (removeJobPid l pid).2.pids jobId
      (children.set pid none) := by
  have hsub := removeJobPid_jids l pid
  rw [removeJobPid_pids]
  refine ⟨h.increasing.sublist hsub, fun jid hj => h.bounds jid (hsub.subset hj), h.counter,
    h.once.erase pid, fun q hq => h.positive q (List.mem_of_mem_erase hq), fun q => ?_⟩
  rw [h.once.mem_erase_iff, ← h.children q]
  unfold Children.set
  by_cases hq : q = pid
  · simp [hq]
  · simp [hq]

theorem Tracks.update (h : Tracks l.jids l.pids jobId children) (pid : Int)
    (state : ProcessState) : Tracks (updateJobPid l pid state).2.jids
      (updateJobPid l pid state).2.pids jobId children := by
  rwa [updateJobPid_jids, updateJobPid_pids]

theorem Tracks.add (h : Tracks l.jids l.pids jobId children) (hpos : 0 < pid)
    (hp : children pid = none) (state : ProcessState) (command : List Char) (child : Child) :
    Tracks (addJob l (jobId + 1) pid state (some command)).2.jids
      (addJob l (jobId + 1) pid state (some command)).2.pids (jobId + 1)
      (children.set pid (some child)) := by
  have hnew : pid ∉ l.pids := fun hm => (h.children pid).mpr hm hp
  have hjids : (addJob l (jobId + 1) pid state (some command)).2.jids = l.jids ++ [jobId + 1] := by
    simp [JobList.jids, addJob_jobs]
  have hpids : (addJob l (jobId + 1) pid state (some command)).2.pids = l.pids ++ [pid] := by
    simp [JobList.pids, addJob_jobs]
  have hcounter := h.counter
  rw [hjids, hpids]
  refine ⟨?_, fun jid hj => ?_, by omega, ?_, fun q hq => ?_, fun q => ?_⟩
  · refine List.pairwise_append.mpr ⟨h.increasing, List.pairwise_singleton _ _, fun a ha b hb => ?_⟩
    have := h.bounds a ha
    have := List.mem_singleton.mp hb
    omega
  · rcases List.mem_append.mp hj with hj | hj
    · have := h.bounds jid hj
      omega
    · have := List.mem_singleton.mp hj
      omega
  · exact List.nodup_append.mpr ⟨h.once, List.nodup_singleton pid, fun a ha b hb hab =>
      hnew (List.mem_singleton.mp hb ▸ hab ▸ ha)⟩
  · rcases List.mem_append.mp hq with hq | hq
    · exact h.positive q hq
    · exact List.mem_singleton.mp hq ▸ hpos
  · rw [List.mem_append, List.mem_singleton, ← h.children q]
    unfold Children.set
    by_cases hq : q = pid
    · simp [hq]
    · simp [hq]

/-! ## Collecting -/

/-- A status says of a child whether it is collected. -/
theorem Child.report_cases {untraced continued : Bool}
    (h : child.report untraced continued = some (stat, child')) :
    child' = none ∧ (wifexited stat ∨ wifsignaled stat) ∨
      (∃ c, child' = some c) ∧ (wifstopped stat ∨ wifcontinued stat) := by
  unfold Child.report at h
  split at h
  · cases h
    exact Or.inl ⟨rfl, Or.inl rfl⟩
  · cases h
    exact Or.inl ⟨rfl, Or.inr rfl⟩
  · split_ifs at h
    cases h
    exact Or.inr ⟨⟨_, rfl⟩, Or.inl rfl⟩
  · split_ifs at h
    cases h
    exact Or.inr ⟨⟨_, rfl⟩, Or.inr rfl⟩
  · cases h

/-- What both status decoders do to the job list. -/
structure Decodes (decode : JobList → Int → WaitStatus → JobList) : Prop where
  terminated : ∀ l pid stat, (wifexited stat ∨ wifsignaled stat) →
    decode l pid stat = (removeJobPid l pid).2
  alive : ∀ l pid stat, (wifstopped stat ∨ wifcontinued stat) →
    decode l pid stat = l ∨ ∃ state, decode l pid stat = (updateJobPid l pid state).2

theorem reapStatus_decodes : Decodes reapStatus where
  terminated l pid stat h := by
    cases stat <;> simp [wifexited, wifsignaled] at h <;> rfl
  alive l pid stat h := by
    cases stat <;> simp [wifstopped, wifcontinued] at h
    · exact Or.inr ⟨.stopped, rfl⟩
    · exact Or.inr ⟨.running, rfl⟩

theorem waitStatus_decodes : Decodes waitStatus where
  terminated l pid stat h := by
    cases stat <;> simp [wifexited, wifsignaled] at h <;> rfl
  alive l pid stat h := by
    cases stat <;> simp [wifstopped, wifcontinued] at h
    · exact Or.inr ⟨.stopped, rfl⟩
    · exact Or.inl rfl

/-- After a report the job list still has the children that are not collected. -/
theorem Tracks.report (h : Tracks l.jids l.pids jobId children) (hp : children pid = some child)
    {untraced continued : Bool} (hr : child.report untraced continued = some (stat, child'))
    {decode : JobList → Int → WaitStatus → JobList} (hd : Decodes decode) :
    Tracks (decode l pid stat).jids (decode l pid stat).pids jobId (children.set pid child') := by
  rcases Child.report_cases hr with ⟨rfl, hstat⟩ | ⟨⟨c, rfl⟩, hstat⟩
  · rw [hd.terminated l pid stat hstat]
    exact h.remove pid
  · have hset := h.set (by rw [hp]; simp) c
    rcases hd.alive l pid stat hstat with heq | ⟨state, heq⟩
    · rwa [heq]
    · rw [heq]
      exact hset.update pid state

/-- What `waitpid` returns. -/
theorem waitpid_cases {nohang untraced continued interrupted : Bool} {wpid : Int}
    {stat? : Option WaitStatus} {children' : Children}
    (h : waitpid children pid nohang untraced continued interrupted =
      some (wpid, stat?, children')) :
    stat? = none ∧ children' = children ∨
      ∃ child stat child', children pid = some child ∧
        child.report untraced continued = some (stat, child') ∧ wpid = pid ∧
        stat? = some stat ∧ children' = children.set pid child' := by
  unfold waitpid at h
  cases hp : children pid with
  | none =>
    rw [hp] at h
    cases h
    exact Or.inl ⟨rfl, rfl⟩
  | some child =>
    rw [hp] at h
    dsimp only at h
    cases hr : child.report untraced continued with
    | none =>
      rw [hr] at h
      dsimp only at h
      split_ifs at h
      all_goals
        cases h
        exact Or.inl ⟨rfl, rfl⟩
    | some report =>
      obtain ⟨stat, child'⟩ := report
      rw [hr] at h
      cases h
      exact Or.inr ⟨child, stat, child', rfl, hr, rfl, rfl, rfl⟩

/-! ## The steps -/

theorem JobInv.positive (h : JobInv s) (hp : s.children pid = some child) : 0 < pid :=
  Tracks.positive h pid ((Tracks.children h pid).mp (by rw [hp]; simp))

theorem JobInv.reapHelp (h : JobInv s) (hs : reapHelp s pid = some s') : JobInv s' := by
  unfold Shell.reapHelp at hs
  cases hw : waitpid s.children pid true true true false with
  | none =>
    rw [hw] at hs
    cases hs
  | some result =>
    obtain ⟨wpid, stat?, children'⟩ := result
    rw [hw] at hs
    rcases waitpid_cases hw with ⟨rfl, rfl⟩ | ⟨child, stat, child', hp, hr, rfl, rfl, rfl⟩
    · cases hs
      exact h
    · have hpos := h.positive hp
      simp only [Option.bind_eq_bind, Option.bind_some, gt_iff_lt, hpos, ↓reduceIte] at hs
      cases hs
      exact Tracks.report h hp hr reapStatus_decodes

theorem JobInv.waitChild {interrupted : Bool} (h : JobInv s)
    (hs : waitChild s pid interrupted = some s') : JobInv s' := by
  unfold Shell.waitChild at hs
  cases hw : waitpid s.children pid false true false interrupted with
  | none =>
    rw [hw] at hs
    cases hs
  | some result =>
    obtain ⟨wpid, stat?, children'⟩ := result
    rw [hw] at hs
    rcases waitpid_cases hw with ⟨rfl, rfl⟩ | ⟨child, stat, child', hp, hr, rfl, rfl, rfl⟩
    · cases hs
      exact h
    · have hpos := h.positive hp
      simp only [Option.bind_eq_bind, Option.bind_some, gt_iff_lt, hpos, ↓reduceIte] at hs
      cases hs
      exact Tracks.report h hp hr waitStatus_decodes

theorem JobInv.reapNext (h : JobInv s) : JobInv (reapNext s) := by
  have hjids : (getNextPid s.aloj).2.jids = s.aloj.jids := by
    rw [JobList.jids, getNextPid_jobs, JobList.jids]
  have hpids : (getNextPid s.aloj).2.pids = s.aloj.pids := by
    rw [JobList.pids, getNextPid_jobs, JobList.pids]
  unfold JobInv at h
  rw [← hjids, ← hpids] at h
  unfold Shell.reapNext
  dsimp only
  split_ifs
  all_goals exact h

theorem JobInv.forkProcess {words : List (List Char)} {aflag : Bool} (h : JobInv s)
    (hwords : words ≠ []) (hs : forkProcess s words aflag pid = some s') : JobInv s' := by
  obtain ⟨name, operands, rfl⟩ := List.exists_cons_of_ne_nil hwords
  unfold Shell.forkProcess at hs
  split_ifs at hs with hcond
  all_goals
    cases hs
    exact Tracks.add h hcond.1 hcond.2.1 .running name _

theorem JobInv.bg (h : JobInv s) (nargs : Nat) (operand : List Char) (resumed : Bool) :
    JobInv (bg s nargs operand resumed) := by
  unfold Shell.bg
  split
  · exact h
  · next p _ =>
    split_ifs
    · exact Tracks.resume (Tracks.update h p .running) p
    · exact h

theorem JobInv.fg (h : JobInv s) (nargs : Nat) (operand : List Char) (resumed granted : Bool) :
    JobInv (fg s nargs operand resumed granted) := by
  unfold Shell.fg
  split
  · exact h
  · next p _ =>
    have hfg := Tracks.resume (Tracks.update h p .running) p
    dsimp only
    split_ifs
    all_goals first | exact hfg | exact h

theorem JobInv.dispatch {words : List (List Char)} {aflag : Bool} {answers : Answers}
    (h : JobInv s) (hs : dispatch s words aflag answers = some s') : JobInv s' := by
  cases words with
  | nil => cases hs
  | cons name operands =>
    unfold Shell.dispatch at hs
    dsimp only at hs
    split_ifs at hs
    · cases hs
      exact h
    · cases hs
      exact h
    · cases hs
      exact h
    · cases hs
      exact h.fg _ _ _ _
    · cases hs
      exact h.bg _ _ _
    · exact h.forkProcess (List.cons_ne_nil _ _) hs

theorem JobInv.step {e : Event} (h : JobInv s) (hs : shellStep s e = some s') : JobInv s' := by
  cases e with
  | child pid event =>
    simp only [shellStep, Option.bind_eq_bind, Option.bind_eq_some_iff] at hs
    obtain ⟨child, hp, child', -, hs⟩ := hs
    cases hs
    exact Tracks.set h (by rw [hp]; simp) child'
  | startReap =>
    simp only [shellStep] at hs
    split_ifs at hs
    cases hs
    exact h
  | nextPid =>
    simp only [shellStep] at hs
    split_ifs at hs
    cases hs
    exact h.reapNext
  | poll =>
    simp only [shellStep] at hs
    split at hs
    · exact h.reapHelp hs
    · cases hs
  | wait interrupted =>
    simp only [shellStep] at hs
    split at hs
    · exact h.waitChild hs
    · cases hs
  | command words aflag answers =>
    simp only [shellStep] at hs
    split_ifs at hs
    exact h.dispatch hs

theorem JobInv.initial : JobInv ⟨initJobList, 0, fun _ => none, .prompt⟩ :=
  ⟨List.Pairwise.nil, fun _ h => absurd h List.not_mem_nil, Int.le_refl 0, List.Pairwise.nil,
    fun _ h => absurd h List.not_mem_nil, fun pid => by
      simp [JobList.pids, initJobList]⟩

theorem shell_inv : shell.Invariant JobInv where
  init s hs := by
    rw [show s = _ from hs]
    exact JobInv.initial
  step s e s' h hs := h.step hs

/-! ## Looking up a job -/

theorem find?_of_nodup {α : Type} {f : α → Int} {as : List α} {a : α} (h : (as.map f).Nodup)
    (ha : a ∈ as) : as.find? (fun b => f b = f a) = some a := by
  induction as with
  | nil => cases ha
  | cons b as ih =>
    obtain ⟨hb, hrest⟩ := List.nodup_cons.mp h
    rcases List.mem_cons.mp ha with rfl | ha
    · simp
    · have hne : f b ≠ f a := fun heq => hb (heq ▸ List.mem_map_of_mem ha)
      rw [List.find?_cons_of_neg (by simpa using hne)]
      exact ih hrest ha

theorem getJobPid_of_mem (hjids : l.jids.Nodup) {job : Job} (h : job ∈ l.jobs) :
    getJobPid l job.jid = job.pid := by
  rw [getJobPid, find?_of_nodup hjids h]

theorem getJobJid_of_mem (hpids : l.pids.Nodup) {job : Job} (h : job ∈ l.jobs) :
    getJobJid l job.pid = job.jid := by
  rw [getJobJid, find?_of_nodup hpids h]

/-- The job list has exactly the children that are not collected, each once and
in the order of the job ids, and the two lookups are inverse to each other. -/
theorem shell_accounts (s : ShellState) (hs : shell.Reachable s) :
    (∀ pid, pid ∈ s.aloj.pids ↔ s.children pid ≠ none) ∧ s.aloj.pids.Nodup ∧
      s.aloj.jids.Pairwise (· < ·) ∧
      ∀ job ∈ s.aloj.jobs, getJobPid s.aloj job.jid = job.pid ∧
        getJobJid s.aloj job.pid = job.jid := by
  have h : JobInv s := Reachable.rule shell_inv hs
  have hnodup : s.aloj.jids.Nodup := h.increasing.imp fun hlt => Int.ne_of_lt hlt
  exact ⟨fun pid => (Tracks.children h pid).symm, h.once, h.increasing, fun job hj =>
    ⟨getJobPid_of_mem hnodup hj, getJobJid_of_mem h.once hj⟩⟩

/-- The child 7 runs in the background while the child 9 stops in the foreground. -/
theorem two_jobs_account :
    ∃ s : ShellState, s.pc = .prompt ∧ s.aloj.pids = [7, 9] ∧
      ((∀ pid, pid ∈ s.aloj.pids ↔ s.children pid ≠ none) ∧ s.aloj.pids.Nodup ∧
        s.aloj.jids.Pairwise (· < ·) ∧
        ∀ job ∈ s.aloj.jobs, getJobPid s.aloj job.jid = job.pid ∧
          getJobJid s.aloj job.pid = job.jid) := by
  let launch (pid : Int) (aflag : Bool) : Event :=
    .command ["sleep".toList] aflag ⟨pid, [], false, false⟩
  have hreach := Reachable.step (S := shell) (e := .wait false)
    (Reachable.step (e := .child 9 (.stops 20)) (Reachable.step (e := launch 9 false)
      (Reachable.step (e := launch 7 true) (Reachable.init rfl) rfl) rfl) rfl) rfl
  exact ⟨_, rfl, rfl, shell_accounts _ hreach⟩

end CourseProjects.Shell

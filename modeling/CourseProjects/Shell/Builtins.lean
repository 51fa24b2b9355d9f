import CourseProjects.Shell.Control

/-!
# What `bg` and `fg` do

The two commands as the actions they take one after another: which arguments they
read, what they report, and what they do to processes, the job list and the terminal.
-/

namespace CourseProjects.Shell

open CInt (atoi)

/-- `sent` and `granted` tell whether the call succeeds. -/
inductive Action
  | readArg (i : Nat)
  | output (text : String)
  | perror (text : String)
  | killpg (pid : Int) (sent : Bool)
  | updateJobPid (pid : Int) (state : ProcessState)
  | tcsetpgrp (pid : Int) (granted : Bool)
  | waitChild (pid : Int)
  deriving DecidableEq

/-- `sprintf(emsg, "[%d] (%d) could not be updated\n", jid, pid)`. -/
def notUpdated (jid pid : Int) : String :=
  "[" ++ toString jid ++ "] (" ++ toString pid ++ ") could not be updated\n"

def bgActions (l : JobList) (nargs : Nat) (operand : List Char) (resumed : Bool) : List Action :=
  if nargs ≠ 2 then [.output "bg: syntax error\n"]
  else
    .readArg 1 ::
      if operand.head? ≠ some '%' then [.output "bg: job input does not begin with %\n"]
      else
        let p := getJobPid l (atoi operand.tail)
        .readArg 1 ::
          if p ≤ 0 then [.output "bg: could not find job\n"]
          else
            .killpg p resumed ::
              if resumed = false then [.perror "error resuming"]
              else
                .updateJobPid p .running ::
                  if (updateJobPid l p .running).1 < 0 then
                    [.output (notUpdated (getJobJid l p) p)]
                  else []

/-- The report of a wrong number of arguments does not return. -/
def fgActions (l : JobList) (nargs : Nat) (operand : List Char) (resumed granted : Bool) :
    List Action :=
  (if nargs ≠ 2 then [.output "fg: syntax error\n"] else []) ++
    .readArg 1 ::
      if operand.head? ≠ some '%' then [.output "fg: job input does not begin with %\n"]
      else
        let p := getJobPid l (atoi operand.tail)
        .readArg 1 ::
          if p < 0 then [.output "fg: could not find job\n"]
          else
            .killpg p resumed ::
              if resumed = false then [.perror "error resuming"]
              else
                .updateJobPid p .running ::
                  if (updateJobPid l p .running).1 < 0 then
                    [.output (notUpdated (getJobJid l p) p)]
                  else
                    .tcsetpgrp p granted ::
                      if granted = false then [.perror "error change group process"]
                      else [.waitChild p]

/-- The shell, and the process group that owns the terminal. -/
structure Console where
  shell : ShellState
  owner : Int

def Action.apply (c : Console) : Action → Console
  | .killpg pid true => { c with shell.children := c.shell.children.resume pid }
  | .updateJobPid pid state =>
    { c with shell.aloj := (Shell.updateJobPid c.shell.aloj pid state).2 }
  | .tcsetpgrp pid true => { c with owner := pid }
  | .waitChild pid => { c with shell.pc := .waitChild pid }
  | _ => c

/-- The reports of a call that is refused. -/
def refusals (name : String) : List String :=
  [name ++ ": syntax error\n", name ++ ": job input does not begin with %\n",
    name ++ ": could not find job\n"]

/-- An action without effect on processes, the job list and the terminal, that reads
no argument behind the last. -/
def Action.Harmless (nargs : Nat) : Action → Prop
  | .readArg i => i < nargs
  | .output _ => True
  | .perror _ => True
  | .killpg _ sent => sent = false
  | .updateJobPid _ _ => False
  | .tcsetpgrp _ granted => granted = false
  | .waitChild _ => False

/-- A call that reports a refusal does nothing else. -/
def RefusesOnly (name : String) (nargs : Nat) (actions : List Action) : Prop :=
  (∃ text ∈ refusals name, Action.output text ∈ actions) →
    (∀ a ∈ actions, a.Harmless nargs) ∧ ∀ c : Console, actions.foldl Action.apply c = c

variable {l : JobList} {s : ShellState} {nargs : Nat} {operand : List Char}
  {actions : List Action} {resumed granted : Bool}

theorem foldl_harmless (h : ∀ a ∈ actions, a.Harmless nargs) (c : Console) :
    actions.foldl Action.apply c = c := by
  induction actions generalizing c with
  | nil => rfl
  | cons a as ih =>
    have ha : a.apply c = c := by
      have := h a List.mem_cons_self
      cases a with
      | killpg pid sent =>
        cases this
        rfl
      | updateJobPid pid state => exact this.elim
      | tcsetpgrp pid granted =>
        cases this
        rfl
      | waitChild pid => exact this.elim
      | readArg i => rfl
      | output text => rfl
      | perror text => rfl
    rw [List.foldl_cons, ha]
    exact ih (fun b hb => h b (List.mem_cons_of_mem a hb)) c

/-- A job that was found can be updated. -/
theorem updateJobPid_found {jid : Int} {state : ProcessState} (h : 0 ≤ getJobPid l jid) :
    (updateJobPid l (getJobPid l jid) state).1 = 0 := by
  obtain ⟨job, hjob, hpid⟩ : ∃ job ∈ l.jobs, job.pid = getJobPid l jid := by
    unfold getJobPid at h ⊢
    cases hfind : l.jobs.find? fun job => decide (job.jid = jid) with
    | none =>
      rw [hfind] at h
      exact absurd h (by decide)
    | some job => exact ⟨job, List.mem_of_find?_eq_some hfind, rfl⟩
  unfold updateJobPid updateJob
  split
  · next hnone =>
    rw [List.findIdx?_eq_none_iff] at hnone
    exact absurd (hnone job hjob) (by simp [hpid])
  · rfl

/-! ## The two commands of the shell model -/

theorem bg_actions (s : ShellState) (nargs : Nat) (operand : List Char) (resumed : Bool)
    (owner : Int) : bg s nargs operand resumed =
      ((bgActions s.aloj nargs operand resumed).foldl Action.apply ⟨s, owner⟩).shell := by
  unfold bg bgTarget bgActions
  by_cases hnargs : nargs ≠ 2
  · simp [hnargs, Action.apply]
  · by_cases hop : operand.head? ≠ some '%'
    · simp [hnargs, hop, Action.apply]
    · by_cases hp : getJobPid s.aloj (atoi operand.tail) ≤ 0
      · simp [hnargs, hop, hp, Action.apply]
      · have hupdate : (updateJobPid s.aloj (getJobPid s.aloj (atoi operand.tail)) .running).1 = 0 :=
          updateJobPid_found (by omega)
        cases resumed with
        | false => simp [hnargs, hop, hp, Action.apply]
        | true => simp [hnargs, hop, hp, hupdate, Action.apply]

theorem fg_actions (s : ShellState) (nargs : Nat) (operand : List Char) (resumed granted : Bool)
    (owner : Int) : fg s nargs operand resumed granted =
      ((fgActions s.aloj nargs operand resumed granted).foldl Action.apply ⟨s, owner⟩).shell := by
  have hreport : ∀ c : Console,
      (if nargs ≠ 2 then [Action.output "fg: syntax error\n"] else []).foldl Action.apply c =
        c := by
    intro c
    split_ifs <;> rfl
  unfold fg fgTarget fgActions
  rw [List.foldl_append, hreport]
  by_cases hop : operand.head? ≠ some '%'
  · simp [hop, Action.apply]
  · by_cases hp : getJobPid s.aloj (atoi operand.tail) < 0
    · simp [hop, hp, Action.apply]
    · have hupdate : (updateJobPid s.aloj (getJobPid s.aloj (atoi operand.tail)) .running).1 = 0 :=
        updateJobPid_found (by omega)
      cases resumed with
      | false => simp [hop, hp, Action.apply]
      | true =>
        cases granted with
        | false => simp [hop, hp, hupdate, Action.apply]
        | true => simp [hop, hp, hupdate, Action.apply]

/-! ## Refused calls -/

theorem bg_refuses (l : JobList) (nargs : Nat) (operand : List Char) (resumed : Bool) :
    RefusesOnly "bg" nargs (bgActions l nargs operand resumed) := by
  rintro ⟨text, htext, hmem⟩
  suffices hall : ∀ a ∈ bgActions l nargs operand resumed, a.Harmless nargs from
    ⟨hall, foldl_harmless hall⟩
  unfold bgActions at hmem ⊢
  by_cases hnargs : nargs ≠ 2
  · simp [hnargs, Action.Harmless]
  · obtain rfl : nargs = 2 := not_not.mp hnargs
    by_cases hop : operand.head? ≠ some '%'
    · simp [hop, Action.Harmless]
    · by_cases hp : getJobPid l (atoi operand.tail) ≤ 0
      · simp [hop, hp, Action.Harmless]
      · -- nothing is refused
        have hupdate : (updateJobPid l (getJobPid l (atoi operand.tail)) .running).1 = 0 :=
          updateJobPid_found (by omega)
        cases resumed <;> simp [hop, hp, hupdate] at hmem

/-- With two arguments, or with more of which the second names no job, `fg` does nothing
else when it reports. -/
theorem fg_refuses (hargs : nargs = 2 ∨ 3 ≤ nargs ∧
      ¬ (operand.head? = some '%' ∧ 0 ≤ getJobPid l (atoi operand.tail))) :
    RefusesOnly "fg" nargs (fgActions l nargs operand resumed granted) := by
  rintro ⟨text, htext, hmem⟩
  suffices hall : ∀ a ∈ fgActions l nargs operand resumed granted, a.Harmless nargs from
    ⟨hall, foldl_harmless hall⟩
  have hread : 1 < nargs := by omega
  have hreport : ∀ a ∈ (if nargs ≠ 2 then [Action.output "fg: syntax error\n"] else []),
      a.Harmless nargs := by
    split_ifs <;> simp [Action.Harmless]
  unfold fgActions at hmem ⊢
  rw [List.forall_mem_append]
  refine ⟨hreport, ?_⟩
  by_cases hop : operand.head? ≠ some '%'
  · simp [hop, Action.Harmless, hread]
  · by_cases hp : getJobPid l (atoi operand.tail) < 0
    · simp [hop, hp, Action.Harmless, hread]
    · -- nothing is refused
      have hupdate : (updateJobPid l (getJobPid l (atoi operand.tail)) .running).1 = 0 :=
        updateJobPid_found (by omega)
      obtain rfl : nargs = 2 := by
        rcases hargs with h | ⟨-, hnot⟩
        · exact h
        · exact absurd ⟨not_not.mp hop, by omega⟩ hnot
      cases resumed <;> cases granted <;> simp [hop, hp, hupdate] at hmem

/-- **Only `fg` with a wrong number of arguments goes on**: `bg` never does, and `fg`
reads an argument that is not there or acts on the job exactly in the other cases. -/
theorem refuses_iff (l : JobList) (nargs : Nat) (operand : List Char) :
    (∀ resumed, RefusesOnly "bg" nargs (bgActions l nargs operand resumed)) ∧
    ((∀ resumed granted, RefusesOnly "fg" nargs (fgActions l nargs operand resumed granted)) ↔
      nargs = 2 ∨ 3 ≤ nargs ∧
        ¬ (operand.head? = some '%' ∧ 0 ≤ getJobPid l (atoi operand.tail))) := by
  refine ⟨bg_refuses l nargs operand, ?_, fun hargs _ _ => fg_refuses hargs⟩
  intro hall
  by_cases h2 : nargs = 2
  · exact Or.inl h2
  · have hreported : Action.output "fg: syntax error\n" ∈ fgActions l nargs operand true true :=
      List.mem_append_left _ (by simp [h2])
    obtain ⟨hharmless, -⟩ := hall true true ⟨_, List.mem_cons_self, hreported⟩
    have hread : 1 < nargs :=
      hharmless (.readArg 1) (List.mem_append_right _ List.mem_cons_self)
    refine Or.inr ⟨by omega, fun hjob => ?_⟩
    have hp : ¬ getJobPid l (atoi operand.tail) < 0 := by omega
    have hsignal : Action.killpg (getJobPid l (atoi operand.tail)) true ∈
        fgActions l nargs operand true true :=
      List.mem_append_right _ (by simp [hjob.1, hp])
    exact absurd (hharmless _ hsignal) (by simp [Action.Harmless])

/-- One job, and `fg` with its number and a word more. -/
theorem fg_acts_on_job : ¬ ∀ resumed granted, RefusesOnly "fg" 3
    (fgActions (addJob initJobList 1 100 .running (some [])).2 3 ['%', '1'] resumed granted) := by
  intro hall
  obtain ⟨hharmless, -⟩ := hall true true ⟨"fg: syntax error\n", by decide, by decide⟩
  exact absurd (hharmless (.killpg 100 true) (by decide)) (by simp [Action.Harmless])

end CourseProjects.Shell

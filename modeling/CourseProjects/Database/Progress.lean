import CourseProjects.Database.Interleaving

/-!
# No thread is left waiting

A thread waits for a node below all those that it has locked, so the thread that
has locked this node, if it waits too, waits for a smaller subtree. The thread
with the smallest one can go on.
-/

namespace CourseProjects.Database

open TreeHeap SearchTree SearchTree.Tree History

namespace RwLock

variable {lk : RwLock} {i : Tid} {lt : LockType}

/-- A thread that must wait waits for another one. -/
theorem held_of_lock_none (h : lk.lock i lt = none) : ∃ j, lk.heldBy j ≠ none := by
  cases lk with
  | writer u => exact ⟨u, by simp [heldBy]⟩
  | readers ts =>
    cases ts with
    | nil => cases lt <;> cases h
    | cons u ts => exact ⟨u, by simp [heldBy]⟩

theorem eq_free (h : ∀ i, lk.heldBy i = none) : lk = .free := by
  cases lk with
  | writer u =>
    have := h u
    simp [heldBy] at this
  | readers ts =>
    cases ts with
    | nil => rfl
    | cons u ts =>
      have := h u
      simp [heldBy] at this

end RwLock

/-- Some call that has not returned can go on; a lock is asked for only by a
thread that does not hold it and released only by one that does; and when every
call has returned, no lock is held. -/
structure State.Live (s : State) : Prop where
  moves : (∃ i, s.pc i ≠ .idle) → ∃ i, (s.run i).isSome
  requests : ∀ i lt a, (s.pc i).op = some (.lock lt a) → (s.lock a).heldBy i = none
  releases : ∀ i a, (s.pc i).op = some (.unlock a) → (s.lock a).heldBy i ≠ none
  quiet : (∀ i, s.pc i = .idle) → ∀ a, s.lock a = .free

namespace Inv

variable {s : State} {t : NTree} {held path : Tid → List Addr} {st : Tid → Status Call Result}
  {i j : Tid} {a : Addr} (hi : Inv s t held path st)
include hi

theorem idle_held (hpc : s.pc i = .idle) : held i = [] := by
  have hplace := hi.place i
  rw [hpc] at hplace
  generalize held i = as, path i = L, st i = x at hplace ⊢
  cases hplace
  rfl

theorem run_isSome {op : LockOp} {lk : RwLock} (hop : (s.pc i).op = some op)
    (hlk : op.apply i (s.lock op.addr) = some lk) : (s.run i).isSome := by
  obtain ⟨m, hm⟩ := (hi.place i).op_mem hi.shared hop
  simp only [State.run, hop, State.perform, hm, hlk]
  split <;> rfl

/-- A thread can go on, or it waits for a node that another one has locked. -/
theorem runs_or_waits (hpc : s.pc i ≠ .idle) : (s.run i).isSome ∨
    ∃ lt a j, (s.pc i).op = some (.lock lt a) ∧ a ∈ held j := by
  cases hop : (s.pc i).op with
  | none =>
    left
    have hplace := hi.place i
    generalize hpc' : s.pc i = pc at hpc hop hplace
    generalize held i = as, path i = L, st i = x at hplace
    cases hplace with
    | idle => exact absurd rfl hpc
    | @release c as r =>
      simp only [State.run, hpc', hop]
      rfl
    | _ => cases hop
  | some op =>
    cases op with
    | unlock a => exact Or.inl (hi.run_isSome hop rfl)
    | lock lt a =>
      cases hlk : (s.lock a).lock i lt with
      | some lk => exact Or.inl (hi.run_isSome hop hlk)
      | none =>
        obtain ⟨j, hj⟩ := RwLock.held_of_lock_none hlk
        refine Or.inr ⟨lt, a, j, rfl, ?_⟩
        by_contra ha
        rw [hi.locks, if_neg ha] at hj
        exact hj rfl

/-- The induction is on the size of the subtree that the thread waits for. -/
theorem some_runs {k : Nat} (hpc : s.pc i ≠ .idle)
    (hk : ∀ lt a, (s.pc i).op = some (.lock lt a) → (whole t).sizeAt a < k) :
    ∃ j, (s.run j).isSome := by
  induction k generalizing i with
  | zero =>
    rcases hi.runs_or_waits hpc with h | ⟨lt, a, j, hop, -⟩
    · exact ⟨i, h⟩
    · exact absurd (hk lt a hop) (Nat.not_lt_zero _)
  | succ k ih =>
    rcases hi.runs_or_waits hpc with h | ⟨lt, a, j, hop, ha⟩
    · exact ⟨i, h⟩
    · refine ih (i := j) (fun hj => ?_) fun lt' b hop' => ?_
      · rw [hi.idle_held hj] at ha
        cases ha
      · have hlt := ((hi.place j).request hi.shared hop').2 a ha
        have := hk lt a hop
        omega

theorem live : s.Live := by
  refine ⟨?_, fun i lt a hop => ?_, fun i a hop => ?_, fun hidle a => ?_⟩
  · rintro ⟨i, hpc⟩
    rcases hi.runs_or_waits hpc with h | ⟨lt, a, j, hop, -⟩
    · exact ⟨i, h⟩
    · refine hi.some_runs (k := (whole t).sizeAt a + 1) hpc fun lt' b hop' => ?_
      rw [hop] at hop'
      cases hop'
      exact Nat.lt_succ_self _
  · rw [hi.locks, if_neg]
    exact fun h => lt_irrefl _ (((hi.place i).request hi.shared hop).2 a h)
  · rw [hi.locked ((hi.place i).released hop)]
    simp
  · refine RwLock.eq_free fun i => ?_
    rw [hi.locks, hi.idle_held (hidle i), if_neg List.not_mem_nil]

end Inv

/-- **No deadlock.** -/
theorem threads_live {s : State} (hs : fitting.Reachable s) : s.Live := by
  obtain ⟨t, held, path, st, hi⟩ := hs.rule inv_invariant
  exact hi.live

theorem removalAndQuery_live : ∃ s, Transition.System.exec
    (fun s e => if s.copyFits e then s.act e else none) State.init removalAndQuery = some s ∧
      s.Live := by
  have hsome : (Transition.System.exec (fun s e => if s.copyFits e then s.act e else none)
      State.init removalAndQuery).isSome := by decide +kernel
  obtain ⟨s, hs⟩ := Option.isSome_iff_exists.mp hsome
  exact ⟨s, hs, threads_live (fitting_exec hs)⟩

/-! ## Beyond the buffers -/

def Act.tid : Act → Tid
  | call t _ => t
  | run t => t
  | wild t _ => t

/-- A step moves only the thread that makes it. -/
theorem State.act_pc {s s' : State} {e : Act} {i : Tid} (h : s.act e = some s') (hi : i ≠ e.tid) :
    s'.pc i = s.pc i := by
  have hset : ∀ t pc, i ≠ t → (s.setPc t pc).pc i = s.pc i := fun t pc ht =>
    Function.update_of_ne ht _ _
  cases e with
  | call t c =>
    simp only [State.act] at h
    split at h
    · split_ifs at h
      cases h
      exact hset t _ hi
    · cases h
  | wild t db =>
    simp only [State.act] at h
    split at h
    · cases h
      rfl
    · cases h
  | run t =>
    simp only [State.act, State.run] at h
    split at h
    · rename_i op _
      unfold State.perform at h
      split at h
      · cases h
        exact hset t _ hi
      · split at h
        · cases h
        · split at h
          · cases h
            exact hset t _ hi
          · cases h
            exact hset t _ hi
    · split at h
      · cases h
        exact hset t _ hi
      · cases h

theorem State.exec_pc {s s' : State} {es : List Act} {i : Tid}
    (h : Transition.System.exec State.act s es = some s') (hi : ∀ e ∈ es, i ≠ e.tid) :
    s'.pc i = s.pc i := by
  induction es generalizing s with
  | nil =>
    cases h
    rfl
  | cons e es ih =>
    obtain ⟨s₁, he, h⟩ := Option.bind_eq_some_iff.mp h
    rw [ih h fun e he => hi e (List.mem_cons_of_mem _ he)]
    exact State.act_pc he (hi e List.mem_cons_self)

/-- After the overflow the removal does not return, and nobody can go on. -/
theorem overflow_not_live : ∃ s, threads.Reachable s ∧ (∃ i, s.pc i ≠ .idle) ∧
    ∀ i, s.run i = none := by
  obtain ⟨s, hs, hrun, hpc⟩ := overflowRun_crashes
  refine ⟨s, hs, ⟨0, by simp [hpc]⟩, fun i => ?_⟩
  by_cases hi : i = 0
  · subst hi
    simp [State.run, hpc, Pc.op]
  · have htid : ∀ e ∈ overflowRun, e.tid = 0 := by decide
    have hidle : s.pc i = .idle := State.exec_pc hrun fun e he => htid e he ▸ hi
    simp [State.run, hidle, Pc.op]

end CourseProjects.Database

import Mathlib.Logic.Function.Basic
import Mathlib.Tactic.SplitIfs
import CourseProjects.Lib.Transition

/-!
# Stopping and releasing the clients

Before every command a client thread goes through `client_control_wait`; `main` closes and
opens it with `client_control_stop` and `client_control_release`. The steps are those
between two operations on `go_mutex`. A sleeping thread may be woken for no reason, and one
that is cancelled in `pthread_cond_wait` gets the mutex back before its cleanup handler runs.
-/

namespace CourseProjects.Database.Gate

open Transition

/-- Where a client thread is: in `comm_serve`, in `client_control_wait` before the mutex, at
the test, in `pthread_cond_wait`, woken there, behind the loop, then in `interpret_command`;
in the cleanup handler; and at its end. -/
inductive Place
  | serving
  | locking
  | testing
  | asleep
  | awake
  | unlocking
  | executing
  | unwinding
  | ended
  deriving DecidableEq

/-- Where `main` is: at `read`, at the start of `client_control_stop` and behind its lock, at
the start of `client_control_release`, behind its lock and behind the assignment; before the
unlock of either. -/
inductive Main
  | reading
  | stopLocking
  | stopping
  | goLocking
  | releasing
  | broadcasting
  | unlocking
  deriving DecidableEq

inductive Holder (C : Type*)
  | main
  | client (c : C)
  deriving DecidableEq

def Place.holds : Place → Bool
  | testing | unlocking | unwinding => true
  | _ => false

def Main.holds : Main → Bool
  | stopping | releasing | broadcasting | unlocking => true
  | _ => false

/-- `pthread_cond_broadcast`. -/
def Place.wake : Place → Place
  | asleep => awake
  | p => p

/-- `c_control`, who holds `go_mutex`, and the threads. The number of commands that have been
let through is kept for the statements. -/
structure State (C : Type*) where
  stopped : Bool
  owner : Option (Holder C)
  place : C → Place
  main : Main
  passed : Nat

inductive Act (C : Type*)
  | receive (c : C)
  | disconnect (c : C)
  | lock (c : C)
  | test (c : C)
  | rouse (c : C)
  | relock (c : C)
  | unlock (c : C)
  | finish (c : C)
  | cancel (c : C)
  | unwind (c : C)
  | readStop
  | readGo
  | lockStop
  | stop
  | lockGo
  | release
  | broadcast
  | unlockMain
  deriving DecidableEq

variable {C : Type*}

def State.setPlace [DecidableEq C] (s : State C) (c : C) (p : Place) : State C :=
  { s with place := Function.update s.place c p }

inductive Step [DecidableEq C] : State C → Act C → State C → Prop
  -- a command has come
  | receive {s : State C} {c : C} : s.place c = .serving → Step s (.receive c) (s.setPlace c .locking)
  -- the client has gone, or is cancelled outside the gate
  | disconnect {s : State C} {c : C} : s.place c = .serving ∨ s.place c = .executing →
      Step s (.disconnect c) (s.setPlace c .ended)
  | lock {s : State C} {c : C} : s.place c = .locking → s.owner = none →
      Step s (.lock c) { s.setPlace c .testing with owner := some (.client c) }
  | sleep {s : State C} {c : C} : s.place c = .testing → s.stopped = true →
      Step s (.test c) { s.setPlace c .asleep with owner := none }
  | goOn {s : State C} {c : C} : s.place c = .testing → s.stopped = false →
      Step s (.test c) (s.setPlace c .unlocking)
  | rouse {s : State C} {c : C} : s.place c = .asleep → Step s (.rouse c) (s.setPlace c .awake)
  | relock {s : State C} {c : C} : s.place c = .awake → s.owner = none →
      Step s (.relock c) { s.setPlace c .testing with owner := some (.client c) }
  -- `interpret_command` comes next
  | unlock {s : State C} {c : C} : s.place c = .unlocking →
      Step s (.unlock c) { s.setPlace c .executing with owner := none, passed := s.passed + 1 }
  | finish {s : State C} {c : C} : s.place c = .executing → Step s (.finish c) (s.setPlace c .serving)
  | cancel {s : State C} {c : C} : s.place c = .asleep ∨ s.place c = .awake → s.owner = none →
      Step s (.cancel c) { s.setPlace c .unwinding with owner := some (.client c) }
  | unwind {s : State C} {c : C} : s.place c = .unwinding →
      Step s (.unwind c) { s.setPlace c .ended with owner := none }
  | readStop {s : State C} : s.main = .reading → Step s .readStop { s with main := .stopLocking }
  | readGo {s : State C} : s.main = .reading → Step s .readGo { s with main := .goLocking }
  | lockStop {s : State C} : s.main = .stopLocking → s.owner = none →
      Step s .lockStop { s with main := .stopping, owner := some .main }
  | stop {s : State C} : s.main = .stopping →
      Step s .stop { s with main := .unlocking, stopped := true }
  | lockGo {s : State C} : s.main = .goLocking → s.owner = none →
      Step s .lockGo { s with main := .releasing, owner := some .main }
  | release {s : State C} : s.main = .releasing →
      Step s .release { s with main := .broadcasting, stopped := false }
  | broadcast {s : State C} : s.main = .broadcasting →
      Step s .broadcast { s with main := .unlocking, place := fun c => (s.place c).wake }
  | unlockMain {s : State C} : s.main = .unlocking →
      Step s .unlockMain { s with main := .reading, owner := none }

/-- The server at the start of `main`, with any threads that have not begun to serve. -/
def system (C : Type*) [DecidableEq C] : System (State C) (Act C) where
  init s := s.stopped = false ∧ s.owner = none ∧ (∀ c, s.place c = .serving) ∧ s.main = .reading
  step := Step

variable {s s' : State C} {a : Act C} {c d : C} {p : Place}

/-! ## The mutex and the gate -/

/-- **The invariant.** -/
structure GateInv (s : State C) : Prop where
  client : ∀ c, s.owner = some (.client c) ↔ (s.place c).holds = true
  main : s.owner = some .main ↔ s.main.holds = true
  passing : ∀ c, s.place c = .unlocking → s.stopped = false
  sleeping : ∀ c, s.place c = .asleep → s.stopped = true ∨ s.main = .broadcasting

/-- A step of `main` that changes no client. -/
theorem GateInv.ofMain {m : Main} {o : Option (Holder C)} {b : Bool} (hi : GateInv s)
    (hclient : ∀ c, s.owner ≠ some (.client c)) (hclient' : ∀ c, o ≠ some (.client c))
    (hmain : o = some .main ↔ m.holds = true)
    (hsleep : ∀ c, s.place c = .asleep → b = true ∨ m = .broadcasting) :
    GateInv { s with main := m, owner := o, stopped := b } := by
  refine ⟨fun c => ?_, hmain, fun c h => ?_, hsleep⟩
  · refine iff_of_false (hclient' c) fun h => ?_
    exact hclient c ((hi.client c).mpr h)
  · have hholds : (s.place c).holds = true := by rw [show s.place c = .unlocking from h]; rfl
    exact absurd ((hi.client c).mpr hholds) (hclient c)

theorem GateInv.owner_main (hi : GateInv s) (h : s.main.holds = true) (c : C) :
    s.owner ≠ some (.client c) := by
  rw [hi.main.mpr h]
  nofun

variable [DecidableEq C]

theorem setPlace_place (s : State C) (c : C) (p : Place) (d : C) :
    (s.setPlace c p).place d = if d = c then p else s.place d := by
  unfold State.setPlace
  by_cases h : d = c
  · rw [if_pos h, h]
    exact Function.update_self ..
  · rw [if_neg h]
    exact Function.update_of_ne h ..

/-- A thread moves on and neither takes nor gives back the mutex. -/
theorem GateInv.stay (hi : GateInv s) (hp : p.holds = (s.place c).holds)
    (hpass : p = .unlocking → s.stopped = false) (hsleep : p ≠ .asleep) : GateInv (s.setPlace c p) := by
  refine ⟨fun d => ?_, hi.main, fun d h => ?_, fun d h => ?_⟩
  · rw [setPlace_place]
    split_ifs with hd
    · rw [hp, hd]
      exact hi.client c
    · exact hi.client d
  · rw [setPlace_place] at h
    split_ifs at h
    · exact hpass h
    · exact hi.passing d h
  · rw [setPlace_place] at h
    split_ifs at h
    · exact absurd h hsleep
    · exact hi.sleeping d h

theorem GateInv.acquire (hi : GateInv s) (hfree : s.owner = none) (hp : p.holds = true)
    (hpass : p ≠ .unlocking) : GateInv { s.setPlace c p with owner := some (.client c) } := by
  have hmain : s.main.holds = false := by
    by_contra h
    have := hi.main.mpr (by simpa using h)
    rw [hfree] at this
    cases this
  refine ⟨fun d => ?_, ?_, fun d h => ?_, fun d h => ?_⟩
  · change some (Holder.client c) = some (.client d) ↔ ((s.setPlace c p).place d).holds = true
    rw [setPlace_place]
    split_ifs with hd
    · exact iff_of_true (by rw [hd]) hp
    · refine iff_of_false (fun h => hd (by injection h with h; injection h with h; exact h.symm)) ?_
      intro h
      have := (hi.client d).mpr h
      rw [hfree] at this
      cases this
  · exact iff_of_false nofun (by simpa [State.setPlace] using hmain)
  · change (s.setPlace c p).place d = .unlocking at h
    rw [setPlace_place] at h
    split_ifs at h
    · exact absurd h hpass
    · exact hi.passing d h
  · change (s.setPlace c p).place d = .asleep at h
    rw [setPlace_place] at h
    split_ifs at h
    · rw [h] at hp
      cases hp
    · exact hi.sleeping d h

theorem GateInv.giveBack (hi : GateInv s) (hc : (s.place c).holds = true) (hp : p.holds = false)
    (hsleep : p = .asleep → s.stopped = true) (n : Nat) :
    GateInv { s.setPlace c p with owner := none, passed := n } := by
  have howner := (hi.client c).mpr hc
  have hmain : s.main.holds = false := by
    by_contra h
    have := hi.main.mpr (by simpa using h)
    rw [howner] at this
    cases this
  refine ⟨fun d => ?_, ?_, fun d h => ?_, fun d h => ?_⟩
  · change none = some (Holder.client d) ↔ ((s.setPlace c p).place d).holds = true
    rw [setPlace_place]
    refine iff_of_false nofun ?_
    split_ifs with hd
    · rw [hp]
      exact Bool.false_ne_true
    · intro h
      have := (hi.client d).mpr h
      rw [howner] at this
      injection this with this
      injection this with this
      exact hd this.symm
  · exact iff_of_false nofun (by simpa [State.setPlace] using hmain)
  · change (s.setPlace c p).place d = .unlocking at h
    rw [setPlace_place] at h
    split_ifs at h
    · rw [h] at hp
      cases hp
    · exact hi.passing d h
  · change (s.setPlace c p).place d = .asleep at h
    rw [setPlace_place] at h
    split_ifs at h
    · exact Or.inl (hsleep h)
    · exact hi.sleeping d h

theorem wake_holds (p : Place) : p.wake.holds = p.holds := by
  cases p <;> rfl

theorem GateInv.step (hi : GateInv s) (hs : Step s a s') : GateInv s' := by
  cases hs with
  | receive h => exact hi.stay (by rw [h]; rfl) nofun nofun
  | disconnect h =>
    refine hi.stay ?_ nofun nofun
    rcases h with h | h <;> rw [h] <;> rfl
  | lock h hfree => exact hi.acquire hfree rfl nofun
  | sleep h hstop => exact hi.giveBack (p := .asleep) (by rw [h]; rfl) rfl (fun _ => hstop) _
  | goOn h hgo => exact hi.stay (by rw [h]; rfl) (fun _ => hgo) nofun
  | rouse h => exact hi.stay (by rw [h]; rfl) nofun nofun
  | relock h hfree => exact hi.acquire hfree rfl nofun
  | unlock h => exact hi.giveBack (p := .executing) (by rw [h]; rfl) rfl nofun _
  | finish h => exact hi.stay (by rw [h]; rfl) nofun nofun
  | cancel h hfree => exact hi.acquire hfree rfl nofun
  | unwind h => exact hi.giveBack (p := .ended) (by rw [h]; rfl) rfl nofun _
  | readStop h =>
    have hsleep := fun c hc => (hi.sleeping c hc).resolve_right (by rw [h]; nofun)
    refine ⟨hi.client, ?_, hi.passing, fun c hc => Or.inl (hsleep c hc)⟩
    exact hi.main.trans (by rw [h]; exact Iff.rfl)
  | readGo h =>
    have hsleep := fun c hc => (hi.sleeping c hc).resolve_right (by rw [h]; nofun)
    refine ⟨hi.client, ?_, hi.passing, fun c hc => Or.inl (hsleep c hc)⟩
    exact hi.main.trans (by rw [h]; exact Iff.rfl)
  | lockStop h hfree =>
    refine hi.ofMain (by rw [hfree]; nofun) nofun (iff_of_true rfl rfl) fun c hc => ?_
    exact Or.inl ((hi.sleeping c hc).resolve_right (by rw [h]; nofun))
  | stop h =>
    have howner := hi.owner_main (by rw [h]; rfl)
    exact hi.ofMain howner howner (hi.main.trans (by rw [h]; exact Iff.rfl)) fun c _ => Or.inl rfl
  | lockGo h hfree =>
    refine hi.ofMain (by rw [hfree]; nofun) nofun (iff_of_true rfl rfl) fun c hc => ?_
    exact Or.inl ((hi.sleeping c hc).resolve_right (by rw [h]; nofun))
  | release h =>
    have howner := hi.owner_main (by rw [h]; rfl)
    exact hi.ofMain howner howner (hi.main.trans (by rw [h]; exact Iff.rfl)) fun c _ => Or.inr rfl
  | broadcast h =>
    refine ⟨fun c => ?_, hi.main.trans (by rw [h]; exact Iff.rfl), fun c hc => ?_, fun c hc => ?_⟩
    · rw [wake_holds]
      exact hi.client c
    · refine hi.passing c ?_
      cases hp : s.place c <;> simp [hp, Place.wake] at hc ⊢
    · cases hp : s.place c <;> simp [hp, Place.wake] at hc
  | unlockMain h =>
    refine hi.ofMain (hi.owner_main (by rw [h]; rfl)) nofun (iff_of_false nofun nofun) fun c hc => ?_
    exact Or.inl ((hi.sleeping c hc).resolve_right (by rw [h]; nofun))

theorem gateInv_reachable (hs : (system C).Reachable s) : GateInv s := by
  refine System.Reachable.rule ⟨?_, fun s a s' hi h => hi.step h⟩ hs
  rintro s ⟨hstop, hfree, hplace, hmain⟩
  refine ⟨fun c => ?_, ?_, fun c h => ?_, fun c h => ?_⟩
  · exact iff_of_false (by rw [hfree]; nofun) (by rw [hplace]; nofun)
  · exact iff_of_false (by rw [hfree]; nofun) (by rw [hmain]; nofun)
  · exact hstop
  · rw [hplace] at h
    cases h

/-- Some steps, none of which is the assignment in `client_control_release`. -/
inductive Closed : State C → State C → Prop
  | refl (s : State C) : Closed s s
  | tail {s t u : State C} {a : Act C} : Closed s t → a ≠ .release → Step t a u → Closed s u

theorem Step.stays_stopped (hi : GateInv s) (hstop : s.stopped = true) (ha : a ≠ .release)
    (hs : Step s a s') : s'.stopped = true ∧ s'.passed = s.passed := by
  cases hs with
  | unlock h => exact absurd ((hi.passing _ h).symm.trans hstop) nofun
  | release h => exact absurd rfl ha
  | stop h => exact ⟨rfl, rfl⟩
  | _ => exact ⟨hstop, rfl⟩

/-- **The gate.** The mutex is held by the thread that is between a lock and an unlock (one
that is cancelled in the wait has it until its cleanup handler unlocks) and by no other. As
long as the clients are stopped, no command is let through; and when they are not, no thread
sleeps on, but for the moment before the broadcast. -/
theorem gate_closed (hs : (system C).Reachable s) :
    (∀ c, s.owner = some (.client c) ↔ (s.place c).holds = true) ∧
      (s.owner = some .main ↔ s.main.holds = true) ∧
      (s.stopped = true → ∀ s', Closed s s' → s'.stopped = true ∧ s'.passed = s.passed) ∧
      (s.stopped = false → s.main ≠ .broadcasting → ∀ c, s.place c ≠ .asleep) := by
  have hi := gateInv_reachable hs
  refine ⟨hi.client, hi.main, fun hstop s' hrun => ?_, fun hgo hmain c hc => ?_⟩
  · have hall : (system C).Reachable s' ∧ s'.stopped = true ∧ s'.passed = s.passed := by
      induction hrun with
      | refl => exact ⟨hs, hstop, rfl⟩
      | tail _ ha h ih =>
        obtain ⟨hreach, hstop', hpassed⟩ := ih
        obtain ⟨hstop'', hpassed'⟩ := h.stays_stopped (gateInv_reachable hreach) hstop' ha
        exact ⟨.step hreach h, hstop'', hpassed'.trans hpassed⟩
    exact hall.2
  · rcases hi.sleeping c hc with h | h
    · rw [hgo] at h
      cases h
    · exact hmain h

/-- `main` reads an `s` while one client waits for the mutex. -/
theorem stop_closes : ∃ s : State Unit, s.stopped = true ∧ s.owner = none ∧ s.place () = .locking ∧
    (∀ c, s.owner = some (.client c) ↔ (s.place c).holds = true) ∧
      (s.owner = some .main ↔ s.main.holds = true) ∧
      (s.stopped = true → ∀ s', Closed s s' → s'.stopped = true ∧ s'.passed = s.passed) ∧
      (s.stopped = false → s.main ≠ .broadcasting → ∀ c, s.place c ≠ .asleep) := by
  have h₀ : (system Unit).Reachable ⟨false, none, fun _ => .serving, .reading, 0⟩ :=
    .init ⟨rfl, rfl, fun _ => rfl, rfl⟩
  have h₁ := h₀.step (.receive (c := ()) rfl)
  have h₂ := h₁.step (.readStop rfl)
  have h₃ := h₂.step (.lockStop rfl rfl)
  have h₄ := h₃.step (.stop rfl)
  have h₅ := h₄.step (.unlockMain rfl)
  exact ⟨_, rfl, rfl, rfl, gate_closed h₅⟩

/-! ## No thread is stuck at the gate -/

/-- The thread has a command and has not been cancelled. -/
def Place.Due : Place → Prop
  | locking | testing | asleep | awake | unlocking | executing => True
  | serving | unwinding | ended => False

/-- What the threads do by themselves: nobody is woken for no reason or cancelled, no client
sends a command, and the user types nothing. -/
def Act.Own : Act C → Prop
  | .lock _ | .test _ | .relock _ | .unlock _ | .unwind _ => True
  | .lockStop | .stop | .lockGo | .release | .broadcast | .unlockMain => True
  | .receive _ | .disconnect _ | .rouse _ | .finish _ | .cancel _ | .readStop | .readGo => False

def Runs : State C → State C → Prop :=
  Relation.ReflTransGen fun s s' => ∃ a : Act C, a.Own ∧ Step s a s'

/-- A run in which every thread keeps its command. -/
def Leads (s s' : State C) : Prop := Runs s s' ∧ ∀ c, (s.place c).Due → (s'.place c).Due

theorem Leads.refl (s : State C) : Leads s s := ⟨.refl, fun _ h => h⟩

theorem Leads.trans {t : State C} (h : Leads s s') (h' : Leads s' t) : Leads s t :=
  ⟨h.1.trans h'.1, fun c hc => h'.2 c (h.2 c hc)⟩

theorem Step.leads (h : Step s a s') (ha : a.Own)
    (hdue : ∀ c, (s.place c).Due → (s'.place c).Due) : Leads s s' :=
  ⟨.single ⟨a, ha, h⟩, hdue⟩

/-- A step of one thread. -/
theorem due_set (hp : (s.place c).Due → p.Due) :
    ∀ d, (s.place d).Due → ((s.setPlace c p).place d).Due := by
  intro d hd
  rw [setPlace_place]
  split_ifs with h
  · exact hp (h ▸ hd)
  · exact hd

theorem wake_due (p : Place) : p.wake.Due ↔ p.Due := by
  cases p <;> rfl

theorem GateInv.leads (hi : GateInv s) (h : Leads s s') : GateInv s' := by
  have hrun := h.1
  clear h
  induction hrun with
  | refl => exact hi
  | tail _ h ih =>
    obtain ⟨a, -, hstep⟩ := h
    exact ih.step hstep

/-- A client that has the mutex gives it back. -/
theorem GateInv.client_leaves (hi : GateInv s) (h : s.owner = some (.client d)) :
    ∃ s', Leads s s' ∧ s'.owner = none := by
  have hholds := (hi.client d).mp h
  have hunlock : ∀ t : State C, t.place d = .unlocking → ∃ t', Leads t t' ∧ t'.owner = none :=
    fun t ht => ⟨_, (Step.unlock ht).leads trivial (due_set fun _ => trivial), rfl⟩
  cases hp : s.place d with
  | testing =>
    cases hstop : s.stopped with
    | true => exact ⟨_, (Step.sleep hp hstop).leads trivial (due_set fun _ => trivial), rfl⟩
    | false =>
      obtain ⟨t, ht, hfree⟩ := hunlock (s.setPlace d .unlocking) (by rw [setPlace_place, if_pos rfl])
      exact ⟨t, ((Step.goOn hp hstop).leads trivial (due_set fun _ => trivial)).trans ht, hfree⟩
  | unlocking => exact hunlock s hp
  | unwinding =>
    exact ⟨_, (Step.unwind hp).leads trivial (due_set fun h => by rw [hp] at h; exact h.elim), rfl⟩
  | serving | locking | asleep | awake | executing | ended =>
    rw [hp] at hholds
    cases hholds

theorem unlock_leads (h : s.main = .unlocking) :
    ∃ s', Leads s s' ∧ s'.owner = none ∧ s'.main = .reading ∧ s'.stopped = s.stopped :=
  ⟨_, (Step.unlockMain h).leads trivial fun _ hc => hc, rfl, rfl, rfl⟩

theorem broadcast_leads (h : s.main = .broadcasting) :
    ∃ s', Leads s s' ∧ s'.owner = none ∧ s'.main = .reading ∧ s'.stopped = s.stopped := by
  obtain ⟨t, ht, hend⟩ := unlock_leads
    (s := { s with main := .unlocking, place := fun c => (s.place c).wake }) rfl
  exact ⟨t, ((Step.broadcast h).leads trivial fun c hc => (wake_due _).mpr hc).trans ht, hend⟩

theorem release_leads (h : s.main = .releasing) :
    ∃ s', Leads s s' ∧ s'.owner = none ∧ s'.main = .reading ∧ s'.stopped = false := by
  obtain ⟨t, ht, hend⟩ := broadcast_leads (s := { s with main := .broadcasting, stopped := false }) rfl
  exact ⟨t, ((Step.release h).leads trivial fun _ hc => hc).trans ht, hend⟩

theorem go_leads (h : s.main = .goLocking) (hfree : s.owner = none) :
    ∃ s', Leads s s' ∧ s'.owner = none ∧ s'.main = .reading ∧ s'.stopped = false := by
  obtain ⟨t, ht, hend⟩ := release_leads (s := { s with main := .releasing, owner := some .main }) rfl
  exact ⟨t, ((Step.lockGo h hfree).leads trivial fun _ hc => hc).trans ht, hend⟩

theorem stopping_leads (h : s.main = .stopping) :
    ∃ s', Leads s s' ∧ s'.owner = none ∧ s'.main = .reading := by
  obtain ⟨t, ht, hfree, hread, -⟩ :=
    unlock_leads (s := { s with main := .unlocking, stopped := true }) rfl
  exact ⟨t, ((Step.stop h).leads trivial fun _ hc => hc).trans ht, hfree, hread⟩

/-- `main` comes back to `read` and leaves the mutex free. -/
theorem GateInv.main_leaves (hi : GateInv s) (h : ∀ c, s.owner ≠ some (.client c)) :
    ∃ s', Leads s s' ∧ s'.owner = none ∧ s'.main = .reading := by
  have hfree : s.main.holds = false → s.owner = none := by
    intro hno
    cases howner : s.owner with
    | none => rfl
    | some o =>
      cases o with
      | main =>
        rw [hi.main.mp howner] at hno
        cases hno
      | client c => exact absurd howner (h c)
  cases hm : s.main with
  | reading => exact ⟨s, .refl s, hfree (by rw [hm]; rfl), hm⟩
  | stopLocking =>
    have hstep := Step.lockStop hm (hfree (by rw [hm]; rfl))
    obtain ⟨t, ht, hend⟩ := stopping_leads (s := { s with main := .stopping, owner := some .main }) rfl
    exact ⟨t, (hstep.leads trivial fun _ hc => hc).trans ht, hend⟩
  | stopping => exact stopping_leads hm
  | goLocking =>
    obtain ⟨t, ht, hfree', hread, -⟩ := go_leads hm (hfree (by rw [hm]; rfl))
    exact ⟨t, ht, hfree', hread⟩
  | releasing =>
    obtain ⟨t, ht, hfree', hread, -⟩ := release_leads hm
    exact ⟨t, ht, hfree', hread⟩
  | broadcasting =>
    obtain ⟨t, ht, hfree', hread, -⟩ := broadcast_leads hm
    exact ⟨t, ht, hfree', hread⟩
  | unlocking =>
    obtain ⟨t, ht, hfree', hread, -⟩ := unlock_leads hm
    exact ⟨t, ht, hfree', hread⟩

/-- Whoever has the mutex gives it back, and `main` comes back to `read`. -/
theorem GateInv.reads (hi : GateInv s) :
    ∃ s', Leads s s' ∧ s'.owner = none ∧ s'.main = .reading := by
  obtain ⟨t, ht, hfree⟩ : ∃ t, Leads s t ∧ ∀ c, t.owner ≠ some (.client c) := by
    cases howner : s.owner with
    | none => exact ⟨s, .refl s, by rw [howner]; nofun⟩
    | some o =>
      cases o with
      | main => exact ⟨s, .refl s, by rw [howner]; nofun⟩
      | client d =>
        obtain ⟨t, ht, hfree⟩ := hi.client_leaves howner
        exact ⟨t, ht, by rw [hfree]; nofun⟩
  obtain ⟨s', hs', hend⟩ := (hi.leads ht).main_leaves hfree
  exact ⟨s', ht.trans hs', hend⟩

end CourseProjects.Database.Gate

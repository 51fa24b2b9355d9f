import CourseProjects.Database.Server

/-!
# Counting the client threads

`delete_all` sets `num_client_threads` to 0 while cancelled threads have not
counted themselves out. Where it is only run when no thread is counted, and the
wait loop only ends when no new thread is on its way, the counter is exact and
the database is cleaned up after the last command.
-/

namespace CourseProjects.Database.Server

open Transition

variable {s s' : State} {a : Act} {c : Client} {pc : Pc}

/-- No reset of the counter while a thread is counted, and no end of the wait loop
while the listener or a new thread can still count in. -/
def Orderly (s : State) : Act → Prop
  | .monitorReset | .mainReset => s.threadsIn = 0
  | .pass => s.listener ≠ .accepted ∧ ∀ c, s.pc c ≠ .created
  | _ => True

/-- `main` has cancelled the listener. -/
def Main.PastListener : Main → Prop
  | .loop | .cancelListener => False
  | _ => True

structure Counted (s : State) : Prop where
  nodup : s.clients.Nodup
  mem : ∀ c, c ∈ s.clients ↔ s.pc c ≠ .none
  count : s.numClientThreads = s.threadsIn
  listener : s.main.PastListener → s.listenerCancelled = true
  quiet : s.main = .cleanup → s.listener ≠ .accepted ∧ ∀ c, ¬ (s.pc c).CanExecute

/-! ## The count after a step of one client -/

theorem countP_flip {α : Type} {p q : α → Bool} {l : List α} {x : α} (hnd : l.Nodup) (hx : x ∈ l)
    (hp : p x = false) (hq : q x = true) (hne : ∀ y, y ≠ x → q y = p y) :
    l.countP q = l.countP p + 1 := by
  obtain ⟨l₁, l₂, rfl⟩ := List.append_of_mem hx
  obtain ⟨-, hnd₂, hdisj⟩ := List.nodup_append.mp hnd
  have h₁ : l₁.countP q = l₁.countP p := by
    refine List.countP_congr fun y hy => ?_
    rw [hne y fun h => hdisj y hy x List.mem_cons_self h]
  have h₂ : l₂.countP q = l₂.countP p := by
    refine List.countP_congr fun y hy => ?_
    rw [hne y fun h => (List.nodup_cons.mp hnd₂).1 (h ▸ hy)]
  simp only [List.countP_append, List.countP_cons, h₁, h₂, hp, hq, ↓reduceIte, Bool.false_eq_true]
  omega

theorem threadsIn_enter (hi : Counted s) (hc : s.pc c ≠ .none)
    (hout : (s.pc c).isIn = false) (hin : pc.isIn = true) : (s.setPc c pc).threadsIn = s.threadsIn + 1 := by
  refine countP_flip hi.nodup ((hi.mem c).mpr hc) hout ?_ fun d hd => ?_
  · simpa [State.setPc] using hin
  · simp [State.setPc, hd]

theorem threadsIn_leave (hi : Counted s) (hin : (s.pc c).isIn = true) (hout : pc.isIn = false) :
    s.threadsIn = (s.setPc c pc).threadsIn + 1 := by
  have hc : s.pc c ≠ .none := fun h => by simp [h, Pc.isIn] at hin
  refine countP_flip hi.nodup ((hi.mem c).mpr hc) ?_ hin fun d hd => ?_
  · simpa [State.setPc] using hout
  · simp [State.setPc, hd]

theorem threadsIn_stay (h : (s.pc c).isIn = pc.isIn) : (s.setPc c pc).threadsIn = s.threadsIn := by
  refine List.countP_congr fun d _ => ?_
  by_cases hd : d = c
  · subst hd
    simp [State.setPc, h]
  · simp [State.setPc, hd]

/-- A step that moves the client `c` on and leaves the other threads alone. -/
theorem Counted.moved {n : Int} (hi : Counted s) (c : Client) (pc : Pc)
    (hc : s.pc c ≠ .none) (hpc : pc ≠ .none) (hexec : pc.CanExecute → (s.pc c).CanExecute)
    (hclients : s'.clients = s.clients) (hpcs : s'.pc = Function.update s.pc c pc)
    (hn : s'.numClientThreads = n) (hcount : n = (s.setPc c pc).threadsIn) (hmain : s'.main = s.main)
    (hlistener : s'.listener = s.listener)
    (hcancelled : s'.listenerCancelled = s.listenerCancelled) : Counted s' := by
  refine ⟨hclients ▸ hi.nodup, fun d => ?_, ?_, ?_, fun hm => ⟨?_, fun d => ?_⟩⟩
  · rw [hclients, hi.mem, hpcs]
    by_cases hd : d = c
    · subst hd
      simp [hc, hpc]
    · simp [hd]
  · rw [hn, hcount, State.threadsIn, State.threadsIn, hclients, hpcs]
    rfl
  · rw [hmain, hcancelled]
    exact hi.listener
  · rw [hlistener]
    exact (hi.quiet (hmain ▸ hm)).1
  · have hq := (hi.quiet (hmain ▸ hm)).2
    rw [hpcs]
    by_cases hd : d = c
    · subst hd
      simpa using fun h => hq d (hexec h)
    · simpa [hd] using hq d

/-- A step of the listener, the monitor or `main` that starts no thread. -/
theorem Counted.elsewhere (hi : Counted s) (hclients : s'.clients = s.clients) (hpcs : s'.pc = s.pc)
    (hn : s'.numClientThreads = s.threadsIn)
    (hlistener : s'.main.PastListener → s'.listenerCancelled = true)
    (hquiet : s'.main = .cleanup → s'.listener ≠ .accepted ∧ ∀ c, ¬ (s.pc c).CanExecute) :
    Counted s' := by
  refine ⟨hclients ▸ hi.nodup, fun d => ?_, ?_, hlistener, ?_⟩
  · rw [hclients, hi.mem, hpcs]
  · rw [hn, State.threadsIn, State.threadsIn, hclients, hpcs]
  · rw [hpcs]
    exact hquiet

theorem Counted.construct (hi : Counted s) (hlistener : s.listener = .accepted)
    (hc : s.pc c = .none) : Counted { s.clientConstructor c with listener := .accepting } := by
  have hnew : c ∉ s.clients := fun h => (hi.mem c).mp h hc
  refine ⟨List.nodup_cons.mpr ⟨hnew, hi.nodup⟩, fun d => ?_, ?_, hi.listener, fun hm => ?_⟩
  · by_cases hd : d = c
    · subst hd
      simp [State.clientConstructor]
    · simp [State.clientConstructor, hd, hi.mem]
  · have hold : s.clients.countP (fun d => (Function.update s.pc c .created d).isIn) =
        s.threadsIn := by
      refine List.countP_congr fun d hd => ?_
      have hne : d ≠ c := fun h => hnew (h ▸ hd)
      simp [hne]
    have hcreated : ¬ Pc.created.isIn = true := Bool.false_ne_true
    simp only [State.threadsIn, State.clientConstructor, List.countP_cons, Function.update_self,
      hcreated]
    rw [hold]
    exact hi.count
  · exact absurd hlistener (hi.quiet hm).1

theorem register_frame (s : State) (c : Client) :
    (s.register c).clients = s.clients ∧ (s.register c).pc = Function.update s.pc c .running ∧
      (s.register c).numClientThreads = s.numClientThreads ∧ (s.register c).main = s.main ∧
      (s.register c).listener = s.listener ∧
      (s.register c).listenerCancelled = s.listenerCancelled := by
  unfold State.register
  cases s.threadListHead <;> exact ⟨rfl, rfl, rfl, rfl, rfl, rfl⟩

theorem threadCleanup_frame (s : State) (c : Client) :
    (s.threadCleanup c).clients = s.clients ∧
      (s.threadCleanup c).pc = Function.update s.pc c .cleaned ∧
      (s.threadCleanup c).numClientThreads = s.numClientThreads ∧
      (s.threadCleanup c).main = s.main ∧ (s.threadCleanup c).listener = s.listener ∧
      (s.threadCleanup c).listenerCancelled = s.listenerCancelled := by
  unfold State.threadCleanup
  cases s.prev c <;> cases s.next c <;> exact ⟨rfl, rfl, rfl, rfl, rfl, rfl⟩

theorem Counted.step (hi : Counted s) (hok : Orderly s a) (hs : Step s a s') : Counted s' := by
  cases hs with
  | accept hl hc =>
    refine hi.elsewhere rfl rfl hi.count hi.listener fun hm => ?_
    have := hi.listener (by rw [show s.main = .cleanup from hm]; trivial)
    rw [hc] at this
    cases this
  | construct hl hc => exact hi.construct hl hc
  | endListener hc =>
    exact hi.elsewhere rfl rfl hi.count hi.listener fun hm => ⟨nofun, (hi.quiet hm).2⟩
  | @countIn c hc =>
    refine hi.moved c .counted (by simp [hc]) nofun (fun _ => by simp [hc, Pc.CanExecute])
      rfl rfl rfl ?_ rfl rfl rfl
    have henter : (s.setPc c .counted).threadsIn = s.threadsIn + 1 :=
      threadsIn_enter hi (by simp [hc]) (by simp [hc, Pc.isIn]) rfl
    have hcount := hi.count
    show s.numClientThreads + 1 = _
    omega
  | @register c hc =>
    obtain ⟨h1, h2, h3, h4, h5, h6⟩ := register_frame s c
    refine hi.moved c .running (by simp [hc]) nofun (fun _ => by simp [hc, Pc.CanExecute])
      h1 h2 h3 ?_ h4 h5 h6
    rw [threadsIn_stay (by simp [hc, Pc.isIn]), hi.count]
  | command hc => exact hi
  | @threadCleanup c hc =>
    obtain ⟨h1, h2, h3, h4, h5, h6⟩ := threadCleanup_frame s c
    refine hi.moved c .cleaned (by simp [hc]) nofun (fun h => h.elim) h1 h2 h3 ?_ h4 h5 h6
    rw [threadsIn_stay (by simp [hc, Pc.isIn]), hi.count]
  | @countOut c hc =>
    refine hi.moved c .out (by simp [hc]) nofun (fun h => h.elim) rfl rfl rfl ?_ rfl rfl
      rfl
    have hleave : s.threadsIn = (s.setPc c .out).threadsIn + 1 :=
      threadsIn_leave hi (by simp [hc, Pc.isIn]) rfl
    have hcount := hi.count
    show s.numClientThreads - 1 = _
    omega
  | sigint hm hc => exact hi.elsewhere rfl rfl hi.count hi.listener hi.quiet
  | monitorDelete hm hw => exact hi.elsewhere rfl rfl hi.count hi.listener hi.quiet
  | monitorReset hm =>
    have hzero : s.threadsIn = 0 := hok
    exact hi.elsewhere rfl rfl (by rw [hzero]; rfl) hi.listener hi.quiet
  | endMonitor hc hm => exact hi.elsewhere rfl rfl hi.count hi.listener hi.quiet
  | eof hm => exact hi.elsewhere rfl rfl hi.count (fun h => h.elim) nofun
  | cancelListener hm => exact hi.elsewhere rfl rfl hi.count (fun _ => rfl) nofun
  | cancelMonitor hm =>
    exact hi.elsewhere rfl rfl hi.count (fun _ => hi.listener (by rw [hm]; trivial)) nofun
  | mainDelete hm hw =>
    exact hi.elsewhere rfl rfl hi.count (fun _ => hi.listener (by rw [hm]; trivial)) nofun
  | mainReset hm =>
    have hzero : s.threadsIn = 0 := hok
    exact hi.elsewhere rfl rfl (by rw [hzero]; rfl)
      (fun _ => hi.listener (by rw [hm]; trivial)) nofun
  | pass hm hn =>
    obtain ⟨hlistener, hcreated⟩ := hok
    refine hi.elsewhere rfl rfl hi.count (fun _ => hi.listener (by rw [hm]; trivial)) fun _ =>
      ⟨hlistener, fun c hexec => ?_⟩
    have hzero : s.threadsIn = 0 := by
      have := hi.count
      omega
    have hmem : c ∈ s.clients := (hi.mem c).mpr fun h => by simp [h, Pc.CanExecute] at hexec
    have hout := List.countP_eq_zero.mp hzero c hmem
    cases hpc : s.pc c <;> simp [hpc, Pc.CanExecute, Pc.isIn] at hexec hout
    exact hcreated c hpc

theorem counted_invariant : (system.restrict Orderly).Invariant Counted where
  init s h := by
    cases h
    exact ⟨List.nodup_nil, fun c => by simp [init], rfl, fun h => h.elim, nofun⟩
  step s a s' hi hs := hi.step hs.1 hs.2

/-- **The counter and the shutdown.** -/
theorem server_counts (hs : (system.restrict Orderly).Reachable s) :
    s.numClientThreads = s.threadsIn ∧
      (s.main = .cleanup → ∀ c, ¬ (s.pc c).CanExecute) := by
  have hi := hs.rule counted_invariant
  exact ⟨hi.count, fun hm => (hi.quiet hm).2⟩

/-- A client comes and goes before EOF. -/
theorem one_client_counts : ∃ s : State, s.main = .cleanup ∧ s.numClientThreads = s.threadsIn ∧
    (s.main = .cleanup → ∀ c, ¬ (s.pc c).CanExecute) := by
  have h₀ : (system.restrict Orderly).Reachable init := .init rfl
  have h₁ := h₀.allowed (.accept rfl rfl) trivial
  have h₂ := h₁.allowed (.construct (c := 0) rfl rfl) trivial
  have h₃ := h₂.allowed (.countIn (c := 0) rfl) trivial
  have h₄ := h₃.allowed (.register (c := 0) rfl) trivial
  have h₅ := h₄.allowed (.threadCleanup (c := 0) rfl) trivial
  have h₆ := h₅.allowed (.countOut (c := 0) rfl) trivial
  have h₇ := h₆.allowed (.eof rfl) trivial
  have h₈ := h₇.allowed (.cancelListener rfl) trivial
  have h₉ := h₈.allowed (.cancelMonitor rfl) trivial
  have h₁₀ := h₉.allowed (.mainDelete (l := []) rfl rfl) trivial
  have h₁₁ := h₁₀.allowed (.mainReset rfl) rfl
  have h₁₂ := h₁₁.allowed (.pass rfl rfl) ⟨nofun, fun c => by
    by_cases hc : c = 0
    · subst hc
      exact nofun
    · simp [State.setPc, State.countOut, State.threadCleanup, State.register, State.countIn,
        State.clientConstructor, State.cancelAll, State.resetCount, init, hc]⟩
  exact ⟨_, rfl, server_counts h₁₂⟩

/-- One client, and SIGINT while it is in its loop. -/
theorem sigint_miscounts : ∃ s, system.Reachable s ∧ s.numClientThreads ≠ s.threadsIn := by
  have h₁ := System.Reachable.step (S := system) (.init rfl) (.accept rfl rfl)
  have h₂ := System.Reachable.step (S := system) h₁ (.construct (c := 0) rfl rfl)
  have h₃ := System.Reachable.step (S := system) h₂ (.countIn (c := 0) rfl)
  have h₄ := System.Reachable.step (S := system) h₃ (.register (c := 0) rfl)
  have h₅ := System.Reachable.step (S := system) h₄ (.sigint rfl rfl)
  have h₆ := System.Reachable.step (S := system) h₅ (.monitorDelete (l := [0]) rfl ⟨rfl, rfl⟩)
  have h₇ := System.Reachable.step (S := system) h₆ (.monitorReset rfl)
  exact ⟨_, h₇, by decide⟩

/-- EOF while the thread of a client has not started to run. -/
theorem eof_overtakes : ∃ s, system.Reachable s ∧ s.main = .cleanup ∧ ∃ c, (s.pc c).CanExecute := by
  have h₁ := System.Reachable.step (S := system) (.init rfl) (.accept rfl rfl)
  have h₂ := System.Reachable.step (S := system) h₁ (.construct (c := 0) rfl rfl)
  have h₃ := System.Reachable.step (S := system) h₂ (.eof rfl)
  have h₄ := System.Reachable.step (S := system) h₃ (.cancelListener rfl)
  have h₅ := System.Reachable.step (S := system) h₄ (.cancelMonitor rfl)
  have h₆ := System.Reachable.step (S := system) h₅ (.mainDelete (l := []) rfl rfl)
  have h₇ := System.Reachable.step (S := system) h₆ (.mainReset rfl)
  have h₈ := System.Reachable.step (S := system) h₇ (.pass rfl rfl)
  exact ⟨_, h₈, rfl, 0, trivial⟩

end CourseProjects.Database.Server

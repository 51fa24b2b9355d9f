import CourseProjects.Database.Server

/-!
# The list of clients

`delete_all` drops the head of the list, but the cancelled clients stay linked to
each other. So the clients form the list of `thread_list_head` and some dropped
lists. The cleanup of the first client of a dropped list makes the rest of that
list the list of `thread_list_head`, and the list before is lost.
-/

namespace CourseProjects.Database.Server

open Transition LinkedList

variable {s s' : State} {a : Act} {c : Client} {cur l : List Client} {rest : List (List Client)}

/-- A client that the next `delete_all` has to reach. -/
def State.Live (s : State) (c : Client) : Prop :=
  s.pc c = .running ∧ s.cancelled c = false

/-- No cleanup of a client without `prev` while it is not the head and some other
client is live. -/
def KeepsLive (s : State) : Act → Prop
  | .threadCleanup c => s.prev c = none → s.threadListHead = some c ∨ ∀ d, ¬ s.Live d
  | _ => True

structure Chains (s : State) (cur : List Client) (rest : List (List Client)) : Prop where
  family : Family s.next s.prev (cur :: rest)
  head : s.threadListHead = cur.head?
  mem : ∀ c, c ∈ (cur :: rest).flatten ↔ s.pc c = .running
  live : ∀ c, s.Live c → c ∈ cur
  fresh : ∀ c, s.pc c = .created ∨ s.pc c = .counted → s.prev c = none

/-! ## The sections -/

theorem threadCleanup_eq (s : State) (c : Client) :
    s.threadCleanup c = { s.setPc c .cleaned with
      next := assign s.next (s.prev c) (s.next c)
      prev := assign s.prev (s.next c) (s.prev c)
      threadListHead := if s.prev c = none then s.next c else s.threadListHead } := by
  unfold State.threadCleanup
  cases hp : s.prev c <;> cases hn : s.next c <;> simp [assign, State.setPc]

theorem register_eq (hp : s.prev c = none) :
    s.register c = { s.setPc c .running with
      next := Function.update s.next c s.threadListHead
      prev := assign s.prev s.threadListHead (some c)
      threadListHead := some c } := by
  have hprev : Function.update s.prev c none = s.prev := Function.update_eq_self_iff.mpr hp.symm
  unfold State.register
  cases hh : s.threadListHead with
  | none => rfl
  | some head => simp [assign, hprev, State.setPc]

theorem walk_of_linked {p : Option Client} (h : Linked s.next s.prev p l none) :
    State.Walk s.next l.head? l := by
  induction l generalizing p with
  | nil => rfl
  | cons c l ih =>
    obtain ⟨-, hn, hl⟩ := h
    refine ⟨rfl, ?_⟩
    rw [hn, Option.or_none]
    exact ih hl

/-- The walk of `delete_all` sees the list. -/
theorem walk_eq {p : Option Client} (h : Linked s.next s.prev p l none) {k : List Client}
    (hw : State.Walk s.next l.head? k) : k = l := by
  induction l generalizing p k with
  | nil =>
    cases k with
    | nil => rfl
    | cons c k => cases hw.1
  | cons c l ih =>
    cases k with
    | nil => cases (show some c = none from hw)
    | cons d k =>
      obtain ⟨hd, hw⟩ := hw
      cases hd
      obtain ⟨-, hn, hl⟩ := h
      rw [hn, Option.or_none] at hw
      rw [ih hl hw]

theorem Chains.not_running (hi : Chains s cur rest) (hc : s.pc c ≠ .running) :
    c ∉ (cur :: rest).flatten :=
  fun h => hc ((hi.mem c).mp h)

/-! ## What each step does to the lists -/

/-- A client that is in no list, before and after. -/
theorem Chains.aside (hi : Chains s cur rest) (c : Client) (pc : Pc)
    (hc : s.pc c ≠ .running) (hpc : pc ≠ .running) (hpcs : s'.pc = Function.update s.pc c pc)
    (hfields : ∀ d, d ≠ c → s'.next d = s.next d ∧ s'.prev d = s.prev d)
    (hhead : s'.threadListHead = s.threadListHead) (hcancelled : s'.cancelled = s.cancelled)
    (hfresh : pc = .created ∨ pc = .counted → s'.prev c = none) : Chains s' cur rest := by
  have hnot := hi.not_running hc
  have hrunning : ∀ d, s'.pc d = .running ↔ s.pc d = .running := by
    intro d
    rw [hpcs]
    by_cases hd : d = c
    · subst hd
      simp [hc, hpc]
    · simp [hd]
  refine ⟨hi.family.congr fun d hd => hfields d ?_, hhead.trans hi.head, fun d => ?_, fun d hd => ?_,
    fun d hd => ?_⟩
  · rintro rfl
    exact hnot hd
  · rw [hi.mem, hrunning]
  · exact hi.live d ⟨(hrunning d).mp hd.1, hcancelled ▸ hd.2⟩
  · rw [hpcs] at hd
    by_cases hdc : d = c
    · subst hdc
      exact hfresh (by simpa using hd)
    · rw [(hfields d hdc).2]
      exact hi.fresh d (by simpa [hdc] using hd)

theorem Chains.register (hi : Chains s cur rest) (hc : s.pc c = .counted) :
    Chains (s.register c) (c :: cur) rest := by
  have hnot : c ∉ (cur :: rest).flatten := hi.not_running (by simp [hc])
  have hp := hi.fresh c (.inr hc)
  rw [register_eq hp, hi.head]
  refine ⟨hi.family.push hnot hp, rfl, fun d => ?_, fun d hd => ?_, fun d hd => ?_⟩
  · have := hi.mem d
    by_cases hd : d = c
    · simp [hd, State.setPc]
    · simpa [hd, State.setPc] using this
  · by_cases hdc : d = c
    · exact hdc ▸ List.mem_cons_self
    · have hpc : s.pc d = .running := by simpa [State.setPc, hdc] using hd.1
      exact List.mem_cons_of_mem _ (hi.live d ⟨hpc, hd.2⟩)
  · have hdc : d ≠ c := by
      rintro rfl
      simp [State.setPc] at hd
    have hpc : s.pc d = .created ∨ s.pc d = .counted := by simpa [State.setPc, hdc] using hd
    have hhead : cur.head? ≠ some d := fun heq => by
      have := (hi.mem d).mp (List.mem_flatten.mpr ⟨cur, List.mem_cons_self, List.mem_of_head? heq⟩)
      simp [this] at hpc
    show assign s.prev cur.head? (some c) d = none
    rw [assign_of_ne hhead]
    exact hi.fresh d hpc

theorem Chains.cancelAll (hi : Chains s cur rest) (hw : State.Walk s.next s.threadListHead l) :
    Chains (s.cancelAll l) [] (cur :: rest) := by
  rw [hi.head] at hw
  have hl : l = cur := walk_eq (hi.family.linked cur List.mem_cons_self) hw
  subst hl
  refine ⟨⟨hi.family.nodup, fun k hk => ?_⟩, rfl, hi.mem, fun d hd => ?_, hi.fresh⟩
  · rcases List.mem_cons.mp hk with rfl | hk
    · trivial
    · exact hi.family.linked k hk
  · obtain ⟨hpc, hcancelled⟩ := hd
    have hboth : s.cancelled d = false ∧ d ∉ l := by
      simpa [State.cancelAll] using hcancelled
    exact absurd (hi.live d ⟨hpc, hboth.1⟩) hboth.2

/-- The parts of the invariant after a cleanup that do not depend on the lists. -/
theorem Chains.cleaned (hi : Chains s cur rest) (hc : s.pc c = .running) {cur' : List Client}
    {rest' : List (List Client)}
    (hfamily : Family (assign s.next (s.prev c) (s.next c)) (assign s.prev (s.next c) (s.prev c))
      (cur' :: rest'))
    (hhead : (if s.prev c = none then s.next c else s.threadListHead) = cur'.head?)
    (hmem : ∀ d, d ∈ (cur' :: rest').flatten ↔ d ∈ (cur :: rest).flatten ∧ d ≠ c)
    (hlive : ∀ d, d ≠ c → s.Live d → d ∈ cur') (hnext : ∀ d, s.next c = some d → s.pc d = .running) :
    Chains (s.threadCleanup c) cur' rest' := by
  rw [threadCleanup_eq]
  refine ⟨hfamily, hhead, fun d => ?_, fun d hd => ?_, fun d hd => ?_⟩
  · rw [hmem, hi.mem]
    by_cases hdc : d = c
    · simp [State.setPc, hdc]
    · simp [State.setPc, hdc]
  · have hdc : d ≠ c := by
      rintro rfl
      simp [State.Live, State.setPc] at hd
    have hpc : s.pc d = .running := by simpa [State.setPc, hdc] using hd.1
    exact hlive d hdc ⟨hpc, hd.2⟩
  · have hdc : d ≠ c := by
      rintro rfl
      simp [State.setPc] at hd
    have hpc : s.pc d = .created ∨ s.pc d = .counted := by simpa [State.setPc, hdc] using hd
    have hne : s.next c ≠ some d := fun heq => by
      rw [hnext d heq] at hpc
      simp at hpc
    show assign s.prev (s.next c) (s.prev c) d = none
    rw [assign_of_ne hne]
    exact hi.fresh d hpc

theorem Chains.threadCleanup (hi : Chains s cur rest) (hok : KeepsLive s (.threadCleanup c))
    (hc : s.pc c = .running) : ∃ cur' rest', Chains (s.threadCleanup c) cur' rest' := by
  obtain ⟨l, hl, hcl⟩ := List.mem_flatten.mp ((hi.mem c).mpr hc)
  obtain ⟨l₁, l₂, rfl⟩ := List.append_of_mem hcl
  obtain ⟨hp, hn⟩ := (hi.family.linked _ hl).fields
  have hnext : ∀ d, s.next c = some d → s.pc d = .running := by
    intro d hd
    refine (hi.mem d).mp (List.mem_flatten.mpr ⟨_, hl, ?_⟩)
    exact List.mem_append_right _ (List.mem_cons_of_mem _ (List.mem_of_head? (hn ▸ hd)))
  rcases List.mem_cons.mp hl with rfl | hrest
  · -- a client of the list of `thread_list_head`
    refine ⟨l₁ ++ l₂, rest, hi.cleaned hc hi.family.unlink ?_ (fun d => hi.family.mem_unlink)
      (fun d hdc hd => ?_) hnext⟩
    · rw [hp, hn, hi.head]
      cases l₁ with
      | nil => rfl
      | cons b l₁ =>
        rw [if_neg (by simp)]
        rfl
    · have := hi.live d hd
      simp only [List.mem_append, List.mem_cons] at this ⊢
      tauto
  · -- a client of a dropped list
    obtain ⟨r, hperm⟩ : ∃ r, (cur :: rest).Perm ((l₁ ++ c :: l₂) :: cur :: r) :=
      ⟨rest.erase (l₁ ++ c :: l₂),
        ((List.perm_cons_erase hrest).cons cur).trans (List.Perm.swap _ _ _)⟩
    have hfamily := hi.family.perm hperm
    have hmem : ∀ d, d ∈ ((l₁ ++ l₂) :: cur :: r).flatten ↔ d ∈ (cur :: rest).flatten ∧ d ≠ c := by
      intro d
      rw [hfamily.mem_unlink, hperm.flatten.mem_iff]
    cases l₁ with
    | nil =>
      have hprev : s.prev c = none := hp
      have hnone : ∀ d, ¬ s.Live d := by
        rcases hok hprev with hhead | hnone
        · have hcur : c ∈ cur := List.mem_of_head? (hi.head ▸ hhead)
          have hnd := hfamily.nodup
          simp only [List.flatten_cons, List.nil_append, List.cons_append] at hnd
          have hnot := (List.nodup_cons.mp hnd).1
          exact absurd (List.mem_append_right _ (List.mem_append_left _ hcur)) hnot
        · exact hnone
      refine ⟨l₂, cur :: r, hi.cleaned hc hfamily.unlink ?_ hmem (fun d _ hd => absurd hd (hnone d))
        hnext⟩
      rw [hp, hn]
      rfl
    | cons b l₁ =>
      have hswap := List.Perm.swap cur (b :: l₁ ++ l₂) r
      refine ⟨cur, (b :: l₁ ++ l₂) :: r, hi.cleaned hc (hfamily.unlink.perm hswap) ?_ (fun d => ?_)
        (fun d _ hd => hi.live d hd) hnext⟩
      · rw [hp, if_neg (by simp), hi.head]
      · rw [← hswap.flatten.mem_iff, hmem]

theorem Chains.step (hi : Chains s cur rest) (hok : KeepsLive s a) (hs : Step s a s') :
    ∃ cur' rest', Chains s' cur' rest' := by
  cases hs with
  | @construct c hl hc =>
    refine ⟨cur, rest, hi.aside c .created (by simp [hc]) nofun rfl (fun d hd => ?_) rfl rfl fun _ => ?_⟩
    · simp [State.clientConstructor, hd]
    · simp [State.clientConstructor]
  | @countIn c hc =>
    exact ⟨cur, rest, hi.aside c .counted (by simp [hc]) nofun rfl (fun _ _ => ⟨rfl, rfl⟩) rfl rfl
      fun _ => hi.fresh c (.inl hc)⟩
  | register hc => exact ⟨_, _, hi.register hc⟩
  | threadCleanup hc => exact hi.threadCleanup hok hc
  | @countOut c hc =>
    exact ⟨cur, rest, hi.aside c .out (by simp [hc]) nofun rfl (fun _ _ => ⟨rfl, rfl⟩) rfl rfl nofun⟩
  | monitorDelete hm hw =>
    have := hi.cancelAll hw
    exact ⟨_, _, this.family, this.head, this.mem, this.live, this.fresh⟩
  | mainDelete hm hw =>
    have := hi.cancelAll hw
    exact ⟨_, _, this.family, this.head, this.mem, this.live, this.fresh⟩
  | _ => exact ⟨cur, rest, hi.family, hi.head, hi.mem, hi.live, hi.fresh⟩

theorem chains_invariant :
    (system.restrict KeepsLive).Invariant fun s => ∃ cur rest, Chains s cur rest where
  init s h := by
    cases h
    refine ⟨[], [], ⟨List.nodup_nil, fun l hl => ?_⟩, rfl, fun c => ?_, fun c hc => ?_, nofun⟩
    · rw [List.mem_singleton.mp hl]
      trivial
    · simp [init]
    · cases hc.1
  step s a s' hi hs := by
    obtain ⟨cur, rest, hi⟩ := hi
    exact hi.step hs.1 hs.2

/-- **The list of clients.** -/
theorem clientList_proper (hs : (system.restrict KeepsLive).Reachable s) :
    ∃ l, State.Walk s.next s.threadListHead l ∧ Linked s.next s.prev none l none ∧ l.Nodup ∧
      (∀ c ∈ l, s.pc c = .running) ∧ ∀ c, s.Live c → c ∈ l := by
  obtain ⟨cur, rest, hi⟩ := hs.rule chains_invariant
  have hlinked := hi.family.linked cur List.mem_cons_self
  have hnd := hi.family.nodup
  rw [List.flatten_cons] at hnd
  refine ⟨cur, hi.head ▸ walk_of_linked hlinked, hlinked, (List.nodup_append.mp hnd).1, fun c hc => ?_,
    hi.live⟩
  exact (hi.mem c).mp (List.mem_flatten.mpr ⟨cur, List.mem_cons_self, hc⟩)

/-- Client 0 is cancelled and cleans up, then client 1 registers. -/
theorem early_cleanup_proper : ∃ s : State, s.Live 1 ∧
    ∃ l, State.Walk s.next s.threadListHead l ∧ Linked s.next s.prev none l none ∧ l.Nodup ∧
      (∀ c ∈ l, s.pc c = .running) ∧ ∀ c, s.Live c → c ∈ l := by
  have h₀ : (system.restrict KeepsLive).Reachable init := .init rfl
  have h₁ := h₀.allowed (.accept rfl rfl) trivial
  have h₂ := h₁.allowed (.construct (c := 0) rfl rfl) trivial
  have h₃ := h₂.allowed (.countIn (c := 0) rfl) trivial
  have h₄ := h₃.allowed (.register (c := 0) rfl) trivial
  have h₅ := h₄.allowed (.sigint rfl rfl) trivial
  have h₆ := h₅.allowed (.monitorDelete (l := [0]) rfl ⟨rfl, rfl⟩) trivial
  have h₇ := h₆.allowed (.accept rfl rfl) trivial
  have h₈ := h₇.allowed (.construct (c := 1) rfl rfl) trivial
  have h₉ := h₈.allowed (.threadCleanup (c := 0) rfl) fun _ => .inr fun d hd => by
    by_cases h0 : d = 0
    · subst h0
      cases hd.2
    · by_cases h1 : d = 1
      · subst h1
        cases hd.1
      · simp [State.Live, State.setPc, State.register, State.countIn, State.clientConstructor,
          State.cancelAll, init, h0, h1] at hd
  have h₁₀ := h₉.allowed (.countIn (c := 1) rfl) trivial
  have h₁₁ := h₁₀.allowed (.register (c := 1) rfl) trivial
  exact ⟨_, ⟨rfl, rfl⟩, clientList_proper h₁₁⟩

/-- Client 0 is cancelled, client 1 registers, client 0 cleans up. -/
theorem late_cleanup_loses : ∃ s, system.Reachable s ∧
    ¬ ∃ l, State.Walk s.next s.threadListHead l ∧ ∀ c, s.Live c → c ∈ l := by
  have h₁ := System.Reachable.step (S := system) (.init rfl) (.accept rfl rfl)
  have h₂ := System.Reachable.step (S := system) h₁ (.construct (c := 0) rfl rfl)
  have h₃ := System.Reachable.step (S := system) h₂ (.countIn (c := 0) rfl)
  have h₄ := System.Reachable.step (S := system) h₃ (.register (c := 0) rfl)
  have h₅ := System.Reachable.step (S := system) h₄ (.sigint rfl rfl)
  have h₆ := System.Reachable.step (S := system) h₅ (.monitorDelete (l := [0]) rfl ⟨rfl, rfl⟩)
  have h₇ := System.Reachable.step (S := system) h₆ (.accept rfl rfl)
  have h₈ := System.Reachable.step (S := system) h₇ (.construct (c := 1) rfl rfl)
  have h₉ := System.Reachable.step (S := system) h₈ (.countIn (c := 1) rfl)
  have h₁₀ := System.Reachable.step (S := system) h₉ (.register (c := 1) rfl)
  have h₁₁ := System.Reachable.step (S := system) h₁₀ (.threadCleanup (c := 0) rfl)
  refine ⟨_, h₁₁, ?_⟩
  rintro ⟨l, hw, hlive⟩
  have hmem : 1 ∈ l := hlive 1 ⟨rfl, rfl⟩
  cases l with
  | nil => cases hmem
  | cons c l => cases (show (none : Option Client) = some c from hw.1)

end CourseProjects.Database.Server

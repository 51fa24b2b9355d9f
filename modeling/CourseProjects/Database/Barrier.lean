import Mathlib.Algebra.Group.Nat.Defs
import Mathlib.Data.Fintype.Card
import CourseProjects.Lib.Transition

/-!
# The barrier of `pthread_OSX.c`

Where the system has no barriers, threads meet at one that is made of a mutex and a
condition variable. A thread holds the mutex from its call up to `pthread_cond_wait`, and
from where it is woken up to the next one or to the end; these are the steps. A thread may
be woken for no reason.
-/

namespace CourseProjects.PthreadOSX

open Transition

/-- `pthread_barrier_t`; the fields are `unsigned int`s. -/
structure Barrier where
  generation : Nat
  count : Nat
  number : Nat

def succ (n : Nat) : Nat := (n + 1) % 2 ^ 32

/-- `PTHREAD_BARRIER_SERIAL_THREAD`. -/
def serialThread : Int := 1

def pthreadBarrierInit (count : Nat) : Barrier where
  generation := 0
  count := 0
  number := count

/-- `pthread_barrier_wait` up to where the mutex is given back: a thread that waits has its
generation in `my_generation`, the others have been woken by one that does not. -/
def Barrier.enter (b : Barrier) : Barrier × Option Nat :=
  let count := succ b.count
  if count < b.number then ({ b with count }, some b.generation)
  else ({ b with count := 0, generation := succ b.generation }, none)

/-- Where a thread is: outside, in `pthread_cond_wait`, or woken there. -/
inductive Place
  | outside
  | asleep (myGeneration : Nat)
  | awake (myGeneration : Nat)
  deriving DecidableEq

/-- `pthread_cond_broadcast`. -/
def Place.wake : Place → Place
  | asleep g => awake g
  | p => p

/-- `my_generation`, for a thread that waits. -/
def Place.myGeneration : Place → Option Nat
  | outside => none
  | asleep g => some g
  | awake g => some g

/-- The barrier and the threads. The rest is kept for the statements: the number of calls, the
number of every thread's last call, and what the calls have returned. -/
structure State (T : Type*) where
  barrier : Barrier
  place : T → Place
  arrived : Nat
  ticket : T → Nat
  returned : List (Nat × Int)

inductive Event (T : Type*)
  | call (t : T)
  | wake (t : T)
  | resume (t : T)

variable {T : Type*}

def State.act [DecidableEq T] (s : State T) : Event T → Option (State T)
  | .call t =>
    if s.place t = .outside then
      let s' := { s with arrived := s.arrived + 1, ticket := Function.update s.ticket t s.arrived }
      match s.barrier.enter with
      | (barrier, some g) =>
        some { s' with barrier, place := Function.update s.place t (.asleep g) }
      | (barrier, none) =>
        some { s' with
          barrier
          place := fun u => (s.place u).wake
          returned := (s.arrived, serialThread) :: s.returned }
    else none
  | .wake t =>
    match s.place t with
    | .asleep g => some { s with place := Function.update s.place t (.awake g) }
    | _ => none
  | .resume t =>
    match s.place t with
    | .awake g =>
      if g = s.barrier.generation then
        some { s with place := Function.update s.place t (.asleep g) }
      else
        some { s with
          place := Function.update s.place t .outside
          returned := (s.ticket t, 0) :: s.returned }
    | _ => none

/-- Any threads at a barrier for `number`. -/
def system (T : Type*) [DecidableEq T] (number : Nat) : System (State T) (Event T) where
  init s := s.barrier = pthreadBarrierInit number ∧ (∀ t, s.place t = .outside) ∧
    s.arrived = 0 ∧ s.returned = []
  step s e s' := s.act e = some s'

/-- The calls that make up a round. -/
def roundSize (number : Nat) : Nat := max number 1

/-- The thread waits, and `g` is its `my_generation`. -/
def State.Waits (s : State T) (t : T) (g : Nat) : Prop := (s.place t).myGeneration = some g

variable {s s' : State T} {t u : T} {g g' number n a k : Nat} {r : Int}

/-! ## Rounds -/

theorem round_next (hn : 0 < n) : (a % n + 1 < n ∧ (a + 1) / n = a / n ∧ (a + 1) % n = a % n + 1) ∨
    (a % n = n - 1 ∧ (a + 1) / n = a / n + 1 ∧ (a + 1) % n = 0) := by
  have hlt := Nat.mod_lt a hn
  have ha := Nat.div_add_mod a n
  by_cases hlast : a % n + 1 < n
  · left
    have hsplit : a + 1 = (a % n + 1) + n * (a / n) := by omega
    refine ⟨hlast, ?_, ?_⟩
    · rw [hsplit, Nat.add_mul_div_left _ _ hn, Nat.div_eq_of_lt hlast, Nat.zero_add]
    · rw [hsplit, Nat.add_mul_mod_self_left, Nat.mod_eq_of_lt hlast]
  · right
    have hsplit : a + 1 = n * (a / n + 1) := by
      rw [Nat.mul_add, Nat.mul_one]
      omega
    refine ⟨by omega, ?_, ?_⟩
    · rw [hsplit, Nat.mul_div_cancel_left _ hn]
    · rw [hsplit, Nat.mul_mod_right]

/-- **The books of the barrier.** Call number `k` belongs to round `k / n`. -/
structure Books (number n : Nat) (s : State T) : Prop where
  number : s.barrier.number = number
  count : s.barrier.count = s.arrived % n
  generation : s.barrier.generation = s.arrived / n % 2 ^ 32
  own : ∀ t g, s.Waits t g →
    s.ticket t < s.arrived ∧ g = s.ticket t / n % 2 ^ 32 ∧ s.ticket t % n ≠ n - 1
  asleep : ∀ t g, s.place t = .asleep g → g = s.barrier.generation
  distinct : ∀ t u g g', s.Waits t g → s.Waits u g' → s.ticket t = s.ticket u → t = u
  held : ∀ t g r, s.Waits t g → (s.ticket t, r) ∉ s.returned
  passed : ∀ k r, (k, r) ∈ s.returned →
    k / n < s.arrived / n ∧ r = if k % n = n - 1 then serialThread else 0
  once : (s.returned.map Prod.fst).Nodup
  accounted : ∀ k < s.arrived, (∃ r, (k, r) ∈ s.returned) ∨ ∃ t g, s.Waits t g ∧ s.ticket t = k

theorem roundSize_pos (number : Nat) : 0 < roundSize number :=
  Nat.lt_of_lt_of_le Nat.one_pos (Nat.le_max_right _ _)

/-- The last call of a round opens the barrier. -/
theorem Books.enter (hb : Books number (roundSize number) s) (hn : number < 2 ^ 32) :
    (s.arrived % roundSize number + 1 < roundSize number ∧
        s.barrier.enter = ({ s.barrier with count := s.arrived % roundSize number + 1 },
          some s.barrier.generation)) ∨
      (s.arrived % roundSize number = roundSize number - 1 ∧
        s.barrier.enter = ({ s.barrier with count := 0, generation := succ s.barrier.generation },
          none)) := by
  have hlt := Nat.mod_lt s.arrived (roundSize_pos number)
  have hsucc : succ s.barrier.count = s.arrived % roundSize number + 1 := by
    have hle : roundSize number ≤ 2 ^ 32 - 1 := Nat.max_le.mpr ⟨by omega, by decide⟩
    rw [succ, hb.count]
    exact Nat.mod_eq_of_lt (by omega)
  have hcond : succ s.barrier.count < s.barrier.number ↔
      s.arrived % roundSize number + 1 < roundSize number := by
    rw [hsucc, hb.number]
    unfold roundSize at hlt ⊢
    omega
  by_cases hlast : s.arrived % roundSize number + 1 < roundSize number
  · refine Or.inl ⟨hlast, ?_⟩
    simp only [Barrier.enter]
    rw [if_pos (hcond.mpr hlast), hsucc]
  · refine Or.inr ⟨by omega, ?_⟩
    simp only [Barrier.enter]
    rw [if_neg (mt hcond.mp hlast)]

/-! ## Steps -/

theorem wake_myGeneration (p : Place) : p.wake.myGeneration = p.myGeneration := by
  cases p <;> rfl

theorem wake_ne_asleep (p : Place) (g : Nat) : p.wake ≠ .asleep g := by
  cases p <;> simp [Place.wake]

/-- Threads are woken or go to sleep again. -/
theorem Books.turn {place : T → Place} (hb : Books number n s)
    (hsame : ∀ t, (place t).myGeneration = (s.place t).myGeneration)
    (hasleep : ∀ t g, place t = .asleep g → g = s.barrier.generation) :
    Books number n { s with place } := by
  have hw : ∀ t g, State.Waits { s with place } t g ↔ s.Waits t g := fun t g => by
    unfold State.Waits
    rw [hsame]
  refine ⟨hb.number, hb.count, hb.generation, fun t g h => hb.own t g ((hw t g).mp h), hasleep,
    fun t u g g' h h' => hb.distinct t u g g' ((hw t g).mp h) ((hw u g').mp h'),
    fun t g r h => hb.held t g r ((hw t g).mp h), hb.passed, hb.once, fun k hk => ?_⟩
  rcases hb.accounted k hk with h | ⟨t, g, h, htk⟩
  · exact Or.inl h
  · exact Or.inr ⟨t, g, (hw t g).mpr h, htk⟩

theorem State.Waits.ne (hw : s.Waits u g) (hout : s.place t = .outside) : u ≠ t := by
  rintro rfl
  unfold State.Waits at hw
  rw [hout] at hw
  cases hw

/-- Calls that have returned have been made. -/
theorem Books.lt_arrived (hb : Books number n s) (h : (k, r) ∈ s.returned) : k < s.arrived := by
  by_contra hk
  exact absurd (hb.passed k r h).1 (Nat.not_lt.mpr (Nat.div_le_div_right (Nat.le_of_not_lt hk)))

/-- No thread is more than one round behind. -/
def Near (n : Nat) (s : State T) : Prop :=
  ∀ t g, s.Waits t g → s.arrived / n ≤ s.ticket t / n + 1

/-- A thread of a complete round has another generation than the barrier. -/
theorem Near.generation_ne (hnear : Near n s) (hb : Books number n s) (hw : s.Waits t g)
    (hover : s.ticket t / n < s.arrived / n) : g ≠ s.barrier.generation := by
  have hle := hnear t g hw
  rw [(hb.own t g hw).2.1, hb.generation]
  omega

/-- The threads cannot all wait in one round. -/
theorem Books.not_all [Fintype T] (hb : Books number n s) (hn : 0 < n) (hcard : Fintype.card T = n) :
    ∃ t, ∀ g, s.Waits t g → s.ticket t / n ≠ s.arrived / n := by
  by_contra hall
  push Not at hall
  choose g hw hround using hall
  have hsplit := Nat.div_add_mod s.arrived n
  have hlt := Nat.mod_lt s.arrived hn
  have hoffset : ∀ t, s.ticket t % n < s.arrived % n := fun t => by
    have hown := (hb.own t _ (hw t)).1
    have hsplit' := Nat.div_add_mod (s.ticket t) n
    rw [hround t] at hsplit'
    omega
  have hinj : Function.Injective fun t => (⟨s.ticket t % n, hoffset t⟩ : Fin (s.arrived % n)) := by
    intro t u htu
    have hmod : s.ticket t % n = s.ticket u % n := congrArg Fin.val htu
    refine hb.distinct t u _ _ (hw t) (hw u) ?_
    rw [← Nat.div_add_mod (s.ticket t) n, ← Nat.div_add_mod (s.ticket u) n, hround, hround, hmod]
  have hle := Fintype.card_le_of_injective _ hinj
  rw [Fintype.card_fin, hcard] at hle
  omega

variable [DecidableEq T]

theorem place_update {p : Place} : Function.update s.place t p u = if u = t then p else s.place u := by
  by_cases h : u = t
  · rw [if_pos h, h, Function.update_self]
  · rw [if_neg h, Function.update_of_ne h]

/-- A thread turns over in its place. -/
theorem Books.turn_one {p : Place} (hb : Books number n s) (hw : s.Waits t g)
    (hp : p.myGeneration = some g) (hasleep : p = .asleep g → g = s.barrier.generation) :
    Books number n { s with place := Function.update s.place t p } := by
  refine hb.turn (fun u => ?_) (fun u g' h => ?_)
  · rw [place_update]
    split_ifs with hu
    · rw [hu, hp, hw]
    · rfl
  · rw [place_update] at h
    split_ifs at h with hu
    · have hgg : g = g' := by
        rw [h] at hp
        exact (Option.some.inj hp).symm
      subst hgg
      exact hasleep h
    · exact hb.asleep u g' h

/-- A thread whose round is over leaves. -/
theorem Books.leave (hb : Books number n s) (hw : s.Waits t g) (hg : g ≠ s.barrier.generation) :
    Books number n { s with
      place := Function.update s.place t .outside, returned := (s.ticket t, 0) :: s.returned } := by
  obtain ⟨hlt, hround, hlast⟩ := hb.own t g hw
  have hw' : ∀ u g', State.Waits { s with
      place := Function.update s.place t .outside, returned := (s.ticket t, 0) :: s.returned } u g' →
      u ≠ t ∧ s.Waits u g' := by
    intro u g' h
    change (Function.update s.place t Place.outside u).myGeneration = some g' at h
    rw [place_update] at h
    split_ifs at h with hu
    · cases h
    · exact ⟨hu, h⟩
  refine ⟨hb.number, hb.count, hb.generation, fun u g' h => hb.own u g' (hw' u g' h).2, ?_, ?_, ?_, ?_,
    ?_, ?_⟩
  · intro u g' h
    change Function.update s.place t Place.outside u = .asleep g' at h
    rw [place_update] at h
    split_ifs at h
    exact hb.asleep u g' h
  · intro u v g₁ g₂ h₁ h₂
    exact hb.distinct u v g₁ g₂ (hw' u g₁ h₁).2 (hw' v g₂ h₂).2
  · intro u g' r h hmem
    obtain ⟨hne, hu⟩ := hw' u g' h
    rcases List.mem_cons.mp hmem with heq | hmem
    · exact hne (hb.distinct u t g' g hu hw (congrArg Prod.fst heq))
    · exact hb.held u g' r hu hmem
  · intro k r hmem
    rcases List.mem_cons.mp hmem with heq | hmem
    · obtain ⟨rfl, rfl⟩ := Prod.mk.inj heq
      have hle : s.ticket t / n ≤ s.arrived / n := Nat.div_le_div_right hlt.le
      have hne : s.ticket t / n ≠ s.arrived / n := by
        intro heq
        rw [hround, heq, hb.generation] at hg
        exact hg rfl
      exact ⟨lt_of_le_of_ne hle hne, (if_neg hlast).symm⟩
    · exact hb.passed k r hmem
  · refine List.nodup_cons.mpr ⟨fun hmem => ?_, hb.once⟩
    obtain ⟨⟨k, r⟩, hmem, heq⟩ := List.mem_map.mp hmem
    have heq' : k = s.ticket t := heq
    exact hb.held t g r hw (heq' ▸ hmem)
  · intro k hk
    rcases hb.accounted k hk with ⟨r, h⟩ | ⟨u, g', h, huk⟩
    · exact Or.inl ⟨r, List.mem_cons_of_mem _ h⟩
    · by_cases hu : u = t
      · subst hu
        exact Or.inl ⟨0, huk ▸ List.mem_cons_self⟩
      · refine Or.inr ⟨u, g', ?_, huk⟩
        change (Function.update s.place t Place.outside u).myGeneration = some g'
        rw [place_update, if_neg hu]
        exact h

/-- A call that has to wait. -/
theorem Books.sleep (hb : Books number n s) (hout : s.place t = .outside) (hn : 0 < n)
    (hlt : s.arrived % n + 1 < n)
    (hbar : s'.barrier = { s.barrier with count := s.arrived % n + 1 })
    (hplace : s'.place = Function.update s.place t (.asleep s.barrier.generation))
    (harr : s'.arrived = s.arrived + 1) (htick : s'.ticket = Function.update s.ticket t s.arrived)
    (hret : s'.returned = s.returned) : Books number n s' := by
  obtain ⟨-, hdiv, hmod⟩ | ⟨hlast, -⟩ := round_next (a := s.arrived) hn
  swap
  · omega
  -- the threads that wait are those that did, and the one that has called
  have hw : ∀ u g, s'.Waits u g →
      (u = t ∧ g = s.barrier.generation ∧ s'.ticket u = s.arrived) ∨
        (u ≠ t ∧ s.Waits u g ∧ s'.ticket u = s.ticket u) := by
    intro u g h
    unfold State.Waits at h
    rw [hplace, place_update] at h
    rw [htick]
    split_ifs at h with hu
    · subst hu
      exact Or.inl ⟨rfl, (Option.some.inj h).symm, Function.update_self ..⟩
    · exact Or.inr ⟨hu, h, Function.update_of_ne hu ..⟩
  have hnew : s'.Waits t s.barrier.generation := by
    unfold State.Waits
    rw [hplace, Function.update_self]
    rfl
  have hold : ∀ u g, s.Waits u g → s'.Waits u g ∧ s'.ticket u = s.ticket u := by
    intro u g h
    have hne := h.ne hout
    refine ⟨?_, by rw [htick, Function.update_of_ne hne]⟩
    unfold State.Waits
    rw [hplace, Function.update_of_ne hne]
    exact h
  refine ⟨by rw [hbar]; exact hb.number, by rw [hbar, harr, hmod], ?_, fun u g h => ?_, fun u g h => ?_,
    fun u v g g' h h' heq => ?_, fun u g r h hmem => ?_, ?_, hret ▸ hb.once, fun k hk => ?_⟩
  · rw [hbar, harr, hdiv]
    exact hb.generation
  · rw [harr]
    rcases hw u g h with ⟨rfl, rfl, htu⟩ | ⟨-, h, htu⟩
    · rw [htu]
      exact ⟨by omega, hb.generation, by omega⟩
    · rw [htu]
      obtain ⟨hlt', hrest⟩ := hb.own u g h
      exact ⟨by omega, hrest⟩
  · rw [hplace, place_update] at h
    rw [hbar]
    split_ifs at h with hu
    · cases h
      rfl
    · exact hb.asleep u g h
  · rcases hw u g h with ⟨rfl, -, htu⟩ | ⟨-, h, htu⟩ <;>
      rcases hw v g' h' with ⟨rfl, -, htv⟩ | ⟨-, h', htv⟩
    · rfl
    · have := (hb.own v g' h').1
      omega
    · have := (hb.own u g h).1
      omega
    · exact hb.distinct u v g g' h h' (by omega)
  · rw [hret] at hmem
    rcases hw u g h with ⟨rfl, -, htu⟩ | ⟨-, h, htu⟩
    · rw [htu] at hmem
      exact absurd (hb.lt_arrived hmem) (lt_irrefl _)
    · rw [htu] at hmem
      exact hb.held u g r h hmem
  · rw [harr, hret, hdiv]
    exact hb.passed
  · rw [harr] at hk
    by_cases hlast : k = s.arrived
    · exact Or.inr ⟨t, _, hnew, by rw [htick, Function.update_self, hlast]⟩
    · rw [hret]
      rcases hb.accounted k (by omega) with h | ⟨u, g, h, huk⟩
      · exact Or.inl h
      · obtain ⟨h', htu⟩ := hold u g h
        exact Or.inr ⟨u, g, h', by rw [htu, huk]⟩

/-- The call that opens the barrier. -/
theorem Books.opens (hb : Books number n s) (hout : s.place t = .outside) (hn : 0 < n)
    (hlast : s.arrived % n = n - 1)
    (hbar : s'.barrier = { s.barrier with count := 0, generation := succ s.barrier.generation })
    (hplace : s'.place = fun u => (s.place u).wake)
    (harr : s'.arrived = s.arrived + 1) (htick : s'.ticket = Function.update s.ticket t s.arrived)
    (hret : s'.returned = (s.arrived, serialThread) :: s.returned) : Books number n s' := by
  obtain ⟨hno, -⟩ | ⟨-, hdiv, hmod⟩ := round_next (a := s.arrived) hn
  · omega
  have hw : ∀ u g, s'.Waits u g ↔ s.Waits u g := by
    intro u g
    unfold State.Waits
    rw [hplace, wake_myGeneration]
  have htu : ∀ u g, s.Waits u g → s'.ticket u = s.ticket u := fun u g h => by
    rw [htick]
    exact Function.update_of_ne (h.ne hout) ..
  refine ⟨by rw [hbar]; exact hb.number, by rw [hbar, harr, hmod], ?_, fun u g h => ?_, fun u g h => ?_,
    fun u v g g' h h' heq => ?_, fun u g r h hmem => ?_, fun k r hmem => ?_, ?_, fun k hk => ?_⟩
  · rw [hbar, harr, hdiv]
    change succ s.barrier.generation = _
    rw [succ, hb.generation]
    omega
  · have h := (hw u g).mp h
    obtain ⟨hlt, hrest⟩ := hb.own u g h
    rw [htu u g h, harr]
    exact ⟨by omega, hrest⟩
  · rw [hplace] at h
    exact absurd h (wake_ne_asleep _ _)
  · have h := (hw u g).mp h
    have h' := (hw v g').mp h'
    rw [htu u g h, htu v g' h'] at heq
    exact hb.distinct u v g g' h h' heq
  · have h := (hw u g).mp h
    have hlt := (hb.own u g h).1
    rw [hret, htu u g h] at hmem
    rcases List.mem_cons.mp hmem with heq | hmem
    · have hticket : s.ticket u = s.arrived := congrArg Prod.fst heq
      omega
    · exact hb.held u g r h hmem
  · rw [hret] at hmem
    rw [harr, hdiv]
    rcases List.mem_cons.mp hmem with heq | hmem
    · obtain ⟨rfl, rfl⟩ := Prod.mk.inj heq
      exact ⟨Nat.lt_succ_self _, (if_pos hlast).symm⟩
    · obtain ⟨hlt, hr⟩ := hb.passed k r hmem
      exact ⟨hlt.trans (Nat.lt_succ_self _), hr⟩
  · rw [hret]
    refine List.nodup_cons.mpr ⟨fun hmem => ?_, hb.once⟩
    obtain ⟨⟨k, r⟩, hmem, heq⟩ := List.mem_map.mp hmem
    have heq' : k = s.arrived := heq
    exact absurd (hb.lt_arrived hmem) (by omega)
  · rw [harr] at hk
    rw [hret]
    by_cases hk' : k = s.arrived
    · exact Or.inl ⟨serialThread, by rw [hk']; exact List.mem_cons_self⟩
    · rcases hb.accounted k (by omega) with ⟨r, h⟩ | ⟨u, g, h, huk⟩
      · exact Or.inl ⟨r, List.mem_cons_of_mem _ h⟩
      · exact Or.inr ⟨u, g, (hw u g).mpr h, by rw [htu u g h, huk]⟩

/-- What an event does to the threads and the barrier. -/
inductive Move (n : Nat) (s : State T) : State T → Prop
  | sleep (t : T) : s.place t = .outside → s.arrived % n + 1 < n → Move n s { s with
      barrier := { s.barrier with count := s.arrived % n + 1 }
      place := Function.update s.place t (.asleep s.barrier.generation)
      arrived := s.arrived + 1
      ticket := Function.update s.ticket t s.arrived }
  | opens (t : T) : s.place t = .outside → s.arrived % n = n - 1 → Move n s { s with
      barrier := { s.barrier with count := 0, generation := succ s.barrier.generation }
      place := fun u => (s.place u).wake
      arrived := s.arrived + 1
      ticket := Function.update s.ticket t s.arrived
      returned := (s.arrived, serialThread) :: s.returned }
  | turn (t : T) (g : Nat) (p : Place) : s.Waits t g → p.myGeneration = some g →
      (p = .asleep g → g = s.barrier.generation) →
      Move n s { s with place := Function.update s.place t p }
  | leave (t : T) (g : Nat) : s.Waits t g → g ≠ s.barrier.generation → Move n s { s with
      place := Function.update s.place t .outside
      returned := (s.ticket t, 0) :: s.returned }

theorem Books.move {e : Event T} (hb : Books number (roundSize number) s) (hn : number < 2 ^ 32)
    (h : s.act e = some s') : Move (roundSize number) s s' := by
  cases e with
  | call t =>
    simp only [State.act] at h
    split_ifs at h with hout
    rcases hb.enter hn with ⟨hlt, henter⟩ | ⟨hlast, henter⟩
    · rw [henter] at h
      cases h
      exact .sleep t hout hlt
    · rw [henter] at h
      cases h
      exact .opens t hout hlast
  | wake t =>
    cases hplace : s.place t with
    | asleep g =>
      simp only [State.act, hplace, Option.some.injEq] at h
      subst h
      exact .turn t g (.awake g) (by simp [State.Waits, hplace, Place.myGeneration]) rfl nofun
    | outside => simp [State.act, hplace] at h
    | awake g => simp [State.act, hplace] at h
  | resume t =>
    cases hplace : s.place t with
    | awake g =>
      have hw : s.Waits t g := by simp [State.Waits, hplace, Place.myGeneration]
      simp only [State.act, hplace] at h
      split_ifs at h with hg
      · cases h
        exact .turn t g (.asleep g) hw rfl fun _ => hg
      · cases h
        exact .leave t g hw hg
    | outside => simp [State.act, hplace] at h
    | asleep g => simp [State.act, hplace] at h

theorem Books.step {e : Event T} (hb : Books number (roundSize number) s) (hn : number < 2 ^ 32)
    (h : s.act e = some s') : Books number (roundSize number) s' := by
  cases hb.move hn h with
  | sleep t hout hlt => exact hb.sleep hout (roundSize_pos _) hlt rfl rfl rfl rfl rfl
  | opens t hout hlast => exact hb.opens hout (roundSize_pos _) hlast rfl rfl rfl rfl rfl
  | turn t g p hw hp hasleep => exact hb.turn_one hw hp hasleep
  | leave t g hw hg => exact hb.leave hw hg

theorem books_reachable (hn : number < 2 ^ 32) (hs : (system T number).Reachable s) :
    Books number (roundSize number) s := by
  refine System.Reachable.rule ⟨?_, fun s e s' hb h => hb.step hn h⟩ hs
  rintro s ⟨hbar, hplace, harr, hret⟩
  have hno : ∀ t g, ¬ s.Waits t g := by
    intro t g h
    unfold State.Waits at h
    rw [hplace] at h
    cases h
  refine ⟨by rw [hbar]; rfl, by rw [hbar, harr]; rfl, by rw [hbar, harr, Nat.zero_div]; rfl,
    fun t g h => absurd h (hno t g), fun t g h => ?_, fun t u g g' h => absurd h (hno t g),
    fun t g r h => absurd h (hno t g), ?_, ?_, ?_⟩
  · rw [hplace] at h
    cases h
  · rw [hret]
    nofun
  · rw [hret]
    exact List.nodup_nil
  · rw [harr]
    nofun

/-- **The barrier holds back.** Whatever the threads do and in whatever order, call number `k`
belongs to the round `k / n`. When it returns, all `n` calls of its round have been made, and it
returns `PTHREAD_BARRIER_SERIAL_THREAD` if it was the last of them and `0` otherwise. Every round
that is complete has one such call, and a thread of it that sleeps on has slept through `2 ^ 32`
rounds. -/
theorem barrier_rounds (hn : number < 2 ^ 32) (hs : (system T number).Reachable s) :
    (∀ k r, (k, r) ∈ s.returned → (k / roundSize number + 1) * roundSize number ≤ s.arrived ∧
        r = if k % roundSize number = roundSize number - 1 then serialThread else 0) ∧
      (s.returned.map Prod.fst).Nodup ∧
      (∀ q < s.arrived / roundSize number,
        (q * roundSize number + (roundSize number - 1), serialThread) ∈ s.returned) ∧
      ∀ t g, s.place t = .asleep g → s.ticket t / roundSize number = s.arrived / roundSize number ∨
        s.ticket t / roundSize number + 2 ^ 32 ≤ s.arrived / roundSize number := by
  have hb := books_reachable hn hs
  have hpos := roundSize_pos number
  refine ⟨fun k r h => ?_, hb.once, fun q hq => ?_, fun t g h => ?_⟩
  · obtain ⟨hlt, hr⟩ := hb.passed k r h
    exact ⟨(Nat.le_div_iff_mul_le hpos).mp hlt, hr⟩
  · -- the last call of a round does not wait, so it has returned
    have hlast : (q * roundSize number + (roundSize number - 1)) % roundSize number =
        roundSize number - 1 := by
      rw [Nat.mul_comm, Nat.mul_add_mod_self_left, Nat.mod_eq_of_lt (by omega)]
    have hle := (Nat.le_div_iff_mul_le hpos).mp hq
    have hlt : q * roundSize number + (roundSize number - 1) < s.arrived := by
      rw [Nat.succ_mul] at hle
      omega
    rcases hb.accounted _ hlt with ⟨r, h⟩ | ⟨t, g, h, ht⟩
    · have hr := (hb.passed _ r h).2
      rw [if_pos hlast] at hr
      rw [← hr]
      exact h
    · exact absurd (ht ▸ hlast) (hb.own t g h).2.2
  · have hw : s.Waits t g := by simp [State.Waits, h, Place.myGeneration]
    obtain ⟨hlt, hround, -⟩ := hb.own t g hw
    have hgen := hb.asleep t g h
    have hle : s.ticket t / roundSize number ≤ s.arrived / roundSize number :=
      Nat.div_le_div_right hlt.le
    rw [hround, hb.generation] at hgen
    omega

/-! ## As many threads as the barrier is for -/

section Team

variable [Fintype T]

/-- Before the last call of a round all other threads wait, with a number of this round. -/
theorem Books.all_here (hb : Books number n s) (hcard : Fintype.card T = n)
    (hout : s.place t = .outside) (hlast : s.arrived % n = n - 1) (hu : u ≠ t) :
    s.ticket u / n = s.arrived / n := by
  have hpos : 0 < n := hcard ▸ Fintype.card_pos_iff.mpr ⟨t⟩
  have hsplit := Nat.div_add_mod s.arrived n
  have hround : ∀ j : Fin (n - 1), (n * (s.arrived / n) + j) / n = s.arrived / n := fun j => by
    have hj : (j : Nat) < n := by omega
    rw [Nat.mul_add_div hpos, Nat.div_eq_of_lt hj, Nat.add_zero]
  have hheld : ∀ j : Fin (n - 1), ∃ v g, s.Waits v g ∧ s.ticket v = n * (s.arrived / n) + j := by
    intro j
    rcases hb.accounted (n * (s.arrived / n) + j) (by omega) with ⟨r, h⟩ | ⟨v, g, h⟩
    · have hlt := (hb.passed _ r h).1
      rw [hround] at hlt
      exact absurd hlt (lt_irrefl _)
    · exact ⟨v, g, h⟩
  choose f g hf using hheld
  have hinj : Function.Injective f := by
    intro i j hij
    have hi := (hf i).2
    rw [hij, (hf j).2] at hi
    exact Fin.ext (by omega)
  have himage : Finset.univ.image f = Finset.univ.erase t := by
    refine Finset.eq_of_subset_of_card_le (fun v hv => ?_) ?_
    · obtain ⟨j, -, rfl⟩ := Finset.mem_image.mp hv
      refine Finset.mem_erase.mpr ⟨(hf j).1.ne hout, Finset.mem_univ _⟩
    · rw [Finset.card_image_of_injective _ hinj, Finset.card_erase_of_mem (Finset.mem_univ t),
        Finset.card_univ, Finset.card_univ, Fintype.card_fin, hcard]
  obtain ⟨j, -, rfl⟩ := Finset.mem_image.mp (himage ▸ Finset.mem_erase.mpr ⟨hu, Finset.mem_univ u⟩)
  rw [(hf j).2, hround]

theorem Near.move (hnear : Near n s) (hb : Books number n s) (hn : 0 < n)
    (hcard : Fintype.card T = n) (h : Move n s s') : Near n s' := by
  cases h with
  | sleep t hout hlt =>
    intro u g hw
    obtain ⟨-, hdiv, -⟩ | ⟨hlast, -⟩ := round_next (a := s.arrived) hn
    swap
    · omega
    change (s.arrived + 1) / n ≤ Function.update s.ticket t s.arrived u / n + 1
    rw [hdiv]
    by_cases hu : u = t
    · subst hu
      rw [Function.update_self]
      exact Nat.le_succ _
    · rw [Function.update_of_ne hu]
      refine hnear u g ?_
      change (Function.update s.place t _ u).myGeneration = some g at hw
      rwa [Function.update_of_ne hu] at hw
  | opens t hout hlast =>
    intro u g hw
    obtain ⟨hno, -⟩ | ⟨-, hdiv, -⟩ := round_next (a := s.arrived) hn
    · omega
    have hw' : s.Waits u g := by
      change ((s.place u).wake).myGeneration = some g at hw
      rwa [wake_myGeneration] at hw
    have hne := hw'.ne hout
    change (s.arrived + 1) / n ≤ Function.update s.ticket t s.arrived u / n + 1
    rw [hdiv, Function.update_of_ne hne, hb.all_here hcard hout hlast hne]
  | turn t g p hw hp hasleep =>
    intro u g' h
    change (Function.update s.place t p u).myGeneration = some g' at h
    rw [place_update] at h
    split_ifs at h with hu
    · subst hu
      exact hnear u g hw
    · exact hnear u g' h
  | leave t g hw hg =>
    intro u g' h
    change (Function.update s.place t .outside u).myGeneration = some g' at h
    rw [place_update] at h
    split_ifs at h with hu
    · cases h
    · exact hnear u g' h

theorem near_reachable (hn : number < 2 ^ 32) (hcard : Fintype.card T = roundSize number)
    (hs : (system T number).Reachable s) : Near (roundSize number) s := by
  induction hs with
  | init h =>
    intro t g hw
    rw [h.2.2.1, Nat.zero_div]
    exact Nat.zero_le _
  | step hs h ih =>
    have hb := books_reachable hn hs
    exact ih.move hb (roundSize_pos _) hcard (hb.move hn h)

/-- **The barrier lets go.** When there are as many threads as it is for, every thread whose
round is complete has been woken and leaves when it gets the mutex, and there is always such
a thread or one that is outside. -/
theorem barrier_opens (hpos : 0 < number) (hn : number < 2 ^ 32) (hcard : Fintype.card T = number)
    (hs : (system T number).Reachable s) :
    (∀ t g, s.Waits t g → s.ticket t / number < s.arrived / number →
        ∃ s', s.act (.resume t) = some s' ∧ s'.place t = .outside ∧
          (s.ticket t, 0) ∈ s'.returned) ∧
      ∃ t, s.place t = .outside ∨ ∃ g, s.Waits t g ∧ s.ticket t / number < s.arrived / number := by
  have hsize : roundSize number = number := Nat.max_eq_left hpos
  have hb := books_reachable hn hs
  have hnear := near_reachable hn (hcard.trans hsize.symm) hs
  rw [hsize] at hb hnear
  refine ⟨fun t g hw hover => ?_, ?_⟩
  · have hg := hnear.generation_ne hb hw hover
    cases hplace : s.place t with
    | outside =>
      unfold State.Waits at hw
      rw [hplace] at hw
      cases hw
    | asleep g' =>
      unfold State.Waits at hw
      rw [hplace] at hw
      cases hw
      exact absurd (hb.asleep t _ hplace) hg
    | awake g' =>
      unfold State.Waits at hw
      rw [hplace] at hw
      cases hw
      simp only [State.act, hplace]
      rw [if_neg hg]
      exact ⟨_, rfl, Function.update_self .., List.mem_cons_self⟩
  · obtain ⟨t, ht⟩ := hb.not_all hpos hcard
    refine ⟨t, ?_⟩
    cases hplace : (s.place t).myGeneration with
    | none =>
      left
      cases h : s.place t <;> rw [h] at hplace <;> first | rfl | cases hplace
    | some g =>
      have hlt := (hb.own t g hplace).1
      exact Or.inr ⟨g, hplace, lt_of_le_of_ne (Nat.div_le_div_right hlt.le) (ht g hplace)⟩

end Team

/-- Two threads that have not called. -/
def pair : State Bool := ⟨pthreadBarrierInit 2, fun _ => .outside, 0, fun _ => 0, []⟩

/-- One waits, is woken for nothing and by the other, and leaves. -/
def meeting : List (Event Bool) :=
  [.call false, .wake false, .resume false, .call true, .resume false]

theorem pair_reachable {s : State Bool} (h : System.exec State.act pair meeting = some s) :
    (system Bool 2).Reachable s :=
  System.Reachable.exec (fun _ _ _ h => h) (.init ⟨rfl, fun _ => rfl, rfl, rfl⟩) h

theorem meeting_rounds : ∃ s, System.exec State.act pair meeting = some s ∧
    (∀ k r, (k, r) ∈ s.returned → (k / roundSize 2 + 1) * roundSize 2 ≤ s.arrived ∧
        r = if k % roundSize 2 = roundSize 2 - 1 then serialThread else 0) ∧
      (s.returned.map Prod.fst).Nodup ∧
      (∀ q < s.arrived / roundSize 2,
        (q * roundSize 2 + (roundSize 2 - 1), serialThread) ∈ s.returned) ∧
      ∀ t g, s.place t = .asleep g → s.ticket t / roundSize 2 = s.arrived / roundSize 2 ∨
        s.ticket t / roundSize 2 + 2 ^ 32 ≤ s.arrived / roundSize 2 := by
  have hrun : (System.exec State.act pair meeting).isSome = true := by decide
  obtain ⟨s, hs⟩ := Option.isSome_iff_exists.mp hrun
  exact ⟨s, hs, barrier_rounds (by decide) (pair_reachable hs)⟩

theorem meeting_opens : ∃ s, System.exec State.act pair meeting = some s ∧
    (∀ t g, s.Waits t g → s.ticket t / 2 < s.arrived / 2 →
        ∃ s', s.act (.resume t) = some s' ∧ s'.place t = .outside ∧
          (s.ticket t, 0) ∈ s'.returned) ∧
      ∃ t, s.place t = .outside ∨ ∃ g, s.Waits t g ∧ s.ticket t / 2 < s.arrived / 2 := by
  have hrun : (System.exec State.act pair meeting).isSome = true := by decide
  obtain ⟨s, hs⟩ := Option.isSome_iff_exists.mp hrun
  exact ⟨s, hs, barrier_opens (by decide) (by decide) rfl (pair_reachable hs)⟩

end CourseProjects.PthreadOSX

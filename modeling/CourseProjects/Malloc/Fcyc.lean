import CourseProjects.Lib.Smallest
import Mathlib.Order.Bounds.Basic

/-!
# The cycle counter

`fcyc` keeps the `kbest` smallest measurements in order and measures until the
first and the last of them are near each other, or until it has enough. How many
cycles a call takes is an input. The times are only compared, so they are any
linear order; `near first last` is the test of `has_converged` on two of them.
-/

namespace CourseProjects.Malloc

open Smallest

variable {α : Type}

/-- The first measurements. -/
def samples (cycles : Nat → α) (n : Nat) : List α :=
  (List.range n).map cycles

theorem samples_length (cycles : Nat → α) (n : Nat) : (samples cycles n).length = n := by
  simp [samples]

theorem samples_succ (cycles : Nat → α) (n : Nat) :
    samples cycles (n + 1) = samples cycles n ++ [cycles n] := by
  simp [samples, List.range_succ]

variable [LinearOrder α]

structure Sampler (α : Type) where
  values : List α
  samplecount : Nat

/-- `zero` is what `calloc` stores. -/
def initSampler (zero : α) (kbest : Nat) : Sampler α :=
  ⟨List.replicate kbest zero, 0⟩

def addSample (kbest : Nat) (s : Sampler α) (val : α) : Option (Sampler α) := do
  let count := s.samplecount + 1
  if s.samplecount < kbest then
    return ⟨settle s.samplecount (s.values.set s.samplecount val), count⟩
  else if val < (← s.values[kbest - 1]?) then
    return ⟨settle (kbest - 1) (s.values.set (kbest - 1) val), count⟩
  else return ⟨s.values, count⟩

def hasConverged (kbest : Nat) (near : α → α → Bool) (s : Sampler α) : Option Bool :=
  if s.samplecount < kbest then some false
  else do return near (← s.values[0]?) (← s.values[kbest - 1]?)

/-- The loop of `fcyc`, which tests behind its body. -/
def sampling (kbest : Nat) (maxsamples : Int) (near : α → α → Bool) (cycles : Nat → α) :
    Nat → Sampler α → Option (Sampler α)
  | 0, _ => none
  | fuel + 1, s => do
    let s ← addSample kbest s (cycles s.samplecount)
    if ¬ (← hasConverged kbest near s) ∧ s.samplecount < maxsamples then
      sampling kbest maxsamples near cycles fuel s
    else return s

def fcyc (zero : α) (kbest : Nat) (maxsamples : Int) (near : α → α → Bool) (cycles : Nat → α) :
    Option α := do
  let s ← sampling kbest maxsamples near cycles (maxsamples.toNat + 1) (initSampler zero kbest)
  s.values[0]?

/-! ## The samples that are kept -/

variable {kbest n fuel : Nat} {cycles : Nat → α} {s : Sampler α} {xs : List α} {val : α}

/-- The sampler has seen the values `xs`. -/
structure Seen (kbest : Nat) (s : Sampler α) (xs : List α) : Prop where
  count : s.samplecount = xs.length
  kept : s.values.take xs.length = smallest kbest xs
  room : s.values.length = kbest

theorem Seen.init (zero : α) : Seen kbest (initSampler zero kbest) [] :=
  ⟨rfl, by simp [smallest], List.length_replicate⟩

theorem Seen.get (h : Seen kbest s xs) {i : Nat} (hi : i < xs.length) :
    s.values[i]? = (smallest kbest xs)[i]? := by
  rw [← h.kept, List.getElem?_take_of_lt hi]

/-- A full sampler holds nothing else. -/
theorem Seen.full (h : Seen kbest s xs) (hfull : kbest ≤ xs.length) :
    s.values = smallest kbest xs := by
  rw [← h.kept, List.take_of_length_le (by rw [h.room]; exact hfull)]

theorem addSample_room (h : Seen kbest s xs) (hroom : xs.length < kbest) :
    ∃ s', addSample kbest s val = some s' ∧ Seen kbest s' (xs ++ [val]) := by
  have hlen : (smallest kbest xs).length = xs.length := by
    rw [smallest_length]
    omega
  have hset : s.values.set xs.length val =
      smallest kbest xs ++ val :: s.values.drop (xs.length + 1) := by
    rw [List.set_eq_take_append_cons_drop, if_pos (by rw [h.room]; exact hroom), h.kept]
  have hsettle := settle_eq (smallest_sorted kbest xs) val (s.values.drop (xs.length + 1))
  rw [hlen] at hsettle
  refine ⟨_, by rw [addSample, h.count]; exact if_pos hroom, ?_⟩
  rw [hset, hsettle]
  have hinsert : ((smallest kbest xs).orderedInsert (· ≤ ·) val).length = xs.length + 1 := by
    rw [List.orderedInsert_length, hlen]
  refine ⟨by simp, ?_, ?_⟩
  · rw [smallest_concat, List.take_left' (by simpa using hinsert),
      List.take_of_length_le (by rw [hinsert]; exact hroom)]
  · rw [List.length_append, hinsert, List.length_drop, h.room]
    omega

theorem addSample_full (h : Seen kbest s xs) (hk : 0 < kbest) (hfull : kbest ≤ xs.length) :
    ∃ s', addSample kbest s val = some s' ∧ Seen kbest s' (xs ++ [val]) := by
  have hlen : (smallest kbest xs).length = kbest := by
    rw [smallest_length]
    omega
  have hne : smallest kbest xs ≠ [] := List.ne_nil_of_length_pos (by omega)
  obtain ⟨l, b, hlast⟩ := (List.eq_nil_or_concat' _).resolve_left hne
  have hsorted := smallest_sorted kbest xs
  have hconcat := smallest_concat kbest xs val
  rw [hlast] at hlen hsorted hconcat
  rw [List.length_append, List.length_singleton] at hlen
  have hpos : kbest - 1 = l.length := by omega
  have hread : s.values[kbest - 1]? = some b := by
    rw [h.full hfull, hlast, hpos, List.getElem?_concat_length]
  have hseen : ∀ values : List α, values.length = kbest → values = smallest kbest (xs ++ [val]) →
      Seen kbest ⟨values, s.samplecount + 1⟩ (xs ++ [val]) := fun values hroom hvalues => by
    refine ⟨by simp [h.count], ?_, hroom⟩
    rw [List.take_of_length_le (by rw [hroom]; simp; omega), hvalues]
  rw [addSample, h.count, if_neg (Nat.not_lt.mpr hfull), hread]
  simp only [Option.bind_eq_bind, Option.bind_some]
  by_cases hlt : val < b
  · rw [if_pos hlt]
    have hset : s.values.set (kbest - 1) val = l ++ [val] := by
      rw [h.full hfull, hlast, hpos]
      simp
    have hsettle := settle_eq (List.pairwise_append.mp hsorted).1 val []
    rw [List.append_nil] at hsettle
    rw [hset, hpos, hsettle]
    have hinsert : (l.orderedInsert (· ≤ ·) val).length = kbest := by
      rw [List.orderedInsert_length, hlen]
    refine ⟨_, rfl, h.count ▸ hseen _ hinsert ?_⟩
    rw [hconcat, orderedInsert_before hsorted hlt.le, List.take_left' hinsert]
  · rw [if_neg hlt]
    refine ⟨_, rfl, h.count ▸ hseen _ h.room ?_⟩
    have hle : ∀ c ∈ l ++ [b], c ≤ val := fun c hc => by
      rcases List.mem_append.mp hc with hc | hc
      · exact ((List.pairwise_append.mp hsorted).2.2 c hc b List.mem_cons_self).trans
          (not_lt.mp hlt)
      · rw [List.mem_singleton.mp hc]
        exact not_lt.mp hlt
    rw [hconcat, orderedInsert_last hsorted hle, h.full hfull, hlast,
      List.take_left' (by simpa using hlen)]

/-- A sample more leaves the smallest values of all samples. -/
theorem addSample_spec (hk : 0 < kbest) (h : Seen kbest s xs) (val : α) :
    ∃ s', addSample kbest s val = some s' ∧ Seen kbest s' (xs ++ [val]) := by
  by_cases hfull : kbest ≤ xs.length
  · exact addSample_full h hk hfull
  · exact addSample_room h (Nat.not_le.mp hfull)

/-! ## The loop -/

/-- The least and the greatest of the `kbest` smallest samples are near each other. -/
def Converged (kbest : Nat) (near : α → α → Bool) (xs : List α) : Prop :=
  ∃ first last, (smallest kbest xs)[0]? = some first ∧
    (smallest kbest xs)[kbest - 1]? = some last ∧ near first last = true

theorem hasConverged_spec (near : α → α → Bool) (hk : 0 < kbest) (h : Seen kbest s xs) :
    ∃ b, hasConverged kbest near s = some b ∧ (b = true ↔ Converged kbest near xs) := by
  by_cases hroom : s.samplecount < kbest
  · refine ⟨false, if_pos hroom, fun hb => absurd hb (by decide), ?_⟩
    rintro ⟨first, last, -, hlast, -⟩
    have hlt := (List.getElem?_eq_some_iff.mp hlast).1
    rw [smallest_length, ← h.count] at hlt
    omega
  · have hfull : kbest ≤ xs.length := h.count ▸ Nat.not_lt.mp hroom
    have hlen : (smallest kbest xs).length = kbest := by
      rw [smallest_length]
      omega
    have hfirst : (smallest kbest xs)[0]? = some _ := List.getElem?_eq_getElem (by omega)
    have hlast : (smallest kbest xs)[kbest - 1]? = some _ := List.getElem?_eq_getElem (by omega)
    rw [hasConverged, if_neg hroom, h.full hfull, hfirst, hlast]
    refine ⟨_, rfl, fun hb => ⟨_, _, hfirst, hlast, hb⟩, ?_⟩
    rintro ⟨first, last, hfirst', hlast', hb⟩
    cases hfirst.symm.trans hfirst'
    cases hlast.symm.trans hlast'
    exact hb

/-- Measuring ends after this many samples. -/
def Ends (kbest : Nat) (maxsamples : Int) (near : α → α → Bool) (cycles : Nat → α) (n : Nat) :
    Prop :=
  Converged kbest near (samples cycles n) ∨ maxsamples ≤ n

/-- The loop goes on to the first number of samples at which measuring ends. -/
theorem sampling_spec (maxsamples : Int) (near : α → α → Bool) (hk : 0 < kbest)
    (h : Seen kbest s (samples cycles n)) (hfuel : 0 < fuel) (hmax : maxsamples ≤ n + fuel) :
    ∃ s' m, sampling kbest maxsamples near cycles fuel s = some s' ∧
      Seen kbest s' (samples cycles m) ∧ n < m ∧ Ends kbest maxsamples near cycles m ∧
      ∀ j, n < j → j < m → ¬ Ends kbest maxsamples near cycles j := by
  induction fuel generalizing n s with
  | zero => exact absurd hfuel (Nat.lt_irrefl 0)
  | succ fuel ih =>
    have hcount : s.samplecount = n := h.count.trans (samples_length cycles n)
    obtain ⟨s', hadd, hseen⟩ := addSample_spec hk h (cycles n)
    rw [← samples_succ] at hseen
    have hcount' : s'.samplecount = n + 1 := hseen.count.trans (samples_length cycles _)
    obtain ⟨b, hconv, hb⟩ := hasConverged_spec near hk hseen
    rw [sampling, hcount, hadd]
    simp only [Option.bind_eq_bind, Option.bind_some, hconv]
    split_ifs with hgo
    · obtain ⟨hnot, hless⟩ := hgo
      rw [hcount'] at hless
      obtain ⟨s'', m, hrun, hs'', hm, hends, hfirst⟩ :=
        ih hseen (by omega) (by push_cast at *; omega)
      refine ⟨s'', m, hrun, hs'', by omega, hends, fun j hj hjm => ?_⟩
      rcases Nat.eq_or_lt_of_le hj with rfl | hj
      · rintro (hc | hle)
        · exact hnot (hb.mpr hc)
        · omega
      · exact hfirst j hj hjm
    · refine ⟨s', n + 1, rfl, hseen, Nat.lt_succ_self n, ?_, fun j hj hjm => by omega⟩
      by_cases hbt : b = true
      · exact Or.inl (hb.mp hbt)
      · have hle : ¬ ((n + 1 : Nat) : Int) < maxsamples := fun hlt => hgo ⟨hbt, by rwa [hcount']⟩
        exact Or.inr (Int.not_lt.mp hle)

/-- `fcyc` measures until the best samples are near each other or there are enough, and
returns the least of all samples. -/
theorem fcyc_best (zero : α) (kbest : Nat) (hk : 0 < kbest) (maxsamples : Int)
    (near : α → α → Bool) (cycles : Nat → α) :
    ∃ n best, fcyc zero kbest maxsamples near cycles = some best ∧
      IsLeast {t | ∃ i < n, cycles i = t} best ∧ 0 < n ∧ (n : Int) ≤ max 1 maxsamples ∧
      Ends kbest maxsamples near cycles n ∧
      ∀ j, 0 < j → j < n → ¬ Ends kbest maxsamples near cycles j := by
  have hstart : Seen kbest (initSampler zero kbest) (samples cycles 0) := Seen.init zero
  obtain ⟨s, n, hrun, hseen, hn, hends, hfirst⟩ :=
    sampling_spec maxsamples near hk hstart (Nat.succ_pos maxsamples.toNat) (by omega)
  have hlen : 0 < (smallest kbest (samples cycles n)).length := by
    rw [smallest_length, samples_length]
    omega
  obtain ⟨best, hbest⟩ : ∃ best, (smallest kbest (samples cycles n))[0]? = some best :=
    ⟨_, List.getElem?_eq_getElem hlen⟩
  obtain ⟨hmem, hle⟩ := smallest_head hk hbest
  refine ⟨n, best, ?_, ⟨?_, ?_⟩, hn, ?_, hends, hfirst⟩
  · rw [fcyc, hrun, ← hbest]
    exact hseen.get (by rwa [samples_length])
  · obtain ⟨i, hi, heq⟩ := List.mem_map.mp hmem
    exact ⟨i, List.mem_range.mp hi, heq⟩
  · rintro t ⟨i, hi, rfl⟩
    exact hle _ (List.mem_map_of_mem (List.mem_range.mpr hi))
  · by_cases hone : n = 1
    · omega
    · have hbefore : ¬ maxsamples ≤ (n - 1 : Nat) := fun h =>
        hfirst (n - 1) (by omega) (by omega) (Or.inr h)
      omega

/-- Three samples that are near each other, with `kbest` as it is set and a tolerance of 2. -/
theorem fcyc_three : ∃ n best : Nat, fcyc 0 3 20 (fun first last => first + 2 ≥ last)
      (fun i : Nat => 10 + i % 3) = some best ∧
    IsLeast {t | ∃ i < n, 10 + i % 3 = t} best ∧ 0 < n ∧ (n : Int) ≤ max 1 20 ∧
    Ends 3 20 (fun first last => first + 2 ≥ last) (fun i : Nat => 10 + i % 3) n ∧
    ∀ j, 0 < j → j < n →
      ¬ Ends 3 20 (fun first last => first + 2 ≥ last) (fun i : Nat => 10 + i % 3) j :=
  fcyc_best 0 3 (by decide) 20 _ _

end CourseProjects.Malloc

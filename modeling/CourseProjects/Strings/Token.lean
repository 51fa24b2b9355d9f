import Mathlib.Data.List.Forall2
import CourseProjects.Lib.Text
import CourseProjects.Strings.Span

/-!
# `strtok`

What `rem` points to is a suffix of the string, or nothing is left. One call takes
the next word of it, so a run of calls takes one word after another, each with the
delimiters of its own call.
-/

namespace CourseProjects.Strings

open CText Text

/-- The memory and the static pointer; 0 is `NULL`. -/
structure State where
  mem : Memory
  rem : Nat

def strtok (st : State) (str delim : Nat) : Option (Nat × State) := do
  if str = 0 ∧ st.rem = 0 then return (0, st)
  let rem := if str = 0 then st.rem else str
  let str := rem + (← strspn st.mem rem delim)
  let rem := str + (← strcspn st.mem str delim)
  if rem = str then return (0, { st with rem })
  let b ← st.mem rem
  if b ≠ 0 then
    let mem ← store st.mem rem 0
    return (str, { mem, rem := rem + 1 })
  return (str, { st with rem := 0 })

/-- `strtok(str, d1)`, and `strtok(NULL, d)` for the delimiters that follow. -/
def strtokRun (st : State) (str : Nat) : List Nat → Option (List Nat × State)
  | [] => some ([], st)
  | d :: ds => do
    let (p, st) ← strtok st str d
    let (ps, st) ← strtokRun st 0 ds
    return (p :: ps, st)

/-- The delimiters of a call: where the string is and what it contains. -/
structure Delim where
  addr : Nat
  set : List UInt8

def Delim.contains (d : Delim) (c : UInt8) : Bool :=
  decide (c ∈ d.set)

/-- Each call finds the delimiters it is given in memory. -/
def Given (st : State) (str : Nat) : List Delim → Prop
  | [] => True
  | d :: ds => (StringAt st.mem d.addr d.set ∧ d.set.length < intRange) ∧
    ∀ p st', strtok st str d.addr = some (p, st') → Given st' 0 ds

/-- What the pointer has left of the string `s` at `a`, from place `k` on. -/
def Remains (s : List UInt8) (a : Nat) (st : State) (k : Nat) (rest : List UInt8) : Prop :=
  st.rem = 0 ∧ rest = [] ∨
    st.rem ≠ 0 ∧ StringAt st.mem st.rem rest ∧ st.rem = a + k ∧ ∃ u, s = u ++ rest ∧ u.length = k

variable {st st' : State} {m m' : Memory} {a k p x : Nat} {s rest w : List UInt8} {d : Delim}
  {ds : List Delim} {ps : List Nat} {ws : List (Option (Nat × List UInt8))}

/-- The old string is forgotten. -/
theorem strtok_restart (ha : a ≠ 0) (st : State) (delim : Nat) :
    strtok st a delim = strtok { st with rem := a } 0 delim := by
  simp [strtok, ha]

/-! ## One call -/

/-- A call where nothing but delimiters is left. -/
theorem strtok_none (hr : Remains s a st k rest) (hlen : s.length < intRange)
    (hd : StringAt st.mem d.addr d.set) (hset : d.set.length < intRange)
    (hw : nextWord d.contains rest = none) :
    ∃ st', strtok st 0 d.addr = some (0, st') ∧ st'.mem = st.mem ∧
      Remains s a st' (k + rest.length) [] := by
  obtain ⟨hnull, -⟩ | ⟨hne, hrest, hrem, u, rfl, hu⟩ := hr
  · exact ⟨st, by simp [strtok, hnull], rfl, Or.inl ⟨hnull, rfl⟩⟩
  · have hdrop : rest.dropWhile d.contains = [] := nextWord_eq_none.mp hw
    have htake : rest.takeWhile d.contains = rest := by
      have happ := List.takeWhile_append_dropWhile (p := d.contains) (l := rest)
      rwa [hdrop, List.append_nil] at happ
    have hrlen : rest.length < intRange := by
      rw [List.length_append] at hlen
      omega
    have hspan : strspn st.mem st.rem d.addr = some rest.length := by
      have h := strspn_spec hrest hd hrlen hset
      change _ = some (rest.takeWhile d.contains).length at h
      rwa [htake] at h
    have hend : StringAt st.mem (st.rem + rest.length) [] := by
      have h := StringAt.drop (u := rest) (s := []) (by rwa [List.append_nil])
      exact h
    have hcspan : strcspn st.mem (st.rem + rest.length) d.addr = some 0 :=
      strcspn_spec hend hd (by decide) hset
    refine ⟨{ st with rem := st.rem + rest.length }, ?_, rfl,
      Or.inr ⟨?_, hend, ?_, u ++ rest, ?_, ?_⟩⟩
    · simp [strtok, hne, hspan, hcspan]
    · change st.rem + rest.length ≠ 0
      omega
    · change st.rem + rest.length = _
      rw [hrem, Nat.add_assoc]
    · rw [List.append_nil]
    · rw [List.length_append, hu]

/-- What a call returns: the word in the memory `m'` after the run, from its own place in the
string on, or `NULL`. -/
def Returned (s : List UInt8) (a : Nat) (m' : Memory) (p : Nat) :
    Option (Nat × List UInt8) → Prop
  | none => p = 0
  | some (k, w) => StringAt m' p w ∧ p = a + k ∧ ∃ u v, s = u ++ w ++ v ∧ u.length = k

/-- The call returns the word `w` from place `k` on at `p`, and `rest` is left. -/
structure Taken (s : List UInt8) (a : Nat) (st : State) (d : Delim) (p : Nat) (st' : State)
    (k : Nat) (w rest : List UInt8) : Prop where
  returned : Returned s a st'.mem p (some (k, w))
  after : st.rem ≠ 0 ∧ st.rem ≤ p
  ended : ∀ x, st'.mem x ≠ st.mem x → x = p + w.length ∧ ∃ b ∈ d.set, st.mem x = some b
  before : st'.rem = 0 ∨ p + w.length < st'.rem
  remains : Remains s a st' (k + w.length + 1) rest

/-- The two spans of a call: the delimiters `t`, and the word `w` behind them. -/
theorem spans_word {t w v : List UInt8} (hrest : StringAt st.mem st.rem rest)
    (hlen : rest.length < intRange) (hd : StringAt st.mem d.addr d.set)
    (hset : d.set.length < intRange) (happ : rest = t ++ w ++ v)
    (ht : rest.takeWhile d.contains = t)
    (htake : ((rest.dropWhile d.contains).takeWhile fun b => !d.contains b) = w) :
    strspn st.mem st.rem d.addr = some t.length ∧
      StringAt st.mem (st.rem + t.length) (w ++ v) ∧
      strcspn st.mem (st.rem + t.length) d.addr = some w.length := by
  have hdrop : rest.dropWhile d.contains = w ++ v := by
    have h := List.takeWhile_append_dropWhile (p := d.contains) (l := rest)
    rw [ht] at h
    rw [happ, List.append_assoc] at h
    rw [happ, List.append_assoc]
    exact List.append_cancel_left h
  have hword : StringAt st.mem (st.rem + t.length) (w ++ v) := by
    rw [happ, List.append_assoc] at hrest
    exact hrest.drop
  refine ⟨?_, hword, ?_⟩
  · have h := strspn_spec hrest hd hlen hset
    change _ = some (rest.takeWhile d.contains).length at h
    rwa [ht] at h
  · have hshort : (w ++ v).length < intRange := by
      rw [happ] at hlen
      simp only [List.length_append] at hlen ⊢
      omega
    have h := strcspn_spec hword hd hshort hset
    change _ = some ((w ++ v).takeWhile fun b => !d.contains b).length at h
    rwa [← hdrop, htake] at h

/-- A call where a word is left. -/
theorem strtok_some (hr : Remains s a st k rest) (hlen : s.length < intRange)
    (hd : StringAt st.mem d.addr d.set) (hset : d.set.length < intRange) {rest' : List UInt8}
    (hw : nextWord d.contains rest = some (w, rest')) :
    ∃ p st', strtok st 0 d.addr = some (p, st') ∧
      Taken s a st d p st' (k + (rest.takeWhile d.contains).length) w rest' := by
  obtain ⟨v, happ, rfl, hwne, htake, hv⟩ := nextWord_eq_some hw
  obtain ⟨hnull, rfl⟩ | ⟨hne, hrest, hrem, u, rfl, hu⟩ := hr
  · cases hw
  -- the word starts behind the delimiters
  obtain ⟨t, ht⟩ : ∃ t, rest.takeWhile d.contains = t := ⟨_, rfl⟩
  rw [ht] at happ ⊢
  have hshort : rest.length < intRange := by
    rw [List.length_append] at hlen
    omega
  obtain ⟨hspan, hword, hcspan⟩ := spans_word hrest hshort hd hset happ ht htake
  have hbyte : st.mem (st.rem + t.length + w.length) = some (v.headD 0) := hword.byte
  have hwpos : 0 < w.length := List.length_pos_iff.mpr hwne
  have hstart : st.rem + t.length = a + (k + t.length) := by rw [hrem, Nat.add_assoc]
  have hplace : ∃ u' v', u ++ rest = u' ++ w ++ v' ∧ u'.length = k + t.length :=
    ⟨u ++ t, v, by rw [happ]; simp only [List.append_assoc], by rw [List.length_append, hu]⟩
  cases v with
  | nil =>
    rw [List.append_nil] at hword
    refine ⟨_, { st with rem := 0 }, ?_, ⟨hword, hstart, hplace⟩, ⟨hne, Nat.le_add_right _ _⟩, ?_,
      Or.inl rfl, Or.inl ⟨rfl, rfl⟩⟩
    · have hzero : st.mem (st.rem + t.length + w.length) = some 0 := hbyte
      simp [strtok, hne, hspan, hcspan, hzero, hwne]
    · intro x hx
      exact absurd rfl hx
  | cons b v =>
    have hb : b ≠ 0 := hword.ne_zero b (by simp)
    have hmem : b ∈ d.set := by simpa [Delim.contains] using hv b rfl
    have hbyte : st.mem (st.rem + t.length + w.length) = some b := hbyte
    refine ⟨_, ⟨st.mem.put (st.rem + t.length + w.length) 0, st.rem + t.length + w.length + 1⟩,
      ?_, ⟨hword.cut, hstart, hplace⟩, ⟨hne, Nat.le_add_right _ _⟩, ?_, Or.inr (Nat.lt_succ_self _),
      Or.inr ⟨Nat.succ_ne_zero _, ?_, ?_, u ++ t ++ w ++ [b], ?_, ?_⟩⟩
    · simp [strtok, hne, hspan, hcspan, hbyte, hwne, hb, store]
    · intro x hx
      have hx : x = st.rem + t.length + w.length := by
        by_contra hne
        exact hx (put_of_ne hne)
      exact ⟨hx, b, hmem, hx ▸ hbyte⟩
    · have htail := hword.drop.2.2
      exact htail.congr fun x hle _ => put_of_ne (by omega)
    · change st.rem + t.length + w.length + 1 = _
      omega
    · rw [happ]
      simp
    · simp only [List.length_append, List.length_singleton, hu]

/-! ## A run of calls -/

/-- At `x` is the delimiter that ended a returned token: the byte behind the word of a
call, one of the delimiters of that call. -/
def Ended (m : Memory) (ds : List Delim) (ps : List Nat)
    (ws : List (Option (Nat × List UInt8))) (x : Nat) : Prop :=
  ∃ (n : Nat) (d : Delim) (p k : Nat) (w : List UInt8), ds[n]? = some d ∧ ps[n]? = some p ∧
    ws[n]? = some (some (k, w)) ∧ x = p + w.length ∧ ∃ b ∈ d.set, m x = some b

/-- The calls return `ps` for the words `ws`, and change only the ends of tokens. -/
structure Tokenized (s : List UInt8) (a : Nat) (m m' : Memory) (ds : List Delim) (ps : List Nat)
    (ws : List (Option (Nat × List UInt8))) : Prop where
  returned : List.Forall₂ (Returned s a m') ps ws
  changed : ∀ x, m' x ≠ m x → m' x = some 0 ∧ Ended m ds ps ws x

theorem Ended.cons (h : Ended m ds ps ws x) (d : Delim) (p : Nat) (w : Option (Nat × List UInt8)) :
    Ended m (d :: ds) (p :: ps) (w :: ws) x := by
  obtain ⟨n, h⟩ := h
  exact ⟨n + 1, h⟩

/-- Where nothing is left, no token ends. -/
theorem not_ended_nil {qs : List (UInt8 → Bool)} : ¬ Ended m ds ps (wordsBy k [] qs) x := by
  rintro ⟨n, d, p, j, w, -, -, hw, -⟩
  rw [wordsBy_nil] at hw
  have hmem := List.mem_of_getElem? hw
  exact absurd (List.eq_of_mem_replicate hmem) (by simp)

theorem strtokRun_spec (hr : Remains s a st k rest) (hlen : s.length < intRange)
    (hg : Given st 0 ds) : ∃ ps st', strtokRun st 0 (ds.map Delim.addr) = some (ps, st') ∧
      Tokenized s a st.mem st'.mem ds ps (wordsBy k rest (ds.map Delim.contains)) ∧
      ∀ x, st.rem = 0 ∨ x < st.rem → st'.mem x = st.mem x := by
  induction ds generalizing st k rest with
  | nil => exact ⟨[], st, rfl, ⟨List.Forall₂.nil, fun x hx => absurd rfl hx⟩, fun _ _ => rfl⟩
  | cons d ds ih =>
    obtain ⟨⟨hd, hset⟩, hg⟩ := hg
    rw [List.map_cons, List.map_cons, wordsBy]
    cases hw : nextWord d.contains rest with
    | none =>
      obtain ⟨st1, hcall, hmem, hr1⟩ := strtok_none hr hlen hd hset hw
      obtain ⟨ps, st', hrun, htok, hframe⟩ := ih hr1 (hg _ _ hcall)
      rw [hmem] at htok
      refine ⟨0 :: ps, st', by simp [strtokRun, hcall, hrun],
        ⟨List.Forall₂.cons rfl htok.returned, ?_⟩, ?_⟩
      · intro x hx
        obtain ⟨hz, hended⟩ := htok.changed x hx
        exact ⟨hz, hended.cons _ _ _⟩
      · intro x _
        by_contra hx
        rw [← hmem] at hx
        exact not_ended_nil (hmem ▸ (htok.changed x (hmem ▸ hx)).2)
    | some r =>
      obtain ⟨w, rest'⟩ := r
      obtain ⟨p, st1, hcall, ht⟩ := strtok_some hr hlen hd hset hw
      obtain ⟨ps, st', hrun, htok, hframe⟩ := ih ht.remains (hg _ _ hcall)
      -- the later calls keep away from the token and its end
      have hkept : ∀ x, x ≤ p + w.length → st'.mem x = st1.mem x :=
        fun x hx => hframe x (ht.before.imp_right fun hlt => by omega)
      obtain ⟨hword, hplace⟩ := ht.returned
      have hstring : StringAt st'.mem p w := hword.congr fun x _ hx => hkept x hx
      refine ⟨p :: ps, st', by simp [strtokRun, hcall, hrun],
        ⟨List.Forall₂.cons ⟨hstring, hplace⟩ htok.returned, ?_⟩, ?_⟩
      · intro x hx
        by_cases hfirst : st1.mem x = st.mem x
        · rw [← hfirst] at hx
          obtain ⟨hz, n, d', q, j, v, hn, hq, hv, hxq, b, hb, hm⟩ := htok.changed x hx
          exact ⟨hz, n + 1, d', q, j, v, hn, hq, hv, hxq, b, hb, hfirst ▸ hm⟩
        · obtain ⟨rfl, b, hb, hm⟩ := ht.ended x hfirst
          have hend : StringAt st'.mem (p + w.length) [] :=
            StringAt.drop (u := w) (by rwa [List.append_nil])
          exact ⟨hend, 0, d, p, _, w, rfl, rfl, rfl, rfl, b, hb, hm⟩
      · intro x hx
        have hlt : x < p := by
          rcases hx with hx | hx
          · exact absurd hx ht.after.1
          · exact Nat.lt_of_lt_of_le hx ht.after.2
        rw [hkept x (by omega)]
        by_contra hne
        have := (ht.ended x hne).1
        omega

/-- Delimiters that are kept outside the string are what they were at every call. -/
theorem Remains.given (hr : Remains s a st k rest) (hlen : s.length < intRange)
    (hds : ∀ d ∈ ds, (StringAt st.mem d.addr d.set ∧ d.set.length < intRange) ∧
      (d.addr + d.set.length < a ∨ a + s.length < d.addr)) : Given st 0 ds := by
  induction ds generalizing st k rest with
  | nil => trivial
  | cons d ds ih =>
    obtain ⟨⟨hd, hset⟩, -⟩ := hds d List.mem_cons_self
    refine ⟨⟨hd, hset⟩, fun q st' hcall => ?_⟩
    cases hw : nextWord d.contains rest with
    | none =>
      obtain ⟨st1, hcall1, hmem, hr1⟩ := strtok_none hr hlen hd hset hw
      cases hcall.symm.trans hcall1
      exact ih hr1 fun e he => hmem ▸ hds e (List.mem_cons_of_mem d he)
    | some r =>
      obtain ⟨p, st1, hcall1, ht⟩ := strtok_some hr hlen hd hset hw
      cases hcall.symm.trans hcall1
      refine ih ht.remains fun e he => ?_
      obtain ⟨⟨hstring, hlen'⟩, hout⟩ := hds e (List.mem_cons_of_mem d he)
      refine ⟨⟨hstring.congr fun x hx hx' => ?_, hlen'⟩, hout⟩
      by_contra hne
      obtain ⟨hend, -⟩ := ht.ended x hne
      obtain ⟨-, hp, u, v, rfl, hu⟩ := ht.returned
      simp only [List.length_append] at hout
      omega

/-- **Each call returns the next token**, and only the ends of the tokens are changed. -/
theorem strtok_tokens (ha : a ≠ 0) (hs : StringAt st.mem a s) (hlen : s.length < intRange)
    (hg : Given st a ds) :
    (∃ ps st', strtokRun st a (ds.map Delim.addr) = some (ps, st') ∧
      Tokenized s a st.mem st'.mem ds ps (wordsBy 0 s (ds.map Delim.contains)) ∧
      ∀ d : Delim, (∀ e ∈ ds, e.set = d.set) →
        ∃ ws, List.Forall₂ (Returned s a st'.mem) ps ws ∧ ws.map (Option.map Prod.snd) =
          ((words d.contains s).take ds.length).map some ++
            List.replicate (ds.length - (words d.contains s).length) none) ∧
    ∀ (t : State) (r str delim : Nat), str ≠ 0 →
      strtok { t with rem := r } str delim = strtok t str delim := by
  constructor
  · obtain ⟨ps, st', hrun, htok⟩ : ∃ ps st',
        strtokRun st a (ds.map Delim.addr) = some (ps, st') ∧
        Tokenized s a st.mem st'.mem ds ps (wordsBy 0 s (ds.map Delim.contains)) := by
      cases ds with
      | nil => exact ⟨[], st, rfl, List.Forall₂.nil, fun x hx => absurd rfl hx⟩
      | cons d ds =>
        have hr : Remains s a { st with rem := a } 0 s := Or.inr ⟨ha, hs, rfl, [], rfl, rfl⟩
        have hg' : Given { st with rem := a } 0 (d :: ds) :=
          ⟨hg.1, fun p st' hcall => hg.2 p st' ((strtok_restart ha st d.addr).trans hcall)⟩
        obtain ⟨ps, st', hrun, htok, -⟩ := strtokRun_spec hr hlen hg'
        refine ⟨ps, st', ?_, htok⟩
        rw [← hrun, List.map_cons, strtokRun, strtokRun, strtok_restart ha]
    refine ⟨ps, st', hrun, htok, fun d hsame => ?_⟩
    have hconst : ds.map Delim.contains = List.replicate ds.length d.contains := by
      refine List.eq_replicate_iff.mpr ⟨List.length_map .., fun q hq => ?_⟩
      obtain ⟨e, he, rfl⟩ := List.mem_map.mp hq
      funext c
      rw [Delim.contains, Delim.contains, hsame e he]
    refine ⟨_, htok.returned, ?_⟩
    rw [hconst, wordsBy_replicate]
  · intro t r str delim hstr
    rw [strtok_restart hstr, strtok_restart hstr]

/-- The string `,a,b` at 1, and `,` at 6. -/
def commaMemory : Memory :=
  fun x => ([0, 44, 97, 44, 98, 0, 44, 0] : List UInt8)[x]?

/-- Three calls with the same delimiter. -/
theorem comma_tokens : ∃ ps st', strtokRun ⟨commaMemory, 5⟩ 1 [6, 6, 6] = some (ps, st') ∧
    List.Forall₂ (Returned [44, 97, 44, 98] 1 st'.mem) ps
      [some (1, [97]), some (3, [98]), none] := by
  have hstring : StringAt commaMemory 1 [44, 97, 44, 98] := by
    simp [StringAt, commaMemory]
  have hset : StringAt commaMemory 6 [44] := by
    simp [StringAt, commaMemory]
  have hds : ∀ d ∈ [Delim.mk 6 [44], ⟨6, [44]⟩, ⟨6, [44]⟩],
      (StringAt commaMemory d.addr d.set ∧ d.set.length < intRange) ∧
        (d.addr + d.set.length < 1 ∨ 1 + [44, 97, 44, 98].length < d.addr) := by
    simp [hset, intRange]
  have hr : Remains [44, 97, 44, 98] 1 ⟨commaMemory, 1⟩ 0 [44, 97, 44, 98] :=
    Or.inr ⟨by decide, hstring, rfl, [], rfl, rfl⟩
  have hg : Given ⟨commaMemory, 5⟩ 1 [⟨6, [44]⟩, ⟨6, [44]⟩, ⟨6, [44]⟩] :=
    hr.given (by decide) hds
  obtain ⟨⟨ps, st', hrun, htok, -⟩, -⟩ := strtok_tokens (by decide) hstring (by decide) hg
  exact ⟨ps, st', hrun, htok.returned⟩

end CourseProjects.Strings

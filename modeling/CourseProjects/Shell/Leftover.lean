import CourseProjects.Shell.Accept

/-!
# What is behind the line

`find_next` stops one place behind the terminator, and `parse` goes on from there
unless it finds a null. What it returns is determined by the line only if it stops
before the end.
-/

namespace CourseProjects.Shell

open Text

/-- Return value, counts, flags, file names and the first `narg` places of `argc`. -/
structure SameResult (x y : Int × Parsed) : Prop where
  ret : x.1 = y.1
  narg : x.2.narg = y.2.narg
  iflag : x.2.iflag = y.2.iflag
  oflag : x.2.oflag = y.2.oflag
  aflag : x.2.aflag = y.2.aflag
  iname : x.2.iname = y.2.iname
  oname : x.2.oname = y.2.oname
  argc : ∀ k : Nat, k < y.2.narg → x.2.argc k = y.2.argc k

/-- Both calls return, with the same result. -/
def SameRun (x y : Option (Int × Parsed)) : Prop :=
  ∃ a b, x = some a ∧ y = some b ∧ SameResult a b

/-- An operator whose flag is set already. -/
def flagged (i o : Bool) : Operator → Bool
  | .input => i
  | _ => o

/-- No redirection stops the parser before it looks behind the last token: each flag is
set once at most (`i` and `o` are set already), and no operator names the file of `>>`. -/
structure Continues (i o : Bool) (items : List Item) : Prop where
  inputs : i.toNat + (inputsOf items).length ≤ 1
  outputs : o.toNat + (outputsOf items).length ≤ 1
  append : ∀ name, Item.redirect .append name ∈ items → operator? name = none

/-- The parser stops at a redirection before it looks behind the last token: the flag is
set already, or `>>` has an operator for its file name. -/
def stops : Bool → Bool → List Token → Bool
  | _, _, [] => false
  | i, o, [t] =>
    match operator? t with
    | some op => flagged i o op
    | none => false
  | i, o, t :: u :: ts =>
    match operator? t with
    | some op =>
      flagged i o op || decide (op = .append ∧ operator? u ≠ none) ||
        stops (i || decide (op = .input)) (o || decide (op ≠ .input)) ts
    | none => stops i o (u :: ts)

/-- The buffers agree up to the place `len`. -/
def Alike (len : Nat) (str1 str2 : List Char) : Prop :=
  ∀ i ≤ len, str1[i]? = str2[i]?

variable {str1 str2 r : List Char} {len fuel c c' index n : Nat} {t u : Token} {ts : List Token}
  {st out : Parsed} {op : Operator} {name : Token}

/-! ## The lines that go on -/

theorem continues_word {i o : Bool} {items : List Item} :
    Continues i o (.word t :: items) ↔ Continues i o items := by
  constructor
  · intro h
    exact ⟨h.inputs, h.outputs, fun name hm => h.append name (List.mem_cons_of_mem _ hm)⟩
  · intro h
    exact ⟨h.inputs, h.outputs, fun name hm => h.append name (by simpa using hm)⟩

theorem toNat_add {b : Bool} {n : Nat} :
    b.toNat + (n + 1) ≤ 1 ↔ b = false ∧ (b || true).toNat + n ≤ 1 := by
  cases b with
  | false =>
    simp only [Bool.toNat_false, Bool.false_or, Bool.toNat_true, eq_self, true_and]
    omega
  | true =>
    simp only [Bool.toNat_true, Bool.true_eq_false, false_and, iff_false]
    omega

theorem toNat_same {b : Bool} {n : Nat} : (b || false).toNat + n ≤ 1 ↔ b.toNat + n ≤ 1 := by
  rw [Bool.or_false]

theorem continues_redirect {i o : Bool} {items : List Item} :
    Continues i o (.redirect op name :: items) ↔
      (flagged i o op = false ∧ ¬ (op = .append ∧ operator? name ≠ none)) ∧
        Continues (i || decide (op = .input)) (o || decide (op ≠ .input)) items := by
  have happend : (∀ n, Item.redirect .append n ∈ Item.redirect op name :: items →
      operator? n = none) ↔ ¬ (op = .append ∧ operator? name ≠ none) ∧
        ∀ n, Item.redirect .append n ∈ items → operator? n = none := by
    constructor
    · intro h
      refine ⟨fun hop => ?_, fun n hm => h n (List.mem_cons_of_mem _ hm)⟩
      obtain ⟨rfl, hne⟩ := hop
      exact hne (h name List.mem_cons_self)
    · rintro ⟨hop, h⟩ n hm
      rcases List.mem_cons.mp hm with hm | hm
      · cases hm
        by_contra hne
        exact hop ⟨rfl, hne⟩
      · exact h n hm
  constructor
  · intro h
    obtain ⟨hname, hrest⟩ := happend.mp h.append
    cases op with
    | input =>
      obtain ⟨hflag, hins⟩ := toNat_add.mp h.inputs
      exact ⟨⟨hflag, hname⟩, hins, toNat_same.mpr h.outputs, hrest⟩
    | append =>
      obtain ⟨hflag, houts⟩ := toNat_add.mp h.outputs
      exact ⟨⟨hflag, hname⟩, toNat_same.mpr h.inputs, houts, hrest⟩
    | truncate =>
      obtain ⟨hflag, houts⟩ := toNat_add.mp h.outputs
      exact ⟨⟨hflag, hname⟩, toNat_same.mpr h.inputs, houts, hrest⟩
  · rintro ⟨⟨hflag, hname⟩, h⟩
    have hrest := happend.mpr ⟨hname, h.append⟩
    cases op with
    | input => exact ⟨toNat_add.mpr ⟨hflag, h.inputs⟩, toNat_same.mp h.outputs, hrest⟩
    | append => exact ⟨toNat_same.mp h.inputs, toNat_add.mpr ⟨hflag, h.outputs⟩, hrest⟩
    | truncate => exact ⟨toNat_same.mp h.inputs, toNat_add.mpr ⟨hflag, h.outputs⟩, hrest⟩

theorem continues_nil (i o : Bool) : Continues i o [] :=
  ⟨by simpa [inputsOf] using i.toNat_le, by simpa [outputsOf] using o.toNat_le,
    fun name hm => absurd hm List.not_mem_nil⟩

/-- The parser stops early exactly at the redirections of the scan that do not go on. -/
theorem stops_iff (i o : Bool) (ts : List Token) :
    stops i o ts = true ↔ ¬ Continues i o (scan ts).1 := by
  fun_induction stops i o ts with
  | case1 i o => simp [scan, continues_nil]
  | case2 i o t op hop =>
    have hempty : operator? ([] : Token) = none := by decide
    simp [scan, hop, continues_redirect, continues_nil, hempty]
  | case3 i o t hop =>
    have hstop : Continues i o (scan [t]).1 := by
      rw [scan, hop]
      split_ifs
      · exact continues_nil i o
      · exact continues_word.mpr (continues_nil i o)
    exact iff_of_false (by decide) (not_not_intro hstop)
  | case4 i o t u ts op hop ih =>
    rw [scan_operator hop, continues_redirect, Bool.or_eq_true, Bool.or_eq_true, ih,
      decide_eq_true_eq, not_and_or, not_and_or, not_not, Bool.not_eq_false]
  | case5 i o t u ts hop ih => rw [scan_word hop, continues_word, ih]

/-! ## Reading the two buffers -/

theorem skipString_alike (h : Alike len str1 str2) (fuel c : Nat) :
    skipString str1 len fuel c = skipString str2 len fuel c := by
  induction fuel generalizing c with
  | zero => rfl
  | succ fuel ih =>
    by_cases hc : c ≤ len
    · simp only [skipString, hc, if_true, h c hc, ih]
    · simp only [skipString, hc, if_false]

theorem skipNulls_alike (h : Alike len str1 str2) (hlen : len < str1.length)
    (hrun : skipNulls str2 len fuel c = some c') (hc' : c' ≤ len + 1) :
    skipNulls str1 len fuel c = if c' < str1.length then some c' else none := by
  induction fuel generalizing c with
  | zero => cases hrun
  | succ fuel ih =>
    rw [skipNulls] at hrun ⊢
    obtain ⟨a, ha, hrun⟩ := Option.bind_eq_some_iff.mp hrun
    by_cases hskip : a = nul ∧ c ≤ len
    · rw [if_pos hskip] at hrun
      rw [h c hskip.2, ha]
      simp only [Option.bind_eq_bind, Option.bind_some, if_pos hskip]
      exact ih hrun
    · rw [if_neg hskip] at hrun
      obtain rfl : c = c' := Option.some.inj hrun
      by_cases hc : c ≤ len
      · have hlt : c < str1.length := Nat.lt_of_le_of_lt hc hlen
        rw [h c hc, ha]
        simp only [Option.bind_eq_bind, Option.bind_some, if_neg hskip, if_pos hlt]
        rfl
      · -- one place behind the end of the line
        by_cases hlt : c < str1.length
        · simp [hlt, hc]
        · simp [hlt]

theorem findNext_alike (h : Alike len str1 str2) (hlen : len < str1.length)
    (hrun : findNext fuel str2 c len = some c') (hc' : c' ≤ len + 1) :
    findNext fuel str1 c len = if c' < str1.length then some c' else none := by
  obtain ⟨d, hd, hrun⟩ := Option.bind_eq_some_iff.mp hrun
  rw [findNext, skipString_alike h, hd]
  exact skipNulls_alike h hlen hrun hc'

theorem drop_alike (h : Alike len str1 str2) (hd : str2.drop c = t ++ nul :: r)
    (hle : c + t.length ≤ len) : ∃ r', str1.drop c = t ++ nul :: r' := by
  induction t generalizing c with
  | nil =>
    have hread : str1[c]? = some nul := by
      rw [h c hle]
      exact getElem?_of_drop hd
    rw [← List.head?_drop] at hread
    obtain ⟨r', hr'⟩ := List.head?_eq_some_iff.mp hread
    exact ⟨r', hr'⟩
  | cons a t ih =>
    rw [List.length_cons] at hle
    obtain ⟨r', hr'⟩ := ih (drop_succ hd) (by omega)
    have hread : str1[c]? = some a := by
      rw [h c (by omega)]
      exact getElem?_of_drop hd
    rw [← List.head?_drop] at hread
    obtain ⟨s, hs⟩ := List.head?_eq_some_iff.mp hread
    refine ⟨r', ?_⟩
    rw [hs, ← drop_succ hs, hr']
    rfl

/-- The token at `c` in both buffers, and the place behind it. -/
theorem At.alike (hat : At str2 len c (t :: ts)) (h : Alike len str1 str2)
    (hlen : len < str1.length) (hfuel : len + 1 < fuel) :
    ∃ c', At str2 len c' ts ∧ c' ≤ len + 1 ∧ (ts ≠ [] → c' ≤ len) ∧
      cstring str1 c = some t ∧ cstring str2 c = some t ∧
      (∃ a, str1[c]? = some a ∧ str2[c]? = some a ∧ a ≠ nul) ∧
      findNext fuel str2 c len = some c' ∧
      findNext fuel str1 c len = if c' < str1.length then some c' else none := by
  obtain ⟨c', hfind, hat'⟩ := hat.findNext_cons hfuel
  have hle := Strings.length_le hat'
  obtain ⟨a, hread, ha⟩ := hat.read_cons
  obtain ⟨k, r, hd, -, hnul, hrest⟩ := hat.cons
  have hend := hrest.length_le
  have hc : c + t.length ≤ len := by omega
  obtain ⟨r', hd'⟩ := drop_alike h hd hc
  refine ⟨c', hat', by omega, fun hne => ?_, cstring_spec hd' hnul, cstring_spec hd hnul,
    ⟨a, ?_, hread, ha⟩, hfind, findNext_alike h hlen hfind (by omega)⟩
  · have := List.length_pos_of_ne_nil hne
    omega
  · rw [h c (by omega), hread]

/-! ## Behind the terminator -/

theorem read_nul_iff (h : cstring str1 c = some name) : str1[c]? = some nul ↔ name = [] := by
  rw [cstring] at h
  split_ifs at h with hmem
  cases h
  rw [← List.head?_drop]
  cases hd : str1.drop c with
  | nil => simp [hd] at hmem
  | cons a r =>
    by_cases ha : a = nul
    · simp [ha]
    · simp [ha]

theorem read_of_cstring (h : cstring str1 c = some name) (hne : name ≠ []) :
    ∃ b, str1[c]? = some b ∧ b ≠ nul := by
  cases hb : str1[c]? with
  | some b => exact ⟨b, rfl, fun hnul => hne ((read_nul_iff h).mp (hnul ▸ hb))⟩
  | none =>
    rw [cstring, List.drop_eq_nil_of_le (List.getElem?_eq_none_iff.mp hb)] at h
    cases h

/-- What is set stays set. -/
structure KeepsNames (st out : Parsed) : Prop where
  input : st.iflag ≠ 0 → out.iflag ≠ 0 ∧ out.iname = st.iname
  output : st.oflag ≠ 0 → out.oflag ≠ 0 ∧ out.oname = st.oname

theorem KeepsNames.trans {st' : Parsed} (h : KeepsNames st st') (h' : KeepsNames st' out) :
    KeepsNames st out := by
  constructor
  · intro hi
    obtain ⟨hi', hname⟩ := h.input hi
    obtain ⟨hi'', hname'⟩ := h'.input hi'
    exact ⟨hi'', hname'.trans hname⟩
  · intro ho
    obtain ⟨ho', hname⟩ := h.output ho
    obtain ⟨ho'', hname'⟩ := h'.output ho'
    exact ⟨ho'', hname'.trans hname⟩

theorem keepsNames_redirected (h : st.flagOf op = 0) (name : Token) :
    KeepsNames st (st.redirected op name) := by
  cases op with
  | input => exact ⟨fun hi => absurd h hi, fun ho => ⟨ho, rfl⟩⟩
  | append => exact ⟨fun hi => ⟨hi, rfl⟩, fun ho => absurd h ho⟩
  | truncate => exact ⟨fun hi => ⟨hi, rfl⟩, fun ho => absurd h ho⟩

/-- `find_next` does not move on from there. -/
theorem findNext_behind {b : Char} (hb : str1[len + 1]? = some b) (hfuel : 0 < fuel) :
    findNext fuel str1 (len + 1) len = some (len + 1) := by
  obtain ⟨fuel, rfl⟩ := Nat.exists_eq_add_one_of_ne_zero (Nat.ne_of_gt hfuel)
  have hlt : ¬ len + 1 ≤ len := by omega
  simp [findNext, skipString, skipNulls, hlt, hb]

theorem parseToken_behind (st : Parsed) {b : Char} {ret : Int} (hb : st.str[len + 1]? = some b)
    (hfuel : 0 < fuel)
    (hloop : ∀ index (st' out : Parsed) ret, st'.str = st.str →
      parseLoop fuel len n (len + 1) index st' = some (ret, out) → ret = -1 ∧ KeepsNames st' out)
    (hrun : parseToken fuel len n (len + 1) index st = some (ret, out)) :
    ret = -1 ∧ KeepsNames st out := by
  have hfind := findNext_behind hb hfuel
  cases hs : cstring st.str (len + 1) with
  | none =>
    rw [parseToken, redirect, hs] at hrun
    cases hrun
  | some s =>
    cases hop : operator? s with
    | none =>
      rw [parseToken_word hs hop, hfind, Option.bind_some] at hrun
      obtain ⟨hret, hin, hout⟩ := hloop _ (st.argument index (len + 1)) _ _ rfl hrun
      exact ⟨hret, hin, hout⟩
    | some op =>
      rw [parseToken_operator st hs hop] at hrun
      by_cases hflag : st.flagOf op = 0
      · obtain ⟨hgranted, hdenied⟩ := redirectAs_named st hflag hfind hs
        have hkeeps : KeepsNames st (st.redirected op s) := keepsNames_redirected hflag s
        by_cases hg : Granted st op s
        · rw [hgranted hg, Option.bind_some] at hrun
          rw [afterRedirect, redirected_str, hfind, Option.bind_some] at hrun
          obtain ⟨hret, hkeeps'⟩ := hloop _ _ _ _ (redirected_str s) hrun
          exact ⟨hret, hkeeps.trans hkeeps'⟩
        · obtain ⟨msg, hred⟩ := hdenied hg
          rw [hred] at hrun
          cases hrun
          exact ⟨rfl, hkeeps.input, hkeeps.output⟩
      · obtain ⟨msg, hred⟩ := redirectAs_flagged st fuel len (len + 1) hflag
        rw [hred] at hrun
        cases hrun
        exact ⟨rfl, fun hi => ⟨hi, rfl⟩, fun ho => ⟨ho, rfl⟩⟩

/-- A parser that has got there does not succeed. -/
theorem parseLoop_behind (st : Parsed) {b : Char} {ret : Int} (hb : st.str[len + 1]? = some b)
    (hne : b ≠ nul) (hfuel : 0 < fuel)
    (hrun : parseLoop fuel len n (len + 1) index st = some (ret, out)) :
    ret = -1 ∧ KeepsNames st out := by
  induction n generalizing index st ret out with
  | zero => cases hrun
  | succ n ih =>
    rw [parseLoop_eq hb hne] at hrun
    obtain ⟨⟨c, st'⟩, hamp, hrun⟩ := Option.bind_eq_some_iff.mp hrun
    have hstay : c = len + 1 ∧ st'.str = st.str ∧ KeepsNames st st' := by
      obtain ⟨s, hs, hamp⟩ := Option.bind_eq_some_iff.mp hamp
      split_ifs at hamp
      · rw [findNext_behind hb hfuel] at hamp
        cases hamp
        exact ⟨rfl, rfl, fun hi => ⟨hi, rfl⟩, fun ho => ⟨ho, rfl⟩⟩
      · cases hamp
        exact ⟨rfl, rfl, fun hi => ⟨hi, rfl⟩, fun ho => ⟨ho, rfl⟩⟩
    obtain ⟨rfl, hstr, hkeeps⟩ := hstay
    have hb' : st'.str[len + 1]? = some b := hstr ▸ hb
    obtain ⟨hret, hkeeps'⟩ := parseToken_behind st' hb' hfuel
      (fun index st'' out ret hstr'' hrun => ih st'' (hstr'' ▸ hb') hrun) hrun
    exact ⟨hret, hkeeps.trans hkeeps'⟩

/-- A word behind the terminator is read again in every round. -/
theorem parseLoop_stuck (hs : cstring st.str (len + 1) = some t) (hne : t ≠ [])
    (hop : operator? t = none) (hamp : t ≠ ['&']) (hfuel : 0 < fuel) :
    parseLoop fuel len n (len + 1) index st = none := by
  obtain ⟨b, hb, hnul⟩ := read_of_cstring hs hne
  induction n generalizing index st with
  | zero => rfl
  | succ n ih =>
    rw [parseLoop_next st hb hnul hs (fun hl => hamp hl.1) hop (findNext_behind hb hfuel),
      Option.bind_some]
    exact ih hs hb

/-! ## Two runs on the same line -/

def Parsed.on (st : Parsed) (str : List Char) : Parsed :=
  { st with str := str }

theorem argument_on (str : List Char) :
    (st.on str).argument index c = (st.argument index c).on str := rfl

theorem background_on (str : List Char) :
    (st.on str).background = st.background.on str := rfl

theorem sameRun_self (ret : Int) (e1 e2 : Option String) :
    SameRun (some (ret, { st with str := str1, error := e1 }))
      (some (ret, { st with str := str2, error := e2 })) :=
  ⟨_, _, rfl, rfl, rfl, rfl, rfl, rfl, rfl, rfl, rfl, fun _ _ => rfl⟩

theorem not_sameRun_none {y : Option (Int × Parsed)} : ¬ SameRun none y := by
  rintro ⟨a, b, ha, -⟩
  cases ha

theorem SameRun.symm {x y : Option (Int × Parsed)} (h : SameRun x y) : SameRun y x := by
  obtain ⟨a, b, ha, hb, hsame⟩ := h
  refine ⟨b, a, hb, ha, hsame.ret.symm, hsame.narg.symm, hsame.iflag.symm, hsame.oflag.symm,
    hsame.aflag.symm, hsame.iname.symm, hsame.oname.symm, fun k hk => ?_⟩
  exact (hsame.argc k (hsame.narg ▸ hk)).symm

theorem SameRun.trans {x y z : Option (Int × Parsed)} (h : SameRun x y) (h' : SameRun y z) :
    SameRun x z := by
  obtain ⟨a, b, ha, hb, hsame⟩ := h
  obtain ⟨b', d, hb', hd, hsame'⟩ := h'
  cases hb.symm.trans hb'
  refine ⟨a, d, ha, hd, hsame.ret.trans hsame'.ret, hsame.narg.trans hsame'.narg,
    hsame.iflag.trans hsame'.iflag, hsame.oflag.trans hsame'.oflag,
    hsame.aflag.trans hsame'.aflag, hsame.iname.trans hsame'.iname,
    hsame.oname.trans hsame'.oname, fun k hk => ?_⟩
  exact (hsame.argc k (hsame'.narg ▸ hk)).trans (hsame'.argc k hk)

theorem at_end (h : str1[len + 1]? = some nul) : At str1 len (len + 1) [] := by
  rw [← List.head?_drop] at h
  obtain ⟨r, hr⟩ := List.head?_eq_some_iff.mp h
  unfold At
  rw [hr]
  exact Strings.done r

@[simp] theorem redirected_on (str : List Char) :
    (st.on str).redirected op name = (st.redirected op name).on str := by
  cases op <;> rfl

theorem flagged_iff {i o : Bool} (hi : decide (st.iflag ≠ 0) = i)
    (ho : decide (st.oflag ≠ 0) = o) : flagged i o op = true ↔ st.flagOf op ≠ 0 := by
  cases op with
  | input => simp [flagged, Parsed.flagOf, ← hi]
  | append => simp [flagged, Parsed.flagOf, ← ho]
  | truncate => simp [flagged, Parsed.flagOf, ← ho]

theorem flags_redirected (op : Operator) {i o : Bool} (hi : decide (st.iflag ≠ 0) = i)
    (ho : decide (st.oflag ≠ 0) = o) (name : Token) :
    decide ((st.redirected op name).iflag ≠ 0) = (i || decide (op = .input)) ∧
      decide ((st.redirected op name).oflag ≠ 0) = (o || decide (op ≠ .input)) := by
  cases op with
  | input => exact ⟨by simp [Parsed.redirected, Operator.flag], ho.trans (Bool.or_false o).symm⟩
  | append => exact ⟨hi.trans (Bool.or_false i).symm, by simp [Parsed.redirected, Operator.flag]⟩
  | truncate => exact ⟨hi.trans (Bool.or_false i).symm, by simp [Parsed.redirected, Operator.flag]⟩

/-- A run that succeeds on the line alone succeeds with a null behind it, and with
nothing else. -/
theorem sameRun_behind {x : Option (Int × Parsed)}
    (hout : str1[len + 1]? = none → x = none)
    (hnull : str1[len + 1]? = some nul → x = some (1, st.on str1))
    (hleft : ∀ b ret out, str1[len + 1]? = some b → b ≠ nul → x = some (ret, out) → ret = -1) :
    SameRun x (some (1, st.on str2)) ↔ str1[len + 1]? = some nul := by
  cases hb : str1[len + 1]? with
  | none =>
    rw [hout hb]
    exact iff_of_false not_sameRun_none (by simp)
  | some b =>
    by_cases hnul : b = nul
    · subst hnul
      rw [hnull hb]
      exact iff_of_true (sameRun_self 1 _ _) rfl
    · refine iff_of_false ?_ (by simpa using hnul)
      rintro ⟨⟨ret, out⟩, b', hrun, heq, hsame⟩
      cases heq
      have hret := hleft b ret out hb hnul hrun
      have heq : (-1 : Int) = 1 := hret.symm.trans hsame.ret
      exact absurd heq (by decide)

/-- A run that has to go on outside the buffer has no result. -/
theorem outside_or (f : Nat → Option (Int × Parsed)) {y : Option (Int × Parsed)}
    (h : len + 1 < str1.length → (SameRun (f (len + 1)) y ↔ str1[len + 1]? = some nul)) :
    SameRun ((if len + 1 < str1.length then some (len + 1) else none).bind f) y ↔
      str1[len + 1]? = some nul := by
  by_cases hlt : len + 1 < str1.length
  · rw [if_pos hlt]
    exact h hlt
  · rw [if_neg hlt, List.getElem?_eq_none (Nat.le_of_not_lt hlt)]
    exact iff_of_false not_sameRun_none (by simp)

theorem walk_end (st : Parsed) (hfuel : 0 < fuel) :
    SameRun (parseLoop fuel len (n + 1) (len + 1) index (st.on str1)) (some (1, st.on str2)) ↔
      str1[len + 1]? = some nul := by
  apply sameRun_behind
  · intro hb
    rw [parseLoop, show (st.on str1).str[len + 1]? = none from hb]
    rfl
  · intro hb
    exact parseLoop_done (at_end hb)
  · intro b ret out hb hnul hrun
    exact (parseLoop_behind (st.on str1) hb hnul hfuel hrun).1

theorem walk_ampersand (st : Parsed) (hfuel : 0 < fuel) :
    SameRun (parseToken fuel len (n + 1) (len + 1) index (st.on str1))
        (some (1, (st.argument index (len + 1)).on str2)) ↔ str1[len + 1]? = some nul := by
  apply sameRun_behind
  · intro hb
    have hnone : cstring str1 (len + 1) = none := by
      rw [List.getElem?_eq_none_iff] at hb
      simp [cstring, List.drop_eq_nil_of_le hb]
    rw [parseToken, redirect, show cstring (st.on str1).str (len + 1) = none from hnone]
    rfl
  · intro hb
    exact parseToken_end (st.on str1) (at_end hb) hfuel
  · intro b ret out hb hnul hrun
    refine (parseToken_behind (st.on str1) hb hfuel (fun index st' out ret hstr hrun => ?_)
      hrun).1
    exact parseLoop_behind st' (by rw [hstr]; exact hb) hnul hfuel hrun

/-- A name that is not the empty one stays in the result. -/
theorem not_sameResult_named {ret ret' : Int} {e : Option String} (hne : name ≠ [])
    (hkeeps : KeepsNames ((st.redirected op name).on str1) out) :
    ¬ SameResult (ret, out) (ret', { (st.redirected op []).on str2 with error := e }) := by
  intro hsame
  cases op with
  | input =>
    obtain ⟨-, hname⟩ := hkeeps.input (by decide : (3 : Int) ≠ 0)
    exact hne (hname.symm.trans hsame.iname)
  | append =>
    obtain ⟨-, hname⟩ := hkeeps.output (by decide : (2 : Int) ≠ 0)
    exact hne (hname.symm.trans hsame.oname)
  | truncate =>
    obtain ⟨-, hname⟩ := hkeeps.output (by decide : (1 : Int) ≠ 0)
    exact hne (hname.symm.trans hsame.oname)

/-- The last token is an operator with its flag unset. -/
theorem walk_empty {e : Option String} (hflag : st.flagOf op = 0)
    (hfind : findNext fuel str1 c len = if len + 1 < str1.length then some (len + 1) else none)
    (hfuel : 0 < fuel) :
    SameRun ((redirectAs op fuel len c (st.on str1)).bind (afterRedirect fuel len n index))
      (some (-1, { (st.redirected op []).on str2 with error := e })) ↔
      str1[len + 1]? = some nul := by
  cases hname : (findNext fuel str1 c len).bind fun c' => cstring str1 c' with
  | none =>
    rw [redirectAs_unread (st.on str1) hflag hname]
    refine iff_of_false not_sameRun_none fun hb => ?_
    obtain ⟨hlt, -⟩ := List.getElem?_eq_some_iff.mp hb
    rw [hfind, if_pos hlt, Option.bind_some, (at_end hb).cstring_nil] at hname
    cases hname
  | some name =>
    have hlt : len + 1 < str1.length := by
      by_contra hlt
      rw [hfind, if_neg hlt] at hname
      cases hname
    rw [if_pos hlt] at hfind
    rw [hfind, Option.bind_some] at hname
    obtain ⟨hgranted, hdenied⟩ := redirectAs_named (st.on str1) hflag hfind hname
    rw [read_nul_iff hname]
    constructor
    · rintro ⟨⟨ret, out⟩, b, hrun, heq, hsame⟩
      cases heq
      by_contra hne
      suffices hkeeps : KeepsNames ((st.redirected op name).on str1) out from
        not_sameResult_named hne hkeeps hsame
      by_cases hg : Granted (st.on str1) op name
      · have hbehind : findNext fuel ((st.redirected op name).on str1).str (len + 1) len =
            some (len + 1) := findNext_behind (List.getElem?_eq_getElem hlt) hfuel
        rw [hgranted hg, redirected_on, Option.bind_some, afterRedirect, hbehind,
          Option.bind_some] at hrun
        refine (parseLoop_behind ((st.redirected op name).on str1)
          (List.getElem?_eq_getElem hlt) (fun hnul => hne ?_) hfuel hrun).2
        rw [← read_nul_iff hname, List.getElem?_eq_getElem hlt, hnul]
      · obtain ⟨msg, hred⟩ := hdenied hg
        rw [hred, redirected_on] at hrun
        cases hrun
        exact ⟨fun hi => ⟨hi, rfl⟩, fun ho => ⟨ho, rfl⟩⟩
    · rintro rfl
      obtain ⟨msg, hred⟩ := hdenied fun hg => hg.2.1 rfl
      rw [hred, redirected_on]
      exact sameRun_self (-1) _ _

/-- The last token is a word. -/
theorem walk_last_word (hat : At str2 len c [t]) (h : Alike len str1 str2)
    (hlen : len < str1.length) (hfuel : len + 1 < fuel) (hop : operator? t = none) :
    SameRun (parseLoop fuel len (n + 2) c index (st.on str1))
      (parseLoop fuel len (n + 2) c index (st.on str2)) ↔ str1[len + 1]? = some nul := by
  have hfuel0 : 0 < fuel := Nat.zero_lt_of_lt hfuel
  obtain ⟨c', hat', -, -, hs1, hs2, ⟨a, hread1, hread2, ha⟩, hfind2, hfind1⟩ :=
    hat.alike h hlen hfuel
  obtain ⟨rfl, -⟩ := hat'.nil
  by_cases hlast : t = ['&'] ∧ (index : Int) + 1 = st.narg
  · obtain ⟨rfl, hlast⟩ := hlast
    have hend : At (st.background.on str2).str len (len + 1) [] := hat'
    rw [parseLoop_last (st.on str1) hread1 ha hs1 hlast hfind1,
      parseLoop_last (st.on str2) hread2 ha hs2 hlast hfind2, Option.bind_some, background_on,
      background_on, parseToken_end _ hend hfuel0]
    exact outside_or _ fun hlt => walk_ampersand st.background hfuel0
  · have hend : At ((st.argument index c).on str2).str len (len + 1) [] := hat'
    rw [parseLoop_next (st.on str1) hread1 ha hs1 hlast hop hfind1,
      parseLoop_next (st.on str2) hread2 ha hs2 hlast hop hfind2, Option.bind_some, argument_on,
      argument_on, parseLoop_done hend]
    exact outside_or _ fun hlt => walk_end (st.argument index c) hfuel0

/-- At an operator both runs come to its redirection. -/
theorem operator_alike (st : Parsed) (n : Nat) (hat : At str2 len c (t :: ts))
    (h : Alike len str1 str2) (hlen : len < str1.length) (hfuel : len + 1 < fuel)
    (hop : operator? t = some op) :
    parseLoop fuel len (n + 1) c index (st.on str1) =
        (redirectAs op fuel len c (st.on str1)).bind (afterRedirect fuel len n index) ∧
      parseLoop fuel len (n + 1) c index (st.on str2) =
        (redirectAs op fuel len c (st.on str2)).bind (afterRedirect fuel len n index) := by
  obtain ⟨-, -, -, -, hs1, hs2, ⟨a, hread1, hread2, ha⟩, -, -⟩ := hat.alike h hlen hfuel
  exact ⟨parseLoop_operator (st.on str1) hread1 ha hs1 hop,
    parseLoop_operator (st.on str2) hread2 ha hs2 hop⟩

theorem flagged_alike (hflag : st.flagOf op ≠ 0) :
    SameRun ((redirectAs op fuel len c (st.on str1)).bind (afterRedirect fuel len n index))
      ((redirectAs op fuel len c (st.on str2)).bind (afterRedirect fuel len n index)) := by
  obtain ⟨msg1, hred1⟩ := redirectAs_flagged (st.on str1) fuel len c hflag
  obtain ⟨msg2, hred2⟩ := redirectAs_flagged (st.on str2) fuel len c hflag
  rw [hred1, hred2]
  exact sameRun_self (-1) _ _

/-- With a name that is refused both runs end, with one that is granted both go on behind
it, unless the place is outside the buffer. -/
theorem named_alike (n index : Nat) (hat : At str2 len c (t :: u :: ts)) (h : Alike len str1 str2)
    (hlen : len < str1.length) (hfuel : len + 1 < fuel) (hflag : st.flagOf op = 0) :
    (op = .append ∧ operator? u ≠ none →
      SameRun ((redirectAs op fuel len c (st.on str1)).bind (afterRedirect fuel len n index))
        ((redirectAs op fuel len c (st.on str2)).bind (afterRedirect fuel len n index))) ∧
    (¬ (op = .append ∧ operator? u ≠ none) → ∃ c', At str2 len c' ts ∧ (ts ≠ [] → c' ≤ len) ∧
      (redirectAs op fuel len c (st.on str1)).bind (afterRedirect fuel len n index) =
        (if c' < str1.length then some c' else none).bind (fun c' =>
          parseLoop fuel len n c' index ((st.redirected op u).on str1)) ∧
      (redirectAs op fuel len c (st.on str2)).bind (afterRedirect fuel len n index) =
        parseLoop fuel len n c' index ((st.redirected op u).on str2)) := by
  obtain ⟨c', hat', -, hle, -, -, -, hfind2, hfind1⟩ := hat.alike h hlen hfuel
  rw [if_pos (Nat.lt_of_le_of_lt (hle (List.cons_ne_nil u ts)) hlen)] at hfind1
  obtain ⟨c'', hat'', -, hle', hs1, hs2, -, hnext2, hnext1⟩ := hat'.alike h hlen hfuel
  obtain ⟨hgranted1, hdenied1⟩ := redirectAs_named (st.on str1) hflag hfind1 hs1
  obtain ⟨hgranted2, hdenied2⟩ := redirectAs_named (st.on str2) hflag hfind2 hs2
  constructor
  · intro hg
    have hdeny : ¬ Granted st op u := fun hgr => hg.2 (hgr.2.2 hg.1)
    obtain ⟨msg1, hred1⟩ := hdenied1 hdeny
    obtain ⟨msg2, hred2⟩ := hdenied2 hdeny
    rw [hred1, hred2, redirected_on, redirected_on]
    exact sameRun_self (-1) _ _
  · intro hg
    have hgr : Granted st op u := by
      obtain ⟨-, -, -, hne, -⟩ := hat'.cons
      refine ⟨hflag, hne, fun happend => ?_⟩
      by_contra hne
      exact hg ⟨happend, hne⟩
    refine ⟨c'', hat'', hle', ?_, ?_⟩
    · rw [hgranted1 hgr, redirected_on, ← hnext1]
      rfl
    · have hnext : findNext fuel ((st.redirected op u).on str2).str c' len = some c'' := hnext2
      rw [hgranted2 hgr, redirected_on, Option.bind_some, afterRedirect, hnext, Option.bind_some]

/-- The runs stay together, with the same result, up to the end of the line. -/
theorem walk (h : Alike len str1 str2) (hlen : len < str1.length) (hat : At str2 len c ts)
    (hnarg : st.narg = index + ts.length) (hfuel : len + 1 < fuel) (hn : ts.length < n)
    {i o : Bool} (hi : decide (st.iflag ≠ 0) = i) (ho : decide (st.oflag ≠ 0) = o) :
    SameRun (parseLoop fuel len n c index (st.on str1))
        (parseLoop fuel len n c index (st.on str2)) ↔
      stops i o ts = true ∨ str1[len + 1]? = some nul := by
  have hfuel0 : 0 < fuel := Nat.zero_lt_of_lt hfuel
  obtain ⟨n, rfl⟩ := Nat.exists_eq_add_one_of_ne_zero (Nat.ne_zero_of_lt hn)
  fun_induction stops i o ts generalizing st c index n with
  | case1 i o =>
    have hat' : At (st.on str2).str len c [] := hat
    obtain ⟨rfl, -⟩ := hat.nil
    rw [parseLoop_done hat', walk_end st hfuel0]
    simp
  | case2 i o t op hop =>
    obtain ⟨hrun1, hrun2⟩ := operator_alike st n hat h hlen hfuel hop
    rw [hrun1, hrun2, flagged_iff hi ho]
    by_cases hflag : st.flagOf op = 0
    · obtain ⟨c', hat', -, -, -, -, -, hfind2, hfind1⟩ := hat.alike h hlen hfuel
      obtain ⟨rfl, -⟩ := hat'.nil
      obtain ⟨msg, hred⟩ := (redirectAs_named (st.on str2) hflag hfind2 hat'.cstring_nil).2
        fun hg => hg.2.1 rfl
      rw [hred, redirected_on, or_iff_right (not_not_intro hflag)]
      exact walk_empty hflag hfind1 hfuel0
    · exact iff_of_true (flagged_alike hflag) (Or.inl hflag)
  | case3 i o t hop =>
    obtain ⟨n, rfl⟩ : ∃ m, n = m + 1 := ⟨n - 1, by simp at hn; omega⟩
    have hfalse : ¬ false = true := by decide
    rw [or_iff_right hfalse]
    exact walk_last_word hat h hlen hfuel hop
  | case4 i o t u ts op hop ih =>
    obtain ⟨hrun1, hrun2⟩ := operator_alike st n hat h hlen hfuel hop
    rw [hrun1, hrun2, Bool.or_eq_true, Bool.or_eq_true, flagged_iff hi ho, decide_eq_true_eq]
    by_cases hflag : st.flagOf op = 0
    · obtain ⟨hdenied, hgranted⟩ := named_alike n index hat h hlen hfuel hflag
      by_cases hg : op = .append ∧ operator? u ≠ none
      · exact iff_of_true (hdenied hg) (Or.inl (Or.inl (Or.inr hg)))
      · obtain ⟨c', hat', hle, hgo1, hgo2⟩ := hgranted hg
        rw [hgo1, hgo2, or_iff_right (a := st.flagOf op ≠ 0) (not_not_intro hflag),
          or_iff_right hg]
        obtain ⟨m, rfl⟩ : ∃ m, n = m + 1 := ⟨n - 1, by simp at hn; omega⟩
        have hnarg' : (st.redirected op u).narg = index + ts.length := by
          rw [redirected_narg, hnarg]
          simp only [List.length_cons]
          omega
        obtain ⟨hin, hout⟩ := flags_redirected op hi ho u
        have hrest := ih hat' hnarg' hin hout m (by simp at hn; omega)
        by_cases hlt : c' < str1.length
        · rw [if_pos hlt]
          exact hrest
        · -- the name is the last token
          have hts : ts = [] := by
            by_contra hne
            exact hlt (Nat.lt_of_le_of_lt (hle hne) hlen)
          subst hts
          obtain ⟨rfl, -⟩ := hat'.nil
          rw [if_neg hlt, List.getElem?_eq_none (Nat.le_of_not_lt hlt)]
          exact iff_of_false not_sameRun_none (by simp [stops])
    · exact iff_of_true (flagged_alike hflag) (Or.inl (Or.inl (Or.inl hflag)))
  | case5 i o t u ts hop ih =>
    obtain ⟨c', hat', -, hle, hs1, hs2, ⟨a, hread1, hread2, ha⟩, hfind2, hfind1⟩ :=
      hat.alike h hlen hfuel
    have hlast : ¬ (t = ['&'] ∧ (index : Int) + 1 = st.narg) := fun hl => by
      have := hl.2.trans hnarg
      simp at this
      omega
    rw [if_pos (Nat.lt_of_le_of_lt (hle (List.cons_ne_nil u ts)) hlen)] at hfind1
    obtain ⟨m, rfl⟩ : ∃ m, n = m + 1 := ⟨n - 1, by simp at hn; omega⟩
    rw [parseLoop_next (st.on str1) hread1 ha hs1 hlast hop hfind1,
      parseLoop_next (st.on str2) hread2 ha hs2 hlast hop hfind2, Option.bind_some,
      Option.bind_some, argument_on, argument_on]
    have hnarg' : (st.argument index c).narg = (index + 1 : Nat) + (u :: ts).length := by
      simp only [Parsed.argument, hnarg, List.length_cons]
      omega
    exact ih hat' hnarg' hi ho m (by simpa using Nat.lt_of_succ_lt_succ hn)

/-! ## The call -/

/-- The state behind the first loop, without the buffer. -/
def counted (line iname oname : List Char) (argc : Nat → Nat) : Parsed :=
  ⟨[], iname, oname, 0, 0, 0, (tokens line).length, argc, none⟩

variable {line iname oname : List Char} {argc : Nat → Nat}

theorem callParse_eq (r : List Char) (hline : nul ∉ line) (hfuel : line.length + 1 < fuel) :
    callParse fuel (line ++ nul :: r) iname oname argc =
      if tokens line = [] then
        some (-1, (counted line iname oname argc).on (nulled line ++ nul :: r))
      else (skipNulls (nulled line ++ nul :: r) line.length fuel 0).bind fun c =>
        parseLoop fuel line.length fuel c 0
          ((counted line iname oname argc).on (nulled line ++ nul :: r)) := by
  let start : Parsed := ⟨line ++ nul :: r, iname, oname, 0, 0, 0, 0, argc, none⟩
  have hloop := nullSpaces_spec (r := r) line start 0 false [] rfl rfl hline
    (Nat.lt_of_succ_lt hfuel)
  have hstate : start.counted ([] ++ (nulled line ++ nul :: r)) (starts false line) =
      (counted line iname oname argc).on (nulled line ++ nul :: r) := by
    simp [Parsed.counted, counted, Parsed.on, start, starts, tokens]
  rw [hstate, Nat.zero_add] at hloop
  rw [callParse, parse, hloop, Option.bind_eq_bind, Option.bind_some]
  have hcount : ((counted line iname oname argc).on (nulled line ++ nul :: r)).narg = 0 ↔
      tokens line = [] := by
    simp [Parsed.on, counted]
  by_cases hts : tokens line = []
  · rw [if_pos hts]
    exact if_pos (hcount.mpr hts)
  · rw [if_neg hts]
    exact if_neg fun hzero => hts (hcount.mp hzero)

theorem alike_of_line (line r r' : List Char) :
    Alike line.length (nulled line ++ nul :: r) (nulled line ++ nul :: r') := by
  intro i hi
  have hlt : i < (nulled line ++ [nul]).length := by
    simp [nulled]
    omega
  have hcut : ∀ s, nulled line ++ nul :: s = nulled line ++ [nul] ++ s := fun s => by simp
  rw [hcut r, hcut r', List.getElem?_append_left hlt, List.getElem?_append_left hlt]

/-- `parse` does with a buffer what it does with a cleared one exactly when the line is
blank, it stops before the end, or there is a second null. -/
theorem agrees_iff (r : List Char) (hline : nul ∉ line) (hfuel : line.length + 1 < fuel) :
    SameRun (callParse fuel (line ++ nul :: r) iname oname argc)
        (callParse fuel (line ++ [nul, nul]) iname oname argc) ↔
      tokens line = [] ∨ ¬ Continues false false (scan (tokens line)).1 ∨ r.head? = some nul := by
  rw [callParse_eq r hline hfuel, callParse_eq [nul] hline hfuel]
  by_cases hts : tokens line = []
  · rw [if_pos hts, if_pos hts]
    exact iff_of_true (sameRun_self (-1) _ _) (Or.inl hts)
  · rw [if_neg hts, if_neg hts, or_iff_right hts]
    have hlength : line.length < (nulled line ++ nul :: r).length := by simp [nulled]
    obtain ⟨c, hskip, hat⟩ := first_string [] hline hfuel
    replace hat : At (nulled line ++ [nul, nul]) line.length c (tokens line) := hat
    have hle : c + (tokens line).length ≤ line.length + 1 := Strings.length_le hat
    have hpos : 0 < (tokens line).length := List.length_pos_of_ne_nil hts
    have hskip' := skipNulls_alike (alike_of_line line r [nul]) hlength hskip (by omega)
    rw [if_pos (by omega)] at hskip'
    rw [hskip, hskip', Option.bind_some, Option.bind_some]
    have hnext : (nulled line ++ nul :: r)[line.length + 1]? = r.head? := by
      have hlen : (nulled line ++ [nul]).length = line.length + 1 := by simp [nulled]
      rw [show nulled line ++ nul :: r = nulled line ++ [nul] ++ r by simp,
        List.getElem?_append_right (by omega), hlen, Nat.sub_self, List.head?_eq_getElem?]
    have hcount : (counted line iname oname argc).narg = (0 : Nat) + (tokens line).length := by
      simp [counted]
    rw [walk (alike_of_line line r [nul]) hlength hat
      hcount hfuel (by omega) (i := false) (o := false) rfl rfl, hnext, stops_iff]

/-- The result does not depend on what is behind the line for the lines on which `parse`
stops before the end, and for no other. On these it is the result of a cleared buffer if
there is a second null. -/
theorem parse_depends_on_line_iff (line iname oname : List Char) (argc : Nat → Nat)
    (hline : nul ∉ line) (fuel : Nat) (hfuel : line.length + 1 < fuel) :
    ((∀ r r', SameRun (callParse fuel (line ++ nul :: r) iname oname argc)
        (callParse fuel (line ++ nul :: r') iname oname argc)) ↔
      tokens line = [] ∨ ¬ Continues false false (scan (tokens line)).1) ∧
    ∀ r, SameRun (callParse fuel (line ++ nul :: r) iname oname argc)
        (callParse fuel (line ++ [nul, nul]) iname oname argc) ↔
      tokens line = [] ∨ ¬ Continues false false (scan (tokens line)).1 ∨ r.head? = some nul := by
  refine ⟨?_, fun r => agrees_iff r hline hfuel⟩
  constructor
  · intro h
    have hout := (agrees_iff [] hline hfuel).mp (h [] [nul])
    simpa using hout
  · intro h r r'
    have hagree : ∀ s, SameRun (callParse fuel (line ++ nul :: s) iname oname argc)
        (callParse fuel (line ++ [nul, nul]) iname oname argc) := fun s =>
      (agrees_iff s hline hfuel).mpr (h.imp_right Or.inl)
    exact (hagree r).trans (hagree r').symm

/-- A command with both redirections in the background goes on to the end. -/
theorem cat_depends_on_line_iff :
    ((∀ r r', SameRun (callParse 20 ("cat < a >> b &\n".toList ++ nul :: r) [] [] id)
        (callParse 20 ("cat < a >> b &\n".toList ++ nul :: r') [] [] id)) ↔
      tokens "cat < a >> b &\n".toList = [] ∨
        ¬ Continues false false (scan (tokens "cat < a >> b &\n".toList)).1) ∧
    ∀ r, SameRun (callParse 20 ("cat < a >> b &\n".toList ++ nul :: r) [] [] id)
        (callParse 20 ("cat < a >> b &\n".toList ++ [nul, nul]) [] [] id) ↔
      tokens "cat < a >> b &\n".toList = [] ∨
        ¬ Continues false false (scan (tokens "cat < a >> b &\n".toList)).1 ∨ r.head? = some nul :=
  parse_depends_on_line_iff "cat < a >> b &\n".toList [] [] id (by decide) 20 (by decide)

/-- The parser of `ls` takes the word behind it as an argument again and again. -/
theorem ls_never_returns (fuel : Nat) :
    callParse fuel ("ls".toList ++ nul :: ['x', nul]) [] [] id = none := by
  by_cases hfuel : 3 < fuel
  · obtain ⟨k, rfl⟩ : ∃ k, fuel = k + 4 := ⟨fuel - 4, by omega⟩
    let st : Parsed := ⟨"ls".toList ++ nul :: ['x', nul], [], [], 0, 0, 0, 1, id, none⟩
    have hstart : callParse (k + 4) ("ls".toList ++ nul :: ['x', nul]) [] [] id =
        parseLoop (k + 4) 2 (k + 3) (2 + 1) 1 (st.argument 0 0) := rfl
    rw [hstart]
    exact parseLoop_stuck (t := ['x']) rfl (by decide) (by decide) (by decide) (by omega)
  · have hsmall : fuel = 0 ∨ fuel = 1 ∨ fuel = 2 ∨ fuel = 3 := by omega
    rcases hsmall with rfl | rfl | rfl | rfl <;> rfl

/-- With a character behind the line the parser does not return. -/
theorem ls_reads_leftover :
    ¬ ∃ fuel, SameRun (callParse fuel ("ls".toList ++ nul :: ['x', nul]) [] [] id)
      (callParse fuel ("ls".toList ++ nul :: [nul, nul]) [] [] id) := by
  rintro ⟨fuel, h⟩
  rw [ls_never_returns] at h
  exact not_sameRun_none h

end CourseProjects.Shell

import CourseProjects.Shell.Rounds

/-!
# What the parser returns

The loop of `parse` follows the scan of the tokens. With `index` words behind
it, `narg` exceeds `index` by the number of tokens ahead, so that the test for
a trailing `&` succeeds at the last token only.
-/

namespace CourseProjects.Shell

open Text

variable {len c fuel index : Nat} {st out : Parsed} {t u : Token} {ts : List Token}
  {op : Operator} {items : List Item}

/-! ## What is tolerated -/

def seen (flag : Int) : Nat :=
  if flag = 0 then 0 else 1

theorem tolerated_word {i o : Nat} : Tolerated i o (.word t :: items) ↔ Tolerated i o items := by
  constructor
  · intro h
    refine ⟨h.inputs, h.outputs, fun op name hm => ?_, fun op name hm => ?_⟩
    · exact h.named op name (List.mem_cons_of_mem _ hm)
    · exact h.append op name (List.mem_cons_of_mem _ hm)
  · intro h
    refine ⟨h.inputs, h.outputs, fun op name hm => ?_, fun op name hm => ?_⟩
    · exact h.named op name (by simpa using hm)
    · exact h.append op name (by simpa using hm)

theorem forall_redirect (op : Operator) (name : Token) {P : Operator → Token → Prop} :
    (∀ op' n, Item.redirect op' n ∈ Item.redirect op name :: items → P op' n) ↔
      P op name ∧ ∀ op' n, Item.redirect op' n ∈ items → P op' n := by
  constructor
  · intro h
    exact ⟨h op name List.mem_cons_self, fun op' n hm => h op' n (List.mem_cons_of_mem _ hm)⟩
  · rintro ⟨h, hrest⟩ op' n hm
    rcases List.mem_cons.mp hm with hm | hm
    · cases hm
      exact h
    · exact hrest op' n hm

theorem seen_add {flag : Int} {n : Nat} : seen flag + (n + 1) ≤ 1 ↔ flag = 0 ∧ 1 + n ≤ 1 := by
  unfold seen
  split_ifs <;> omega

theorem tolerated_redirect {name : Token} :
    Tolerated (seen st.iflag) (seen st.oflag) (.redirect op name :: items) ↔
      Granted st op name ∧ Tolerated (seen (st.redirected op name).iflag)
        (seen (st.redirected op name).oflag) items := by
  constructor
  · intro h
    obtain ⟨hname, hnamed⟩ := (forall_redirect op name).mp h.named
    obtain ⟨hsymbol, happend⟩ := (forall_redirect op name).mp h.append
    cases op with
    | input =>
      obtain ⟨hflag, hins⟩ := seen_add.mp h.inputs
      exact ⟨⟨hflag, hname, hsymbol⟩, hins, h.outputs, hnamed, happend⟩
    | append =>
      obtain ⟨hflag, houts⟩ := seen_add.mp h.outputs
      exact ⟨⟨hflag, hname, hsymbol⟩, h.inputs, houts, hnamed, happend⟩
    | truncate =>
      obtain ⟨hflag, houts⟩ := seen_add.mp h.outputs
      exact ⟨⟨hflag, hname, hsymbol⟩, h.inputs, houts, hnamed, happend⟩
  · rintro ⟨⟨hflag, hname, hsymbol⟩, h⟩
    have hnamed := (forall_redirect op name).mpr ⟨hname, h.named⟩
    have happend := (forall_redirect op name).mpr ⟨hsymbol, h.append⟩
    cases op with
    | input => exact ⟨seen_add.mpr ⟨hflag, h.inputs⟩, h.outputs, hnamed, happend⟩
    | append => exact ⟨h.inputs, seen_add.mpr ⟨hflag, h.outputs⟩, hnamed, happend⟩
    | truncate => exact ⟨h.inputs, seen_add.mpr ⟨hflag, h.outputs⟩, hnamed, happend⟩

/-! ## One redirection -/

theorem At.name (h : At st.str len c ts) : cstring st.str c = some (ts.headD []) := by
  cases ts with
  | nil => exact h.cstring_nil
  | cons t ts => exact h.cstring_cons

/-- Each redirection is granted or ends the parser. -/
theorem redirectAs_spec (h : At st.str len c (t :: ts)) (hfuel : len + 1 < fuel) :
    (Granted st op (ts.headD []) → ∃ c', redirectAs op fuel len c st =
      some (.named c' (st.redirected op (ts.headD []))) ∧ At st.str len c' ts) ∧
    (¬ Granted st op (ts.headD []) →
      ∃ st', redirectAs op fuel len c st = some (.syntaxError st')) := by
  obtain ⟨c', hfind, hat⟩ := h.findNext_cons hfuel
  by_cases hflag : st.flagOf op = 0
  · obtain ⟨hgranted, hdenied⟩ := redirectAs_named st hflag hfind hat.name
    constructor
    · intro hg
      exact ⟨c', hgranted hg, hat⟩
    · intro hg
      obtain ⟨msg, hred⟩ := hdenied hg
      exact ⟨_, hred⟩
  · refine ⟨fun hg => absurd hg.1 hflag, fun _ => ?_⟩
    obtain ⟨msg, hred⟩ := redirectAs_flagged st fuel len c hflag
    exact ⟨_, hred⟩

/-! ## The loop -/

/-- What an accepted rest of the line leaves in the outputs. -/
structure Records (st : Parsed) (index : Nat) (items : List Item) (background : Bool)
    (out : Parsed) : Prop where
  str : out.str = st.str
  narg : out.narg = index + (wordsOf items).length
  kept : ∀ k < index, out.argc k = st.argc k
  args : ∀ k w, (wordsOf items)[k]? = some w → cstring out.str (out.argc (index + k)) = some w
  aflag : out.aflag = st.aflag + if background then 1 else 0
  input : (out.iflag, out.iname) =
    (inputsOf items).foldl (fun _ name => (3, name)) (st.iflag, st.iname)
  output : (out.oflag, out.oname) =
    (outputsOf items).foldl (fun _ (op, name) => (op.flag, name)) (st.oflag, st.oname)

/-- The parser accepts what is tolerated and records it, and rejects the rest. -/
def Outcome (st : Parsed) (index : Nat) (items : List Item) (background : Bool)
    (result : Option (Int × Parsed)) : Prop :=
  ∃ ret out, result = some (ret, out) ∧
    (Tolerated (seen st.iflag) (seen st.oflag) items ∧ ret = 1 ∧
        Records st index items background out ∨
      ¬ Tolerated (seen st.iflag) (seen st.oflag) items ∧ ret = -1)

variable {background : Bool} {result : Option (Int × Parsed)}

theorem Tolerated.nil (i o : Int) : Tolerated (seen i) (seen o) [] := by
  refine ⟨?_, ?_, fun op name h => absurd h List.not_mem_nil,
    fun op name h => absurd h List.not_mem_nil⟩
  · unfold seen
    split_ifs <;> decide
  · unfold seen
    split_ifs <;> decide

theorem Records.nil (hnarg : st.narg = index) : Records st index [] false st :=
  ⟨rfl, by simpa [wordsOf] using hnarg, fun _ _ => rfl, fun k w h => by simp [wordsOf] at h,
    by simp, rfl, rfl⟩

/-- A word goes to the next place of `argc`. -/
theorem Records.word (hstring : cstring st.str c = some t)
    (h : Records (st.argument index c) (index + 1) items background out) :
    Records st index (.word t :: items) background out := by
  have hhere : out.argc index = c := by
    rw [h.kept index (Nat.lt_succ_self index)]
    exact if_pos rfl
  refine ⟨h.str, ?_, fun k hk => ?_, fun k w hw => ?_, h.aflag, h.input, h.output⟩
  · have := h.narg
    simp only [wordsOf, List.filterMap_cons, Item.word?, List.length_cons] at this ⊢
    omega
  · rw [h.kept k (Nat.lt_succ_of_lt hk)]
    exact if_neg (Nat.ne_of_lt hk)
  · cases k with
    | zero =>
      have htw : t = w := by simpa [wordsOf, Item.word?] using hw
      rw [Nat.add_zero, hhere, h.str, ← htw]
      exact hstring
    | succ k =>
      have := h.args k w (by simpa [wordsOf, Item.word?] using hw)
      rwa [Nat.add_right_comm, Nat.add_assoc] at this

theorem Records.redirect {name : Token}
    (h : Records (st.redirected op name) index items background out) :
    Records st index (.redirect op name :: items) background out := by
  have hargc := h.kept
  have haflag := h.aflag
  rw [redirected_argc] at hargc
  rw [redirected_aflag] at haflag
  refine ⟨h.str.trans (redirected_str name), h.narg, hargc, h.args, haflag, ?_, ?_⟩
  · rw [h.input]
    cases op <;> rfl
  · rw [h.output]
    cases op <;> rfl

theorem Outcome.nil (hnarg : st.narg = index) : Outcome st index [] false (some (1, st)) :=
  ⟨1, st, rfl, Or.inl ⟨Tolerated.nil _ _, rfl, Records.nil hnarg⟩⟩

theorem Outcome.word (hstring : cstring st.str c = some t)
    (h : Outcome (st.argument index c) (index + 1) items background result) :
    Outcome st index (.word t :: items) background result := by
  obtain ⟨ret, out, hrun, ⟨htol, hret, hrec⟩ | ⟨htol, hret⟩⟩ := h
  · exact ⟨ret, out, hrun, Or.inl ⟨tolerated_word.mpr htol, hret, hrec.word hstring⟩⟩
  · exact ⟨ret, out, hrun, Or.inr ⟨fun ht => htol (tolerated_word.mp ht), hret⟩⟩

theorem Outcome.redirect {name : Token} (hg : Granted st op name)
    (h : Outcome (st.redirected op name) index items background result) :
    Outcome st index (.redirect op name :: items) background result := by
  obtain ⟨ret, out, hrun, ⟨htol, hret, hrec⟩ | ⟨htol, hret⟩⟩ := h
  · exact ⟨ret, out, hrun, Or.inl ⟨tolerated_redirect.mpr ⟨hg, htol⟩, hret, hrec.redirect⟩⟩
  · exact ⟨ret, out, hrun, Or.inr ⟨fun ht => htol (tolerated_redirect.mp ht).2, hret⟩⟩

theorem Outcome.denied {name : Token} (hg : ¬ Granted st op name) :
    Outcome st index (.redirect op name :: items) background (some (-1, out)) :=
  ⟨-1, out, rfl, Or.inr ⟨fun ht => hg (tolerated_redirect.mp ht).1, rfl⟩⟩

/-- A trailing `&` leaves one entry of `argc` behind that does not count. -/
theorem Outcome.ampersand (hnarg : st.narg = index + 1) (argc : Nat → Nat)
    (hargc : ∀ k < index, argc k = st.argc k) :
    Outcome st index [] true
      (some (1, { st with narg := st.narg - 1, aflag := st.aflag + 1, argc := argc })) := by
  refine ⟨1, _, rfl, Or.inl ⟨Tolerated.nil _ _, rfl, ?_⟩⟩
  exact ⟨rfl, by simp [wordsOf, hnarg], hargc, fun k w h => by simp [wordsOf] at h, rfl, rfl, rfl⟩

/-! ### One round of the loop -/

theorem parseLoop_word (n : Nat) (h : At st.str len c (t :: ts)) (hop : operator? t = none)
    (hlast : ¬ (t = ['&'] ∧ (index : Int) + 1 = st.narg)) (hfuel : len + 1 < fuel) :
    ∃ c', At (st.argument index c).str len c' ts ∧
      parseLoop fuel len (n + 1) c index st =
        parseLoop fuel len n c' (index + 1) (st.argument index c) := by
  obtain ⟨c', hfind, hat⟩ := h.findNext_cons hfuel
  obtain ⟨a, hread, ha⟩ := h.read_cons
  exact ⟨c', hat, parseLoop_next st hread ha h.cstring_cons hlast hop hfind⟩

theorem parseLoop_ampersand (n : Nat) (h : At st.str len c [['&']])
    (hnarg : (index : Int) + 1 = st.narg) (hfuel : len + 1 < fuel) :
    ∃ argc : Nat → Nat, (∀ k < index, argc k = st.argc k) ∧
      parseLoop fuel len (n + 2) c index st =
        some (1, { st with narg := st.narg - 1, aflag := st.aflag + 1, argc := argc }) := by
  obtain ⟨c', hfind, hat⟩ := h.findNext_cons hfuel
  obtain ⟨a, hread, ha⟩ := h.read_cons
  refine ⟨fun k => if k = index then c' else st.argc k, fun k hk => if_neg (Nat.ne_of_lt hk), ?_⟩
  rw [parseLoop_last st hread ha h.cstring_cons hnarg hfind, Option.bind_some]
  exact parseToken_end st.background hat (Nat.zero_lt_of_lt hfuel)

theorem parseLoop_denied (n index : Nat) (h : At st.str len c (t :: ts))
    (hop : operator? t = some op) (hdeny : ¬ Granted st op (ts.headD [])) (hfuel : len + 1 < fuel) :
    ∃ out, parseLoop fuel len (n + 1) c index st = some (-1, out) := by
  obtain ⟨out, hredirect⟩ := (redirectAs_spec h hfuel).2 hdeny
  obtain ⟨a, hread, ha⟩ := h.read_cons
  refine ⟨out, ?_⟩
  rw [parseLoop_operator st hread ha h.cstring_cons hop, hredirect]
  rfl

theorem parseLoop_granted (n index : Nat) (h : At st.str len c (t :: u :: ts))
    (hop : operator? t = some op) (hg : Granted st op u) (hfuel : len + 1 < fuel) :
    ∃ c', At (st.redirected op u).str len c' ts ∧
      parseLoop fuel len (n + 1) c index st =
        parseLoop fuel len n c' index (st.redirected op u) := by
  obtain ⟨c1, hredirect, hat⟩ := (redirectAs_spec h hfuel).1 hg
  obtain ⟨c', hfind, hat'⟩ := hat.findNext_cons hfuel
  obtain ⟨a, hread, ha⟩ := h.read_cons
  refine ⟨c', by rwa [redirected_str], ?_⟩
  rw [parseLoop_operator st hread ha h.cstring_cons hop, hredirect, List.headD_cons,
    Option.bind_some, afterRedirect, redirected_str, hfind, Option.bind_some]

/-- The loop does what the scan says. -/
theorem parseLoop_spec (n index : Nat) (ts : List Token) (hat : At st.str len c ts)
    (hnarg : st.narg = index + ts.length) (hfuel : len + 1 < fuel) (hn : ts.length < n) :
    Outcome st index (scan ts).1 (scan ts).2 (parseLoop fuel len n c index st) := by
  obtain ⟨n, rfl⟩ : ∃ m, n = m + 1 := ⟨n - 1, by omega⟩
  fun_induction scan ts generalizing st c index n with
  | case1 =>
    rw [parseLoop_done hat]
    exact Outcome.nil (by simpa using hnarg)
  | case2 t op hop =>
    have hdeny : ¬ Granted st op [] := fun hg => hg.2.1 rfl
    obtain ⟨out, hrun⟩ := parseLoop_denied n index hat hop hdeny hfuel
    rw [hrun]
    exact Outcome.denied hdeny
  | case3 hop =>
    obtain ⟨m, rfl⟩ : ∃ m, n = m + 1 := ⟨n - 1, by simp at hn; omega⟩
    have hlast : st.narg = index + 1 := by simpa using hnarg
    obtain ⟨argc, hargc, hrun⟩ := parseLoop_ampersand m hat hlast.symm hfuel
    rw [hrun]
    exact Outcome.ampersand hlast argc hargc
  | case4 t hop hamp =>
    obtain ⟨m, rfl⟩ : ∃ m, n = m + 1 := ⟨n - 1, by simp at hn; omega⟩
    obtain ⟨c', hat', hrun⟩ :=
      parseLoop_word (m + 1) hat hop (fun hl => hamp hl.1) hfuel
    rw [hrun, parseLoop_done hat']
    exact Outcome.word hat.cstring_cons (Outcome.nil (by simpa [Parsed.argument] using hnarg))
  | case5 t u ts op hop ih =>
    by_cases hg : Granted st op u
    · obtain ⟨c', hat', hrun⟩ := parseLoop_granted n index hat hop hg hfuel
      obtain ⟨m, rfl⟩ : ∃ m, n = m + 1 := ⟨n - 1, by simp at hn; omega⟩
      rw [hrun]
      refine Outcome.redirect hg (ih _ hat' ?_ m ?_)
      · rw [redirected_narg, hnarg]
        simp
        omega
      · simp at hn
        omega
    · obtain ⟨out, hrun⟩ := parseLoop_denied n index hat hop hg hfuel
      rw [hrun]
      exact Outcome.denied hg
  | case6 t u ts hop ih =>
    have hlast : ¬ (t = ['&'] ∧ (index : Int) + 1 = st.narg) := fun hl => by
      have := hl.2.trans hnarg
      simp at this
      omega
    obtain ⟨c', hat', hrun⟩ := parseLoop_word n hat hop hlast hfuel
    obtain ⟨m, rfl⟩ : ∃ m, n = m + 1 := ⟨n - 1, by simp at hn; omega⟩
    rw [hrun]
    refine Outcome.word hat.cstring_cons (ih _ hat' ?_ m ?_)
    · have := hnarg
      simp only [Parsed.argument, List.length_cons] at this ⊢
      omega
    · simp at hn ⊢
      omega

end CourseProjects.Shell

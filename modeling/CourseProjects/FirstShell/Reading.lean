import CourseProjects.FirstShell.Parse

/-!
# What the first shell reads

`parse` accepts a line with a token, at most one redirection in each direction
and a name behind each operator. Where both shells accept a line they read the
same from it, unless it ends with `&`.
-/

namespace CourseProjects.FirstShell

open Shell Text

variable {len c fuel index : Nat} {st out : Parsed} {t u name : Token} {ts : List Token}
  {op : Operator} {items : List Item} {line : List Char} {result : Option (Int × Parsed)}

/-! ## One round of the loop -/

theorem parseLoop_done (h : At st.str len c []) (n : Nat) :
    parseLoop fuel len (n + 1) c index st = some (1, st) := by
  rw [parseLoop, h.read_nil]
  rfl

theorem parseLoop_word (n index : Nat) (h : At st.str len c (t :: ts)) (hop : operator? t = none)
    (hfuel : len + 1 < fuel) :
    ∃ c', At (st.argument index c).str len c' ts ∧
      parseLoop fuel len (n + 1) c index st =
        parseLoop fuel len n c' (index + 1) (st.argument index c) := by
  obtain ⟨c', hfind, hat⟩ := h.findNext_cons hfuel
  obtain ⟨a, hread, ha⟩ := h.read_cons
  refine ⟨c', hat, ?_⟩
  rw [parseLoop, hread]
  simp only [Option.bind_eq_bind, Option.bind_some, if_neg ha, redirect_word h.cstring_cons hop,
    hfind]
  rfl

/-- What a redirection leads to. -/
def afterRedirect (fuel len n index : Nat) : Redirected → Option (Int × Parsed)
  | .syntaxError st => some (-1, st)
  | .named c st => (findNext fuel st.str c len).bind fun c => parseLoop fuel len n c index st

theorem parseLoop_operator (n : Nat) (h : At st.str len c (t :: ts)) (hop : operator? t = some op) :
    parseLoop fuel len (n + 1) c index st =
      (redirectAs op fuel len c st).bind (afterRedirect fuel len n index) := by
  obtain ⟨a, hread, ha⟩ := h.read_cons
  have hstring : cstring st.str c = some op.text := by
    rw [h.cstring_cons, text_of_operator? hop]
  rw [parseLoop, hread]
  simp only [Option.bind_eq_bind, Option.bind_some, if_neg ha, redirect_eq hstring]
  cases redirectAs op fuel len c st with
  | none => rfl
  | some red => cases red <;> rfl

theorem parseLoop_denied (n index : Nat) (h : At st.str len c (t :: ts))
    (hop : operator? t = some op) (hdeny : ¬ Granted st op (ts.headD [])) (hfuel : len + 1 < fuel) :
    ∃ out, parseLoop fuel len (n + 1) c index st = some (-1, out) := by
  obtain ⟨out, hredirect⟩ := (redirectAs_spec h hfuel).2 hdeny
  refine ⟨out, ?_⟩
  rw [parseLoop_operator n h hop, hredirect]
  rfl

theorem parseLoop_granted (n index : Nat) (h : At st.str len c (t :: u :: ts))
    (hop : operator? t = some op) (hg : Granted st op u) (hfuel : len + 1 < fuel) :
    ∃ c', At (st.redirected op u).str len c' ts ∧
      parseLoop fuel len (n + 1) c index st =
        parseLoop fuel len n c' index (st.redirected op u) := by
  obtain ⟨c1, hredirect, hat⟩ := (redirectAs_spec h hfuel).1 hg
  obtain ⟨c', hfind, hat'⟩ := hat.findNext_cons hfuel
  refine ⟨c', by rwa [redirected_str], ?_⟩
  rw [parseLoop_operator n h hop, hredirect, List.headD_cons, Option.bind_some, afterRedirect,
    redirected_str, hfind, Option.bind_some]

/-! ## The loop -/

/-- The parser accepts what is allowed and records it, and rejects the rest. -/
def Outcome (st : Parsed) (index : Nat) (items : List Item) (result : Option (Int × Parsed)) :
    Prop :=
  ∃ ret out, result = some (ret, out) ∧
    (Allowed (seen st.iflag) (seen st.oflag) items ∧ ret = 1 ∧ Records st index items false out ∨
      ¬ Allowed (seen st.iflag) (seen st.oflag) items ∧ ret = -1)

theorem Outcome.nil (hnarg : st.narg = index) : Outcome st index [] (some (1, st)) := by
  have htol := Tolerated.nil st.iflag st.oflag
  exact ⟨1, st, rfl, Or.inl ⟨⟨htol.inputs, htol.outputs, htol.named⟩, rfl, Records.nil hnarg⟩⟩

theorem Outcome.word (hstring : cstring st.str c = some t)
    (h : Outcome (st.argument index c) (index + 1) items result) :
    Outcome st index (.word t :: items) result := by
  obtain ⟨ret, out, hrun, ⟨hall, hret, hrec⟩ | ⟨hall, hret⟩⟩ := h
  · exact ⟨ret, out, hrun, Or.inl ⟨allowed_word.mpr hall, hret, hrec.word hstring⟩⟩
  · exact ⟨ret, out, hrun, Or.inr ⟨fun ha => hall (allowed_word.mp ha), hret⟩⟩

theorem Outcome.redirect (hg : Granted st op name)
    (h : Outcome (st.redirected op name) index items result) :
    Outcome st index (.redirect op name :: items) result := by
  obtain ⟨ret, out, hrun, ⟨hall, hret, hrec⟩ | ⟨hall, hret⟩⟩ := h
  · exact ⟨ret, out, hrun, Or.inl ⟨allowed_redirect.mpr ⟨hg, hall⟩, hret, hrec.redirect⟩⟩
  · exact ⟨ret, out, hrun, Or.inr ⟨fun ha => hall (allowed_redirect.mp ha).2, hret⟩⟩

theorem Outcome.denied (hg : ¬ Granted st op name) :
    Outcome st index (.redirect op name :: items) (some (-1, out)) :=
  ⟨-1, out, rfl, Or.inr ⟨fun ha => hg (allowed_redirect.mp ha).1, rfl⟩⟩

/-- The loop finds the items of its tokens; `narg` counts the tokens ahead. -/
theorem parseLoop_spec (n index : Nat) (ts : List Token) (hat : At st.str len c ts)
    (hnarg : st.narg = index + ts.length) (hfuel : len + 1 < fuel) (hn : ts.length < n) :
    Outcome st index (itemsOf ts) (parseLoop fuel len n c index st) := by
  obtain ⟨n, rfl⟩ : ∃ m, n = m + 1 := ⟨n - 1, by omega⟩
  fun_induction itemsOf ts generalizing st c index n with
  | case1 =>
    rw [parseLoop_done hat]
    exact Outcome.nil (by simpa using hnarg)
  | case2 t op hop =>
    have hdeny : ¬ Granted st op [] := fun hg => hg.2 rfl
    obtain ⟨out, hrun⟩ := parseLoop_denied n index hat hop hdeny hfuel
    rw [hrun]
    exact Outcome.denied hdeny
  | case3 t hop =>
    obtain ⟨m, rfl⟩ : ∃ m, n = m + 1 := ⟨n - 1, by simp at hn; omega⟩
    obtain ⟨c', hat', hrun⟩ := parseLoop_word (m + 1) index hat hop hfuel
    rw [hrun, parseLoop_done hat']
    exact Outcome.word hat.cstring_cons (Outcome.nil (by simpa [Parsed.argument] using hnarg))
  | case4 t u ts op hop ih =>
    by_cases hg : Granted st op u
    · obtain ⟨c', hat', hrun⟩ := parseLoop_granted n index hat hop hg hfuel
      obtain ⟨m, rfl⟩ : ∃ m, n = m + 1 := ⟨n - 1, by simp at hn; omega⟩
      rw [hrun]
      refine Outcome.redirect hg (ih _ hat' ?_ m ?_)
      · rw [redirected_narg, hnarg]
        simp
        omega
      · simp at hn
        omega
    · obtain ⟨out, hrun⟩ := parseLoop_denied n index hat hop hg hfuel
      rw [hrun]
      exact Outcome.denied hg
  | case5 t u ts hop ih =>
    obtain ⟨c', hat', hrun⟩ := parseLoop_word n index hat hop hfuel
    obtain ⟨m, rfl⟩ : ∃ m, n = m + 1 := ⟨n - 1, by simp at hn; omega⟩
    rw [hrun]
    refine Outcome.word hat.cstring_cons (ih _ hat' ?_ m ?_)
    · have := hnarg
      simp only [Parsed.argument, List.length_cons] at this ⊢
      omega
    · simp at hn ⊢
      omega

/-- `parse` returns, and what it returns. -/
theorem parse_spec (rest iname oname : List Char) (argc : Nat → Nat) (hline : nul ∉ line)
    (hfuel : line.length + 1 < fuel) :
    ∃ ret out, callParse fuel (line ++ nul :: nul :: rest) iname oname argc = some (ret, out) ∧
      (tokens line ≠ [] ∧ Allowed 0 0 (itemsOf (tokens line)) ∧ ret = 1 ∧
          Reads (itemsOf (tokens line)) false out ∨
        ¬ (tokens line ≠ [] ∧ Allowed 0 0 (itemsOf (tokens line))) ∧ ret = -1) := by
  let start : Parsed := ⟨line ++ nul :: nul :: rest, iname, oname, 0, 0, 0, 0, argc, none⟩
  obtain ⟨str, c, hloop, hskip, hat⟩ := start_spec start hline rfl hfuel
  let st := start.counted str (tokens line).length
  have hnarg : st.narg = (tokens line).length := Int.zero_add _
  by_cases hts : tokens line = []
  · refine ⟨-1, st, ?_, Or.inr ⟨fun h => h.1 hts, rfl⟩⟩
    have hzero : st.narg = 0 := by rw [hnarg, hts]; rfl
    rw [callParse, parse, hloop, Option.bind_eq_bind, Option.bind_some]
    exact if_pos hzero
  · have hcount : st.narg ≠ 0 := by
      rw [hnarg]
      simpa using hts
    have hlen : c + (tokens line).length ≤ line.length + 1 := Strings.length_le hat
    have hstart : At st.str line.length c (tokens line) := hat
    obtain ⟨ret, out, hrun, hcase⟩ := parseLoop_spec fuel 0 (tokens line) hstart
      (by simp [hnarg]) hfuel (by omega)
    refine ⟨ret, out, ?_, ?_⟩
    · rw [callParse, parse, hloop, Option.bind_eq_bind, Option.bind_some]
      refine (if_neg hcount).trans ?_
      rw [← hrun]
      exact congrArg (fun o => o.bind fun c => parseLoop fuel line.length fuel c 0 st) hskip
    · rcases hcase with ⟨hall, hret, hrec⟩ | ⟨hall, hret⟩
      · exact Or.inl ⟨hts, hall, hret, hrec.reads hall.inputs hall.outputs rfl rfl rfl⟩
      · exact Or.inr ⟨fun h => hall h.2, hret⟩

/-! ## Readings -/

/-- What the shells take from the outputs of their parsers. -/
structure Reading where
  words : List Token
  input : Option Token
  output : Option (Int × Token)
  background : Bool
  deriving DecidableEq

/-- The first strings that `argc` points at. -/
def arguments (out : Parsed) : Nat → Option (List Token)
  | 0 => some []
  | n + 1 => do
    let argv ← arguments out n
    let arg ← cstring out.str (out.argc n)
    return argv ++ [arg]

def readingOf (out : Parsed) : Option Reading := do
  let words ← arguments out out.narg.toNat
  return ⟨words, if out.iflag = 0 then none else some out.iname,
    if out.oflag = 0 then none else some (out.oflag, out.oname), out.aflag ≠ 0⟩

/-- A rejected line has no reading. -/
def reads : Option (Int × Parsed) → Option (Option Reading)
  | none => none
  | some (ret, out) => if ret = -1 then some none else some <$> readingOf out

def Reading.ofItems (items : List Item) (background : Bool) : Reading :=
  ⟨wordsOf items, (inputsOf items).head?,
    (outputsOf items).head?.map fun (op, name) => (op.flag, name), background⟩

theorem arguments_eq {words : List Token} {n : Nat} (hn : n ≤ words.length)
    (h : ∀ k w, words[k]? = some w → cstring out.str (out.argc k) = some w) :
    arguments out n = some (words.take n) := by
  induction n with
  | zero => rfl
  | succ n ih =>
    have hword : words[n]? = some words[n] := List.getElem?_eq_getElem hn
    have hrest := ih (Nat.le_of_succ_le hn)
    rw [arguments, hrest, List.take_add_one, hword]
    simp [h n _ hword]

theorem readingOf_reads {background : Bool} (h : Reads items background out) :
    readingOf out = some (Reading.ofItems items background) := by
  have hwords : arguments out out.narg.toNat = some (wordsOf items) := by
    rw [h.narg, Int.toNat_natCast, arguments_eq (Nat.le_refl _) h.args, List.take_length]
  have hback : decide (out.aflag ≠ 0) = background := by
    rw [h.aflag]
    cases background <;> rfl
  have hin : (if out.iflag = 0 then none else some out.iname) = (inputsOf items).head? := by
    rcases h.input with ⟨hnil, hflag⟩ | ⟨name, hone, hflag, hname⟩
    · rw [if_pos hflag, hnil]
      rfl
    · rw [if_neg (by rw [hflag]; decide), hone, hname]
      rfl
  have hout : (if out.oflag = 0 then none else some (out.oflag, out.oname)) =
      (outputsOf items).head?.map fun (op, name) => (op.flag, name) := by
    rcases h.output with ⟨hnil, hflag⟩ | ⟨op, name, hone, hflag, hname⟩
    · rw [if_pos hflag, hnil]
      rfl
    · have hne : out.oflag ≠ 0 := by
        rw [hflag]
        cases op <;> decide
      rw [if_neg hne, hone, hname, hflag]
      rfl
  rw [readingOf, hwords, hin, hout, hback]
  rfl

theorem reads_accepted {background : Bool} (h : Reads items background out) :
    reads (some (1, out)) = some (some (Reading.ofItems items background)) := by
  rw [reads, if_neg (by decide), readingOf_reads h]
  rfl

/-- The parser reads from a line what its items say, and rejects the line if they are
not allowed. -/
theorem parse_reads (line rest iname oname : List Char) (argc : Nat → Nat) (hline : nul ∉ line)
    (fuel : Nat) (hfuel : line.length + 1 < fuel) :
    (tokens line ≠ [] ∧ Allowed 0 0 (itemsOf (tokens line)) →
      reads (callParse fuel (line ++ nul :: nul :: rest) iname oname argc) =
        some (some (Reading.ofItems (itemsOf (tokens line)) false))) ∧
    (¬ (tokens line ≠ [] ∧ Allowed 0 0 (itemsOf (tokens line))) →
      reads (callParse fuel (line ++ nul :: nul :: rest) iname oname argc) = some none) := by
  obtain ⟨ret, out, hrun, ⟨hts, hall, rfl, hreads⟩ | ⟨hfault, rfl⟩⟩ :=
    parse_spec rest iname oname argc hline hfuel
  · rw [hrun, reads_accepted hreads]
    exact ⟨fun _ => rfl, fun hf => absurd ⟨hts, hall⟩ hf⟩
  · rw [hrun]
    exact ⟨fun h => absurd h hfault, fun _ => rfl⟩

/-- `&` is a word, and `>>` may be followed by an operator. -/
theorem sort_reads :
    (tokens "sort >> > &\n".toList ≠ [] ∧ Allowed 0 0 (itemsOf (tokens "sort >> > &\n".toList)) →
      reads (callParse 20 ("sort >> > &\n".toList ++ nul :: nul :: []) [] [] id) =
        some (some (Reading.ofItems (itemsOf (tokens "sort >> > &\n".toList)) false))) ∧
    (¬ (tokens "sort >> > &\n".toList ≠ [] ∧
        Allowed 0 0 (itemsOf (tokens "sort >> > &\n".toList))) →
      reads (callParse 20 ("sort >> > &\n".toList ++ nul :: nul :: []) [] [] id) = some none) :=
  parse_reads "sort >> > &\n".toList [] [] [] id (by decide) 20 (by decide)

/-! ## The two shells -/

/-- A last `&` is no redirection. -/
theorem allowed_itemsOf (ts : List Token) :
    Allowed 0 0 (itemsOf ts) ↔ Allowed 0 0 (scan ts).1 := by
  have hins : inputsOf (itemsOf ts) = inputsOf (scan ts).1 := by
    rw [itemsOf_eq]
    cases (scan ts).2 <;> simp [inputsOf, Item.input?]
  have houts : outputsOf (itemsOf ts) = outputsOf (scan ts).1 := by
    rw [itemsOf_eq]
    cases (scan ts).2 <;> simp [outputsOf, Item.output?]
  have hitems : ∀ op name, Item.redirect op name ∈ itemsOf ts ↔
      Item.redirect op name ∈ (scan ts).1 := fun op name => by
    rw [itemsOf_eq]
    cases (scan ts).2 <;> simp
  constructor
  · intro h
    exact ⟨hins ▸ h.inputs, houts ▸ h.outputs,
      fun op name hm => h.named op name ((hitems op name).mpr hm)⟩
  · intro h
    exact ⟨hins ▸ h.inputs, houts ▸ h.outputs,
      fun op name hm => h.named op name ((hitems op name).mp hm)⟩

/-- No `>>` is followed by an operator. -/
def PlainAppend (ts : List Token) : Prop :=
  ∀ name, Item.redirect .append name ∈ (scan ts).1 → operator? name = none

theorem tolerated_iff (ts : List Token) :
    Tolerated 0 0 (scan ts).1 ↔ Allowed 0 0 (itemsOf ts) ∧ PlainAppend ts := by
  rw [allowed_itemsOf]
  constructor
  · intro h
    exact ⟨⟨h.inputs, h.outputs, h.named⟩, fun name hm => h.append .append name hm rfl⟩
  · rintro ⟨h, happend⟩
    refine ⟨h.inputs, h.outputs, h.named, fun op name hm hop => ?_⟩
    subst hop
    exact happend name hm

/-- Both shells read the same from a line exactly when it is rejected by both or has no `&`
at its end and no operator behind `>>`. -/
theorem readings_agree_iff (line rest iname oname : List Char) (argc : Nat → Nat)
    (hline : nul ∉ line) (fuel : Nat) (hfuel : line.length + 1 < fuel) :
    reads (callParse fuel (line ++ nul :: nul :: rest) iname oname argc) =
        reads (Shell.callParse fuel (line ++ nul :: nul :: rest) iname oname argc) ↔
      ¬ (tokens line ≠ [] ∧ Allowed 0 0 (itemsOf (tokens line))) ∨
        (scan (tokens line)).2 = false ∧ PlainAppend (tokens line) := by
  obtain ⟨ret₁, out₁, hrun₁, hcase₁⟩ := parse_spec rest iname oname argc hline hfuel
  obtain ⟨ret₂, out₂, hrun₂, hcase₂⟩ := Shell.parse_spec rest iname oname argc hline hfuel
  rw [hrun₁, hrun₂]
  rcases hcase₁ with ⟨hts, hall, rfl, hreads₁⟩ | ⟨hfault₁, rfl⟩
  · have hacc : tokens line ≠ [] ∧ Allowed 0 0 (itemsOf (tokens line)) := ⟨hts, hall⟩
    rw [reads_accepted hreads₁]
    rcases hcase₂ with ⟨-, htol, rfl, hreads₂⟩ | ⟨hfault₂, rfl⟩
    · have happend := ((tolerated_iff _).mp htol).2
      have hitems := itemsOf_eq (tokens line)
      rw [reads_accepted hreads₂]
      cases hback : (scan (tokens line)).2 with
      | false =>
        have hsame : itemsOf (tokens line) = (scan (tokens line)).1 := by simpa [hback] using hitems
        rw [hsame]
        exact ⟨fun _ => Or.inr ⟨rfl, happend⟩, fun _ => rfl⟩
      | true =>
        refine ⟨fun h => ?_, fun h => ?_⟩
        · simp [Reading.ofItems] at h
        · rcases h with h | h
          · exact absurd hacc h
          · cases h.1
    · refine ⟨fun h => (by cases h), fun h => ?_⟩
      have hplain := (h.resolve_left (not_not_intro hacc)).2
      rcases hfault₂ with hnil | htol
      · exact absurd hnil hts
      · exact absurd ((tolerated_iff _).mpr ⟨hall, hplain⟩) htol
  · refine ⟨fun _ => Or.inl hfault₁, fun _ => ?_⟩
    rcases hcase₂ with ⟨hts, htol, -, -⟩ | ⟨-, rfl⟩
    · exact absurd ⟨hts, ((tolerated_iff _).mp htol).1⟩ hfault₁
    · rfl

theorem cat_readings_agree :
    reads (callParse 20 ("cat < a >> b\n".toList ++ nul :: nul :: []) [] [] id) =
        reads (Shell.callParse 20 ("cat < a >> b\n".toList ++ nul :: nul :: []) [] [] id) ↔
      ¬ (tokens "cat < a >> b\n".toList ≠ [] ∧
          Allowed 0 0 (itemsOf (tokens "cat < a >> b\n".toList))) ∨
        (scan (tokens "cat < a >> b\n".toList)).2 = false ∧
          PlainAppend (tokens "cat < a >> b\n".toList) :=
  readings_agree_iff "cat < a >> b\n".toList [] [] [] id (by decide) 20 (by decide)

end CourseProjects.FirstShell

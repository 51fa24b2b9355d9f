import CourseProjects.Shell.Outcome

/-!
# Accepted lines

`parse` accepts every valid command. It also accepts lines without a word, and
lines in which `>` or `<` has an operator for its file name.
-/

namespace CourseProjects.Shell

open Text

/-- The tokens of a line are its words between white space. -/
def tokens (line : List Char) : List Token :=
  words isspace line

/-- The outputs are those of the scan. -/
structure Reads (items : List Item) (background : Bool) (out : Parsed) : Prop where
  narg : out.narg = (wordsOf items).length
  args : ∀ k w, (wordsOf items)[k]? = some w → cstring out.str (out.argc k) = some w
  aflag : out.aflag = if background then 1 else 0
  input : inputsOf items = [] ∧ out.iflag = 0 ∨
    ∃ name, inputsOf items = [name] ∧ out.iflag = 3 ∧ out.iname = name
  output : outputsOf items = [] ∧ out.oflag = 0 ∨
    ∃ op name, outputsOf items = [(op, name)] ∧ out.oflag = op.flag ∧ out.oname = name

/-- The lines on which `parse` is right: the plain ones, and those whose fault
is one that it tests for. -/
def Judged (ts : List Token) : Prop :=
  ts = [] ∨ ¬ Tolerated 0 0 (scan ts).1 ∨ Plain (scan ts).1

variable {line : List Char} {fuel : Nat}

theorem tokens_ne_nil {t : Token} (h : t ∈ tokens line) : t ≠ [] :=
  ne_nil_of_mem_words h

theorem length_le_one {α : Type} {l : List α} (h : 0 + l.length ≤ 1) : l = [] ∨ ∃ a, l = [a] := by
  rcases l with _ | ⟨a, _ | ⟨b, l⟩⟩
  · exact Or.inl rfl
  · exact Or.inr ⟨a, rfl⟩
  · simp at h

theorem Records.reads {st out : Parsed} {items : List Item} {background : Bool}
    (h : Records st 0 items background out) (hins : 0 + (inputsOf items).length ≤ 1)
    (houts : 0 + (outputsOf items).length ≤ 1) (haflag : st.aflag = 0) (hiflag : st.iflag = 0)
    (hoflag : st.oflag = 0) : Reads items background out := by
  refine ⟨by simpa using h.narg, fun k w hw => ?_, by simpa [haflag] using h.aflag, ?_, ?_⟩
  · simpa using h.args k w hw
  · have hin := h.input
    rcases length_le_one hins with hnil | ⟨name, hone⟩
    · rw [hnil, List.foldl_nil] at hin
      exact Or.inl ⟨hnil, (congrArg Prod.fst hin).trans hiflag⟩
    · rw [hone, List.foldl_cons, List.foldl_nil] at hin
      exact Or.inr ⟨name, hone, congrArg Prod.fst hin, congrArg Prod.snd hin⟩
  · have hout := h.output
    rcases length_le_one houts with hnil | ⟨⟨op, name⟩, hone⟩
    · rw [hnil, List.foldl_nil] at hout
      exact Or.inl ⟨hnil, (congrArg Prod.fst hout).trans hoflag⟩
    · rw [hone, List.foldl_cons, List.foldl_nil] at hout
      exact Or.inr ⟨op, name, hone, congrArg Prod.fst hout, congrArg Prod.snd hout⟩

/-- `parse` returns, and what it returns. -/
theorem parse_spec (rest iname oname : List Char) (argc : Nat → Nat) (hline : nul ∉ line)
    (hfuel : line.length + 1 < fuel) :
    ∃ ret out, callParse fuel (line ++ nul :: nul :: rest) iname oname argc = some (ret, out) ∧
      (tokens line ≠ [] ∧ Tolerated 0 0 (scan (tokens line)).1 ∧ ret = 1 ∧
          Reads (scan (tokens line)).1 (scan (tokens line)).2 out ∨
        (tokens line = [] ∨ ¬ Tolerated 0 0 (scan (tokens line)).1) ∧ ret = -1) := by
  let start : Parsed := ⟨line ++ nul :: nul :: rest, iname, oname, 0, 0, 0, 0, argc, none⟩
  obtain ⟨str, c, hloop, hskip, hat⟩ := start_spec start hline rfl hfuel
  let st := start.counted str (tokens line).length
  have hnarg : st.narg = (tokens line).length := Int.zero_add _
  by_cases hts : tokens line = []
  · refine ⟨-1, st, ?_, Or.inr ⟨Or.inl hts, rfl⟩⟩
    have hzero : st.narg = 0 := by rw [hnarg, hts]; rfl
    rw [callParse, parse, hloop, Option.bind_eq_bind, Option.bind_some]
    exact if_pos hzero
  · have hcount : st.narg ≠ 0 := by
      rw [hnarg]
      simpa using hts
    have hlen : c + (tokens line).length ≤ line.length + 1 := Strings.length_le hat
    have hstart : At st.str line.length c (tokens line) := hat
    obtain ⟨ret, out, hrun, hcase⟩ := parseLoop_spec fuel 0 (tokens line) hstart
      (by simp [hnarg]) hfuel (by omega)
    refine ⟨ret, out, ?_, ?_⟩
    · rw [callParse, parse, hloop, Option.bind_eq_bind, Option.bind_some]
      refine (if_neg hcount).trans ?_
      rw [← hrun]
      exact congrArg (fun o => o.bind fun c => parseLoop fuel line.length fuel c 0 st) hskip
    · rcases hcase with ⟨htol, hret, hrec⟩ | ⟨htol, hret⟩
      · exact Or.inl ⟨hts, htol, hret, hrec.reads htol.inputs htol.outputs rfl rfl rfl⟩
      · exact Or.inr ⟨Or.inr htol, hret⟩

/-! ## Acceptance -/

/-- `parse` returns 1 for the valid commands and -1 for the other lines exactly
when the line is blank, has a fault that `parse` tests for, or is plain. -/
theorem parse_accepts_valid_iff (line rest iname oname : List Char) (argc : Nat → Nat)
    (hline : nul ∉ line) (fuel : Nat) (hfuel : line.length + 1 < fuel) :
    (∃ ret out, callParse fuel (line ++ nul :: nul :: rest) iname oname argc = some (ret, out) ∧
      (Valid (tokens line) ∧ ret = 1 ∨ ¬ Valid (tokens line) ∧ ret = -1)) ↔
    Judged (tokens line) := by
  have hvalid : Valid (tokens line) ↔
      Tolerated 0 0 (scan (tokens line)).1 ∧ Plain (scan (tokens line)).1 :=
    valid_iff fun t ht => tokens_ne_nil ht
  have hblank : tokens line = [] → ¬ Valid (tokens line) := fun h hv =>
    (hvalid.mp hv).2.words (by rw [h]; rfl)
  obtain ⟨ret, out, hrun, hcase⟩ := parse_spec rest iname oname argc hline hfuel
  constructor
  · rintro ⟨ret', out', hrun', hclaim⟩
    cases hrun.symm.trans hrun'
    rcases hcase with ⟨-, -, hret, -⟩ | ⟨hfault, -⟩
    · rcases hclaim with ⟨hv, -⟩ | ⟨-, hret'⟩
      · exact Or.inr (Or.inr (hvalid.mp hv).2)
      · exact absurd (hret.symm.trans hret') (by decide)
    · exact hfault.imp_right Or.inl
  · intro hj
    refine ⟨ret, out, hrun, ?_⟩
    rcases hcase with ⟨hts, htol, hret, -⟩ | ⟨hfault, hret⟩
    · have hplain := (hj.resolve_left hts).resolve_left (not_not_intro htol)
      exact Or.inl ⟨hvalid.mpr ⟨htol, hplain⟩, hret⟩
    · refine Or.inr ⟨?_, hret⟩
      rcases hfault with hnil | htol
      · exact hblank hnil
      · exact fun hv => htol (hvalid.mp hv).1

/-- A command with both redirections in the background. -/
theorem cat_accepts_valid_iff :
    (∃ ret out, callParse 20 ("cat < a >> b &\n".toList ++ nul :: nul :: []) [] [] id =
        some (ret, out) ∧
      (Valid (tokens "cat < a >> b &\n".toList) ∧ ret = 1 ∨
        ¬ Valid (tokens "cat < a >> b &\n".toList) ∧ ret = -1)) ↔
    Judged (tokens "cat < a >> b &\n".toList) :=
  parse_accepts_valid_iff "cat < a >> b &\n".toList [] [] [] id (by decide) 20 (by decide)

/-- A redirection without a word is no command, and it is accepted. -/
theorem lone_redirection_accepted :
    ¬ ∃ ret out, callParse 20 ("> f\n".toList ++ nul :: nul :: []) [] [] id = some (ret, out) ∧
      (Valid (tokens "> f\n".toList) ∧ ret = 1 ∨
        ¬ Valid (tokens "> f\n".toList) ∧ ret = -1) := by
  rintro ⟨ret, out, hrun, hclaim⟩
  have hret : (callParse 20 ("> f\n".toList ++ nul :: nul :: []) [] [] id).map Prod.fst =
      some 1 := by
    decide +kernel
  rw [hrun] at hret
  rcases hclaim with ⟨hv, -⟩ | ⟨-, hret'⟩
  · exact ((valid_iff fun t ht => tokens_ne_nil ht).mp hv).2.words (by decide +kernel)
  · subst hret'
    exact absurd (Option.some.inj hret : (-1 : Int) = 1) (by decide)

/-! ## Outputs -/

/-- On the lines that `parse` accepts, its outputs are those of the scan. -/
theorem parse_outputs (line rest iname oname : List Char) (argc : Nat → Nat) (hline : nul ∉ line)
    (fuel : Nat) (hfuel : line.length + 1 < fuel) (out : Parsed)
    (hrun : callParse fuel (line ++ nul :: nul :: rest) iname oname argc = some (1, out)) :
    Reads (scan (tokens line)).1 (scan (tokens line)).2 out := by
  obtain ⟨ret, out', hrun', hcase⟩ := parse_spec rest iname oname argc hline hfuel
  cases hrun.symm.trans hrun'
  rcases hcase with ⟨-, -, -, hreads⟩ | ⟨-, hret⟩
  · exact hreads
  · exact absurd hret (by decide)

theorem cat_outputs :
    ∃ out, callParse 20 ("cat < a >> b &\n".toList ++ nul :: nul :: []) [] [] id =
        some (1, out) ∧
      Reads (scan (tokens "cat < a >> b &\n".toList)).1
        (scan (tokens "cat < a >> b &\n".toList)).2 out := by
  have hret : (callParse 20 ("cat < a >> b &\n".toList ++ nul :: nul :: []) [] [] id).map
      Prod.fst = some 1 := by
    decide +kernel
  obtain ⟨⟨ret, out⟩, hrun, rfl⟩ := Option.map_eq_some_iff.mp hret
  exact ⟨out, hrun, parse_outputs "cat < a >> b &\n".toList [] [] [] id (by decide) 20 (by decide)
    out hrun⟩

end CourseProjects.Shell

import CourseProjects.Shell.Buffer
import CourseProjects.Shell.Command

/-!
# One round of the parser

What the loop of `parse` does at one token, on any buffer: at a word, at an operator
with its file name, and at a last `&`.
-/

namespace CourseProjects.Shell

open Text

variable {len c c' fuel n index : Nat} {st : Parsed} {t name : Token} {op : Operator}

/-! ## The states after a round -/

def Operator.flag : Operator → Int
  | .append => 2
  | .truncate => 1
  | .input => 3

/-- The state after a redirection. -/
def Parsed.redirected (st : Parsed) (op : Operator) (name : Token) : Parsed :=
  match op with
  | .input => { st with iflag := op.flag, iname := name, narg := st.narg - 2 }
  | _ => { st with oflag := op.flag, oname := name, narg := st.narg - 2 }

/-- The state after a word at `c`. -/
def Parsed.argument (st : Parsed) (index c : Nat) : Parsed :=
  { st with argc := fun k => if k = index then c else st.argc k }

/-- The state behind a last `&`. -/
def Parsed.background (st : Parsed) : Parsed :=
  { st with narg := st.narg - 1, aflag := st.aflag + 1 }

/-- The flag that a redirection has to find unset. -/
def Parsed.flagOf (st : Parsed) : Operator → Int
  | .input => st.iflag
  | _ => st.oflag

/-- What `parse` asks of a redirection. -/
def Granted (st : Parsed) (op : Operator) (name : Token) : Prop :=
  st.flagOf op = 0 ∧ name ≠ [] ∧ (op = .append → operator? name = none)

@[simp] theorem redirected_str (name : Token) : (st.redirected op name).str = st.str := by
  cases op <;> rfl

@[simp] theorem redirected_narg (name : Token) : (st.redirected op name).narg = st.narg - 2 := by
  cases op <;> rfl

@[simp] theorem redirected_aflag (name : Token) : (st.redirected op name).aflag = st.aflag := by
  cases op <;> rfl

@[simp] theorem redirected_argc (name : Token) : (st.redirected op name).argc = st.argc := by
  cases op <;> rfl

theorem operator?_eq_none : operator? t = none ↔
    ¬ (t = appendSymbol ∨ t = outputSymbol ∨ t = inputSymbol) := by
  unfold operator?
  split_ifs with h1 h2 h3 <;> simp_all

theorem not_ampersand (h : operator? t = some op) : t ≠ ['&'] := by
  rintro rfl
  cases (show operator? ['&'] = none by decide).symm.trans h

theorem not_all_symbols :
    ¬ (t = appendSymbol ∧ t = outputSymbol ∧ t = inputSymbol) := by
  rintro ⟨h1, h2, -⟩
  exact absurd (h1.symm.trans h2) (by decide)

/-! ## A redirection -/

/-- The branch for an operator. -/
def redirectAs (op : Operator) (fuel len c : Nat) (st : Parsed) : Option Redirected :=
  match op with
  | .append => redirectAppend fuel len c st
  | .truncate => redirectTruncate fuel len c st
  | .input => redirectInput fuel len c st

theorem redirect_eq (h : cstring st.str c = some op.text) :
    redirect fuel len c st = some <$> redirectAs op fuel len c st := by
  rw [redirect, h]
  cases op <;> rfl

theorem redirect_word (h : cstring st.str c = some t) (hop : operator? t = none) :
    redirect fuel len c st = some none := by
  have hsymbols := operator?_eq_none.mp hop
  simp only [not_or] at hsymbols
  rw [redirect, h]
  simp only [Option.bind_eq_bind, Option.bind_some, hsymbols, ↓reduceIte]
  rfl

/-- A redirection with its flag set is an error before anything is read. -/
theorem redirectAs_flagged (st : Parsed) (fuel len c : Nat) (h : st.flagOf op ≠ 0) : ∃ msg,
    redirectAs op fuel len c st = some (.syntaxError { st with error := some msg }) := by
  cases op with
  | append => exact ⟨_, if_pos h⟩
  | truncate => exact ⟨_, if_pos h⟩
  | input => exact ⟨_, if_pos h⟩

theorem redirectAs_unread (st : Parsed) (h : st.flagOf op = 0)
    (hname : ((findNext fuel st.str c len).bind fun c' => cstring st.str c') = none) :
    redirectAs op fuel len c st = none := by
  have hread : findNext fuel st.str c len = none ∨
      ∃ c', findNext fuel st.str c len = some c' ∧ cstring st.str c' = none := by
    cases hfind : findNext fuel st.str c len with
    | none => exact Or.inl rfl
    | some c' => exact Or.inr ⟨c', rfl, by simpa [hfind] using hname⟩
  rcases hread with hfind | ⟨c', hfind, hnone⟩
  · cases op with
    | append => simp [redirectAs, redirectAppend, redirectOutput, show st.oflag = 0 from h, hfind]
    | truncate =>
      simp [redirectAs, redirectTruncate, redirectOutput, show st.oflag = 0 from h, hfind]
    | input => simp [redirectAs, redirectInput, show st.iflag = 0 from h, hfind]
  · cases op with
    | append =>
      simp [redirectAs, redirectAppend, redirectOutput, show st.oflag = 0 from h, hfind, hnone]
    | truncate =>
      simp [redirectAs, redirectTruncate, redirectOutput, show st.oflag = 0 from h, hfind, hnone]
    | input => simp [redirectAs, redirectInput, show st.iflag = 0 from h, hfind, hnone]

/-- The two branches for an output file differ in their tests of the name. -/
theorem redirectOutput_named (flag : Int) (multiple : String) (reject : List Char → Bool)
    (hflag : st.oflag = 0) (hfind : findNext fuel st.str c len = some c')
    (hname : cstring st.str c' = some name) :
    (name ≠ [] ∧ ¬ reject name = true → redirectOutput fuel len flag multiple reject c st =
      some (.named c' { st with oflag := flag, oname := name, narg := st.narg - 2 })) ∧
    (¬ (name ≠ [] ∧ ¬ reject name = true) → ∃ msg,
      redirectOutput fuel len flag multiple reject c st = some (.syntaxError
        { st with oflag := flag, oname := name, narg := st.narg - 2, error := some msg })) := by
  by_cases hreject : reject name = true
  · simp [redirectOutput, hflag, hfind, hname, hreject]
  · rcases eq_or_ne name [] with rfl | hne
    · simp [redirectOutput, hflag, hfind, hname, hreject]
    · simp [redirectOutput, hflag, hfind, hname, hreject, hne]

/-- A name is recorded, and it is refused if it is empty or an operator behind `>>`. -/
theorem redirectAs_named (st : Parsed) (h : st.flagOf op = 0)
    (hfind : findNext fuel st.str c len = some c') (hname : cstring st.str c' = some name) :
    (Granted st op name →
      redirectAs op fuel len c st = some (.named c' (st.redirected op name))) ∧
    (¬ Granted st op name → ∃ msg, redirectAs op fuel len c st =
      some (.syntaxError { st.redirected op name with error := some msg })) := by
  cases op with
  | append =>
    have hgranted : Granted st .append name ↔ name ≠ [] ∧
        ¬ decide (name = appendSymbol ∨ name = outputSymbol ∨ name = inputSymbol) = true := by
      rw [decide_eq_true_eq, ← operator?_eq_none]
      exact ⟨fun hg => ⟨hg.2.1, hg.2.2 rfl⟩, fun hg => ⟨h, hg.1, fun _ => hg.2⟩⟩
    rw [hgranted]
    exact redirectOutput_named 2 _ (fun oname => decide (oname = appendSymbol ∨
      oname = outputSymbol ∨ oname = inputSymbol)) h hfind hname
  | truncate =>
    -- the test of the name never succeeds
    have hgranted : Granted st .truncate name ↔ name ≠ [] ∧
        ¬ decide (name = appendSymbol ∧ name = outputSymbol ∧ name = inputSymbol) = true := by
      rw [decide_eq_true_eq]
      exact ⟨fun hg => ⟨hg.2.1, not_all_symbols⟩,
        fun hg => ⟨h, hg.1, fun hop => absurd hop (by decide)⟩⟩
    rw [hgranted]
    exact redirectOutput_named 1 _ (fun oname => decide (oname = appendSymbol ∧
      oname = outputSymbol ∧ oname = inputSymbol)) h hfind hname
  | input =>
    have hgranted : Granted st .input name ↔ name ≠ [] :=
      ⟨fun hg => hg.2.1, fun hne => ⟨h, hne, fun hop => absurd hop (by decide)⟩⟩
    have hflag : st.iflag = 0 := h
    rw [hgranted]
    by_cases hempty : name = []
    · simp [redirectAs, redirectInput, hflag, hfind, hname, not_all_symbols, hempty,
        Parsed.redirected, Operator.flag]
    · simp [redirectAs, redirectInput, hflag, hfind, hname, not_all_symbols, hempty,
        Parsed.redirected, Operator.flag]

/-! ## The loop -/

theorem ampersand_skip (h : cstring st.str c = some t)
    (hlast : ¬ (t = ['&'] ∧ (index : Int) + 1 = st.narg)) :
    ampersand fuel len c index st = some (c, st) := by
  rw [ampersand, h]
  simp only [Option.bind_eq_bind, Option.bind_some, hlast, ↓reduceIte]
  rfl

/-- The round of the loop behind the test for `&`. -/
def parseToken (fuel len n c index : Nat) (st : Parsed) : Option (Int × Parsed) := do
  match ← redirect fuel len c st with
  | some (.syntaxError st) => return (-1, st)
  | some (.named c st) =>
    let c ← findNext fuel st.str c len
    parseLoop fuel len n c index st
  | none =>
    let c' ← findNext fuel st.str c len
    parseLoop fuel len n c' (index + 1) (st.argument index c)

/-- What a redirection leads to. -/
def afterRedirect (fuel len n index : Nat) : Redirected → Option (Int × Parsed)
  | .syntaxError st => some (-1, st)
  | .named c st => (findNext fuel st.str c len).bind fun c => parseLoop fuel len n c index st

theorem parseLoop_eq {a : Char} (hread : st.str[c]? = some a) (ha : a ≠ nul) :
    parseLoop fuel len (n + 1) c index st =
      (ampersand fuel len c index st).bind fun (c, st) => parseToken fuel len n c index st := by
  rw [parseLoop, hread]
  simp only [Option.bind_eq_bind, Option.bind_some, if_neg ha]
  rfl

theorem parseToken_word (h : cstring st.str c = some t) (hop : operator? t = none) :
    parseToken fuel len n c index st =
      (findNext fuel st.str c len).bind fun c' =>
        parseLoop fuel len n c' (index + 1) (st.argument index c) := by
  rw [parseToken, redirect_word h hop]
  rfl

theorem parseToken_operator (st : Parsed) (h : cstring st.str c = some t)
    (hop : operator? t = some op) :
    parseToken fuel len n c index st =
      (redirectAs op fuel len c st).bind (afterRedirect fuel len n index) := by
  rw [parseToken, redirect_eq (by rw [h, text_of_operator? hop])]
  cases redirectAs op fuel len c st with
  | none => rfl
  | some red => cases red <;> rfl

/-- A round at a token that is not a last `&`. -/
theorem parseLoop_token (st : Parsed) {a : Char} (hread : st.str[c]? = some a) (ha : a ≠ nul)
    (hs : cstring st.str c = some t) (hlast : ¬ (t = ['&'] ∧ (index : Int) + 1 = st.narg)) :
    parseLoop fuel len (n + 1) c index st = parseToken fuel len n c index st := by
  rw [parseLoop_eq hread ha, ampersand_skip hs hlast]
  rfl

theorem parseLoop_operator (st : Parsed) {a : Char} (hread : st.str[c]? = some a) (ha : a ≠ nul)
    (hs : cstring st.str c = some t) (hop : operator? t = some op) :
    parseLoop fuel len (n + 1) c index st =
      (redirectAs op fuel len c st).bind (afterRedirect fuel len n index) := by
  rw [parseLoop_token st hread ha hs fun hlast => not_ampersand hop hlast.1,
    parseToken_operator st hs hop]

theorem parseLoop_next (st : Parsed) {a : Char} {x : Option Nat} (hread : st.str[c]? = some a)
    (ha : a ≠ nul) (hs : cstring st.str c = some t)
    (hlast : ¬ (t = ['&'] ∧ (index : Int) + 1 = st.narg)) (hop : operator? t = none)
    (hfind : findNext fuel st.str c len = x) :
    parseLoop fuel len (n + 1) c index st =
      x.bind fun c' => parseLoop fuel len n c' (index + 1) (st.argument index c) := by
  rw [parseLoop_token st hread ha hs hlast, parseToken_word hs hop, hfind]

/-- The round at a last `&` goes on at the next string. -/
theorem parseLoop_last (st : Parsed) {a : Char} {x : Option Nat} (hread : st.str[c]? = some a)
    (ha : a ≠ nul) (hs : cstring st.str c = some ['&']) (hlast : (index : Int) + 1 = st.narg)
    (hfind : findNext fuel st.str c len = x) :
    parseLoop fuel len (n + 1) c index st =
      x.bind fun c' => parseToken fuel len n c' index st.background := by
  rw [parseLoop_eq hread ha, ampersand, hs]
  subst hfind
  simp only [Option.bind_eq_bind, Option.bind_some, hlast, and_self, if_true]
  cases findNext fuel st.str c len with
  | none => rfl
  | some c' => rfl

theorem parseLoop_done (h : At st.str len c []) :
    parseLoop fuel len (n + 1) c index st = some (1, st) := by
  rw [parseLoop, h.read_nil]
  rfl

/-- At the end of the line, in the middle of a round. -/
theorem parseToken_end (st : Parsed) (h : At st.str len c []) (hfuel : 0 < fuel) :
    parseToken fuel len (n + 1) c index st = some (1, st.argument index c) := by
  rw [parseToken_word h.cstring_nil (by decide), h.findNext_nil hfuel, Option.bind_some]
  exact parseLoop_done h

end CourseProjects.Shell

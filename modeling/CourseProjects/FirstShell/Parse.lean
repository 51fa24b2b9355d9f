import CourseProjects.Shell.Accept

/-!
# The parser of the first shell

It is the parser of the shell with job control without its test for a trailing
`&`, so `&` is a word here, and with another test of the name behind `>>`. The
field `aflag` of `Parsed` is not among its pointers and stays as it is.
-/

namespace CourseProjects.FirstShell

open Shell Text

def redirectAppend (fuel len c : Nat) (st : Parsed) : Option Redirected :=
  redirectOutput fuel len 2 "syntax error: multiple output file\n"
    (fun oname => oname = appendSymbol ∧ oname = outputSymbol ∧ oname = inputSymbol) c st

/-- The redirection at `c`, if there is one. -/
def redirect (fuel len c : Nat) (st : Parsed) : Option (Option Redirected) := do
  let s ← cstring st.str c
  if s = appendSymbol then some <$> redirectAppend fuel len c st
  else if s = outputSymbol then some <$> redirectTruncate fuel len c st
  else if s = inputSymbol then some <$> redirectInput fuel len c st
  else return none

def parseLoop (fuel len : Nat) : Nat → Nat → Nat → Parsed → Option (Int × Parsed)
  | 0, _, _, _ => none
  | n + 1, c, index, st => do
    let a ← st.str[c]?
    if a = nul then return (1, st)
    match ← redirect fuel len c st with
    | some (.syntaxError st) => return (-1, st)
    | some (.named c st) =>
      let c ← findNext fuel st.str c len
      parseLoop fuel len n c index st
    | none =>
      let st := { st with argc := fun k => if k = index then c else st.argc k }
      let c ← findNext fuel st.str c len
      parseLoop fuel len n c (index + 1) st

/-- Every loop may take `fuel` rounds. -/
def parse (fuel : Nat) (st : Parsed) : Option (Int × Parsed) := do
  let (st, i) ← nullSpaces fuel st 0 false
  if st.narg = 0 then return (-1, st)
  let c ← skipNulls st.str i fuel 0
  parseLoop fuel i fuel c 0 st

/-- The call in `repl`, with the flags and counts zero. -/
def callParse (fuel : Nat) (str iname oname : List Char) (argc : Nat → Nat) :
    Option (Int × Parsed) :=
  parse fuel ⟨str, iname, oname, 0, 0, 0, 0, argc, none⟩

/-! ## What a line says -/

/-- Every token is an operator with its file name or a word. -/
def itemsOf : List Token → List Item
  | [] => []
  | [t] =>
    match operator? t with
    | some op => [.redirect op []]
    | none => [.word t]
  | t :: u :: ts =>
    match operator? t with
    | some op => .redirect op u :: itemsOf ts
    | none => .word t :: itemsOf (u :: ts)

/-- The redirections that the parser lets through, after `i` for the input and
`o` for the output. -/
structure Allowed (i o : Nat) (items : List Item) : Prop where
  inputs : i + (inputsOf items).length ≤ 1
  outputs : o + (outputsOf items).length ≤ 1
  named : ∀ op name, Item.redirect op name ∈ items → name ≠ []

variable {len c c' fuel index : Nat} {st out : Parsed} {t u name : Token} {ts : List Token}
  {op : Operator} {items : List Item} {line : List Char}

/-- The scan of the other shell has the same items, apart from the last `&`. -/
theorem itemsOf_eq (ts : List Token) :
    itemsOf ts = (scan ts).1 ++ if (scan ts).2 then [.word ['&']] else [] := by
  fun_induction scan ts with
  | case1 => rfl
  | case2 t op h => simp [itemsOf, h]
  | case3 h => simp [itemsOf, h]
  | case4 t h hamp => simp [itemsOf, h]
  | case5 t u ts op h ih => simp [itemsOf, h, ih]
  | case6 t u ts h ih => simp [itemsOf, h, ih]

theorem allowed_word {i o : Nat} : Allowed i o (.word t :: items) ↔ Allowed i o items := by
  constructor
  · intro h
    exact ⟨h.inputs, h.outputs, fun op name hm => h.named op name (List.mem_cons_of_mem _ hm)⟩
  · intro h
    exact ⟨h.inputs, h.outputs, fun op name hm => h.named op name (by simpa using hm)⟩

/-- What the parser asks of a redirection. -/
def Granted (st : Parsed) (op : Operator) (name : Token) : Prop :=
  st.flagOf op = 0 ∧ name ≠ []

theorem allowed_redirect :
    Allowed (seen st.iflag) (seen st.oflag) (.redirect op name :: items) ↔
      Granted st op name ∧ Allowed (seen (st.redirected op name).iflag)
        (seen (st.redirected op name).oflag) items := by
  constructor
  · intro h
    obtain ⟨hname, hnamed⟩ := (forall_redirect op name).mp h.named
    cases op with
    | input =>
      obtain ⟨hflag, hins⟩ := seen_add.mp h.inputs
      exact ⟨⟨hflag, hname⟩, hins, h.outputs, hnamed⟩
    | append =>
      obtain ⟨hflag, houts⟩ := seen_add.mp h.outputs
      exact ⟨⟨hflag, hname⟩, h.inputs, houts, hnamed⟩
    | truncate =>
      obtain ⟨hflag, houts⟩ := seen_add.mp h.outputs
      exact ⟨⟨hflag, hname⟩, h.inputs, houts, hnamed⟩
  · rintro ⟨⟨hflag, hname⟩, h⟩
    have hnamed := (forall_redirect op name).mpr ⟨hname, h.named⟩
    cases op with
    | input => exact ⟨seen_add.mpr ⟨hflag, h.inputs⟩, h.outputs, hnamed⟩
    | append => exact ⟨h.inputs, seen_add.mpr ⟨hflag, h.outputs⟩, hnamed⟩
    | truncate => exact ⟨h.inputs, seen_add.mpr ⟨hflag, h.outputs⟩, hnamed⟩

/-! ## A redirection -/

/-- The branch for an operator. -/
def redirectAs (op : Operator) (fuel len c : Nat) (st : Parsed) : Option Redirected :=
  match op with
  | .append => redirectAppend fuel len c st
  | .truncate => redirectTruncate fuel len c st
  | .input => redirectInput fuel len c st

theorem redirect_eq (h : cstring st.str c = some op.text) :
    redirect fuel len c st = some <$> redirectAs op fuel len c st := by
  rw [redirect, h]
  cases op <;> rfl

theorem redirect_word (h : cstring st.str c = some t) (hop : operator? t = none) :
    redirect fuel len c st = some none := by
  have hsymbols := operator?_eq_none.mp hop
  simp only [not_or] at hsymbols
  rw [redirect, h]
  simp only [Option.bind_eq_bind, Option.bind_some, hsymbols, ↓reduceIte]
  rfl

theorem redirectAs_flagged (st : Parsed) (fuel len c : Nat) (h : st.flagOf op ≠ 0) : ∃ msg,
    redirectAs op fuel len c st = some (.syntaxError { st with error := some msg }) := by
  cases op with
  | append => exact ⟨_, if_pos h⟩
  | truncate => exact ⟨_, if_pos h⟩
  | input => exact ⟨_, if_pos h⟩

/-- A name is recorded, and it is refused only if it is empty. -/
theorem redirectAs_named (st : Parsed) (h : st.flagOf op = 0)
    (hfind : findNext fuel st.str c len = some c') (hname : cstring st.str c' = some name) :
    (Granted st op name →
      redirectAs op fuel len c st = some (.named c' (st.redirected op name))) ∧
    (¬ Granted st op name → ∃ msg, redirectAs op fuel len c st =
      some (.syntaxError { st.redirected op name with error := some msg })) := by
  have hother : op ≠ .append → (Granted st op name ↔ Shell.Granted st op name) := fun hop =>
    ⟨fun hg => ⟨hg.1, hg.2, fun happ => absurd happ hop⟩, fun hg => ⟨hg.1, hg.2.1⟩⟩
  cases op with
  | append =>
    -- the test of the name never succeeds
    have hgranted : Granted st .append name ↔ name ≠ [] ∧
        ¬ decide (name = appendSymbol ∧ name = outputSymbol ∧ name = inputSymbol) = true := by
      rw [decide_eq_true_eq]
      exact ⟨fun hg => ⟨hg.2, not_all_symbols⟩, fun hg => ⟨h, hg.1⟩⟩
    rw [hgranted]
    exact redirectOutput_named 2 _ (fun oname => decide (oname = appendSymbol ∧
      oname = outputSymbol ∧ oname = inputSymbol)) h hfind hname
  | truncate =>
    rw [hother (by decide)]
    have hshell := Shell.redirectAs_named st h hfind hname
    exact hshell
  | input =>
    rw [hother (by decide)]
    have hshell := Shell.redirectAs_named st h hfind hname
    exact hshell

/-- Each redirection is granted or ends the parser. -/
theorem redirectAs_spec (h : At st.str len c (t :: ts)) (hfuel : len + 1 < fuel) :
    (Granted st op (ts.headD []) → ∃ c', redirectAs op fuel len c st =
      some (.named c' (st.redirected op (ts.headD []))) ∧ At st.str len c' ts) ∧
    (¬ Granted st op (ts.headD []) →
      ∃ st', redirectAs op fuel len c st = some (.syntaxError st')) := by
  obtain ⟨c', hfind, hat⟩ := h.findNext_cons hfuel
  by_cases hflag : st.flagOf op = 0
  · obtain ⟨hgranted, hdenied⟩ := redirectAs_named st hflag hfind hat.name
    constructor
    · intro hg
      exact ⟨c', hgranted hg, hat⟩
    · intro hg
      obtain ⟨msg, hred⟩ := hdenied hg
      exact ⟨_, hred⟩
  · refine ⟨fun hg => absurd hg.1 hflag, fun _ => ?_⟩
    obtain ⟨msg, hred⟩ := redirectAs_flagged st fuel len c hflag
    exact ⟨_, hred⟩

end CourseProjects.FirstShell

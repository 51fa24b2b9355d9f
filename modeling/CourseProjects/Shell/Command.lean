import CourseProjects.Shell.Parse

/-!
# Command lines

What the tokens of a line say, read from left to right: an operator takes the
next token as its file name, and a last `&` that is not a file name puts the
command in the background.
-/

namespace CourseProjects.Shell

abbrev Token := List Char

inductive Operator
  | append
  | truncate
  | input
  deriving DecidableEq

def Operator.text : Operator → Token
  | .append => appendSymbol
  | .truncate => outputSymbol
  | .input => inputSymbol

def operator? (t : Token) : Option Operator :=
  if t = appendSymbol then some .append
  else if t = outputSymbol then some .truncate
  else if t = inputSymbol then some .input
  else none

/-- The name of an operator at the end of the line is empty. -/
inductive Item
  | word (t : Token)
  | redirect (op : Operator) (name : Token)
  deriving DecidableEq

/-- The items of a line, and whether it ends with `&`. -/
def scan : List Token → List Item × Bool
  | [] => ([], false)
  | [t] =>
    match operator? t with
    | some op => ([.redirect op []], false)
    | none => if t = ['&'] then ([], true) else ([.word t], false)
  | t :: u :: ts =>
    match operator? t with
    | some op => (.redirect op u :: (scan ts).1, (scan ts).2)
    | none => (.word t :: (scan (u :: ts)).1, (scan (u :: ts)).2)

def Item.word? : Item → Option Token
  | .word t => some t
  | .redirect _ _ => none

def Item.input? : Item → Option Token
  | .redirect .input name => some name
  | _ => none

def Item.output? : Item → Option (Operator × Token)
  | .redirect .append name => some (.append, name)
  | .redirect .truncate name => some (.truncate, name)
  | _ => none

def wordsOf (items : List Item) : List Token :=
  items.filterMap Item.word?

def inputsOf (items : List Item) : List Token :=
  items.filterMap Item.input?

def outputsOf (items : List Item) : List (Operator × Token) :=
  items.filterMap Item.output?

/-! ## Valid commands -/

def Item.tokens : Item → List Token
  | .word t => [t]
  | .redirect op name => [op.text, name]

def Item.WellFormed : Item → Prop
  | .word t => operator? t = none
  | .redirect _ name => operator? name = none

/-- A mix of words and redirections with an optional `&` behind it. -/
structure Derives (items : List Item) (background : Bool) (ts : List Token) : Prop where
  tokens : ts = items.flatMap Item.tokens ++ if background then [['&']] else []
  wellFormed : ∀ item ∈ items, item.WellFormed
  last : background = false → items.getLast? ≠ some (.word ['&'])
  words : wordsOf items ≠ []
  inputs : (inputsOf items).length ≤ 1
  outputs : (outputsOf items).length ≤ 1

def Valid (ts : List Token) : Prop :=
  ∃ items background, Derives items background ts

/-- The redirections that the parser lets through, after `i` for the input and
`o` for the output. -/
structure Tolerated (i o : Nat) (items : List Item) : Prop where
  inputs : i + (inputsOf items).length ≤ 1
  outputs : o + (outputsOf items).length ≤ 1
  named : ∀ op name, Item.redirect op name ∈ items → name ≠ []
  append : ∀ op name, Item.redirect op name ∈ items → op = .append → operator? name = none

/-- A word, and no operator for a file name. -/
structure Plain (items : List Item) : Prop where
  words : wordsOf items ≠ []
  names : ∀ op name, Item.redirect op name ∈ items → operator? name = none

/-! ## The scan finds the derivation -/

theorem operator?_text (op : Operator) : operator? op.text = some op := by
  cases op <;> decide

theorem text_of_operator? {t : Token} {op : Operator} (h : operator? t = some op) :
    t = op.text := by
  unfold operator? at h
  split_ifs at h with h1 h2 h3
  all_goals
    cases h
    assumption

theorem scan_operator {t u : Token} {ts : List Token} {op : Operator} (h : operator? t = some op) :
    scan (t :: u :: ts) = (.redirect op u :: (scan ts).1, (scan ts).2) := by
  rw [scan, h]

theorem scan_word {t u : Token} {ts : List Token} (h : operator? t = none) :
    scan (t :: u :: ts) = (.word t :: (scan (u :: ts)).1, (scan (u :: ts)).2) := by
  rw [scan, h]

theorem flatMap_tokens_ne_nil {items : List Item} (h : items ≠ []) :
    items.flatMap Item.tokens ≠ [] := by
  obtain ⟨item, items, rfl⟩ := List.exists_cons_of_ne_nil h
  cases item <;> simp [Item.tokens]

theorem scan_tokens {items : List Item} {background : Bool}
    (hwf : ∀ item ∈ items, ∀ t, item = .word t → operator? t = none)
    (hlast : background = false → items.getLast? ≠ some (.word ['&'])) :
    scan (items.flatMap Item.tokens ++ if background then [['&']] else []) =
      (items, background) := by
  induction items with
  | nil => cases background <;> rfl
  | cons item items ih =>
    have hrest : background = false → items.getLast? ≠ some (.word ['&']) := fun hb h =>
      hlast hb (by rw [List.getLast?_cons, h]; rfl)
    have hscan := ih (fun i hi => hwf i (List.mem_cons_of_mem item hi)) hrest
    cases item with
    | redirect op name =>
      rw [List.flatMap_cons, Item.tokens, List.append_assoc, List.cons_append, List.cons_append,
        List.nil_append, scan_operator (operator?_text op), hscan]
    | word t =>
      have ht := hwf _ List.mem_cons_self t rfl
      rw [List.flatMap_cons, Item.tokens, List.append_assoc, List.cons_append, List.nil_append]
      cases hts : items.flatMap Item.tokens ++ (if background then [['&']] else []) with
      | cons u us => rw [scan_word ht, ← hts, hscan]
      | nil =>
        obtain ⟨hflat, hback⟩ := List.append_eq_nil_iff.mp hts
        have hitems : items = [] := by
          by_contra hne
          exact flatMap_tokens_ne_nil hne hflat
        have hfalse : background = false := by
          cases background with
          | false => rfl
          | true => cases hback
        subst hitems hfalse
        have hamp : t ≠ ['&'] := fun h => hlast rfl (by rw [h]; rfl)
        rw [scan, ht]
        simp [hamp]

/-- The items of a line give back its tokens. -/
theorem tokens_scan (ts : List Token)
    (hnamed : ∀ op name, Item.redirect op name ∈ (scan ts).1 → name ≠ []) :
    ts = (scan ts).1.flatMap Item.tokens ++ if (scan ts).2 then [['&']] else [] := by
  fun_induction scan ts with
  | case1 => rfl
  | case2 t op h => exact absurd rfl (hnamed op [] (List.mem_singleton.mpr rfl))
  | case3 h => rfl
  | case4 t h hamp => rfl
  | case5 t u ts op h ih =>
    have hrest := ih fun op name hm => hnamed op name (List.mem_cons_of_mem _ hm)
    rw [List.flatMap_cons, Item.tokens, List.append_assoc, ← hrest, text_of_operator? h]
    rfl
  | case6 t u ts h ih =>
    have hrest := ih fun op name hm => hnamed op name (List.mem_cons_of_mem _ hm)
    rw [List.flatMap_cons, Item.tokens, List.append_assoc, ← hrest]
    rfl

theorem scan_words (ts : List Token) : ∀ t, Item.word t ∈ (scan ts).1 → operator? t = none := by
  fun_induction scan ts with
  | case1 => simp
  | case2 t op h => simp
  | case3 h => simp
  | case4 t h hamp => simpa using h
  | case5 t u ts op h ih => simpa using ih
  | case6 t u ts h ih =>
    intro w hw
    rcases List.mem_cons.mp hw with hw | hw
    · cases hw
      exact h
    · exact ih w hw

theorem scan_ne_nil {t : Token} {ts : List Token} (hb : (scan (t :: ts)).2 = false) :
    (scan (t :: ts)).1 ≠ [] := by
  cases ts with
  | nil =>
    cases h : operator? t with
    | some op => simp [scan, h]
    | none =>
      by_cases hamp : t = ['&']
      · subst hamp
        simp [scan, h] at hb
      · simp [scan, h, hamp]
  | cons u ts =>
    cases h : operator? t with
    | some op => simp [scan, h]
    | none => simp [scan, h]

theorem scan_last (ts : List Token) :
    (scan ts).2 = false → (scan ts).1.getLast? ≠ some (.word ['&']) := by
  fun_induction scan ts with
  | case1 => simp
  | case2 t op h => simp
  | case3 h => simp
  | case4 t h hamp => simpa using hamp
  | case5 t u ts op h ih =>
    intro hb
    have hlast := ih hb
    rw [List.getLast?_cons]
    cases hl : (scan ts).1.getLast? with
    | none => simp
    | some item => simpa [hl] using hlast
  | case6 t u ts h ih =>
    intro hb
    have hlast := ih hb
    rw [List.getLast?_cons]
    cases hl : (scan (u :: ts)).1.getLast? with
    | none => exact absurd (List.getLast?_eq_none_iff.mp hl) (scan_ne_nil hb)
    | some item => simpa [hl] using hlast

/-- The valid lines are those whose scan is tolerated and plain. -/
theorem valid_iff {ts : List Token} (hts : ∀ t ∈ ts, t ≠ []) :
    Valid ts ↔ Tolerated 0 0 (scan ts).1 ∧ Plain (scan ts).1 := by
  constructor
  · rintro ⟨items, background, h⟩
    have hwords : ∀ item ∈ items, ∀ t, item = .word t → operator? t = none := fun item hi t ht => by
      subst ht
      exact h.wellFormed _ hi
    have hnames : ∀ op name, Item.redirect op name ∈ items → operator? name = none :=
      fun op name hi => h.wellFormed _ hi
    have hscan : scan ts = (items, background) := by
      rw [h.tokens]
      exact scan_tokens hwords h.last
    rw [hscan]
    refine ⟨⟨by simpa using h.inputs, by simpa using h.outputs, fun op name hi => ?_,
      fun op name hi _ => hnames op name hi⟩, h.words, hnames⟩
    refine hts name ?_
    rw [h.tokens]
    exact List.mem_append_left _ (List.mem_flatMap.mpr ⟨_, hi, by simp [Item.tokens]⟩)
  · rintro ⟨htol, hplain⟩
    refine ⟨(scan ts).1, (scan ts).2, tokens_scan ts htol.named, fun item hi => ?_, scan_last ts,
      hplain.words, by simpa using htol.inputs, by simpa using htol.outputs⟩
    cases item with
    | word t => exact scan_words ts t hi
    | redirect op name => exact hplain.names op name hi

end CourseProjects.Shell

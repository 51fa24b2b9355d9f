import CourseProjects.Database.Db
import CourseProjects.Lib.Stream
import Mathlib.Data.List.TakeWhile

/-!
# The command interpreter

`interpret_command` reads names and values with `%255s`. The command `f`
interprets the commands of a file, one read of `ibuf` at a time.
-/

namespace CourseProjects.Database

/-- The bytes of an ASCII text. -/
def bytes (s : String) : CString :=
  s.toList.map fun c => Fin.ofNat 256 c.toNat

def newline : Fin 256 :=
  10

def isspace (c : Fin 256) : Bool :=
  c = 32 ∨ 9 ≤ c.val ∧ c.val ≤ 13

/-- `%255s`, and the rest of the input. -/
def scanWord (s : CString) : Option (CString × CString) :=
  let s := s.dropWhile isspace
  if s = [] then none
  else
    let word := (s.takeWhile fun c => !isspace c).take 255
    some (word, s.drop word.length)

/-- The files that can be opened. -/
abbrev Files := CString → Option (List (Fin 256))

/-- The C strings in `ibuf` after each `fgets`; every call takes a byte at least. -/
def fileCommands (content : List (Fin 256)) : List CString :=
  (ByteStream.cuts newline (maxLen - 1) content.length content).map fun ibuf =>
    ibuf.takeWhile fun c => c ≠ 0

def illFormed : CString :=
  bytes "ill-formed command"

/-- The response and the database after a command; the recursion through files
is cut off after `fuel` levels. -/
def interpretCommand (files : Files) (len : Nat) :
    Nat → Db → CString → Except Fault (CString × Db)
  | 0, _, _ => throw .diverges
  | fuel + 1, db, command =>
    if command.length ≤ 1 then return (snprintf len illFormed, db)
    else
      let args := command.tail
      if command.head? = some 113 then
        -- 'q'
        match scanWord args with
        | none => return (snprintf len illFormed, db)
        | some (name, _) => do
          let response ← db.dbQuery name len
          if response.length = 0 then return (snprintf len (bytes "not found"), db)
          else return (response, db)
      else if command.head? = some 97 then
        -- 'a'
        match scanWord args with
        | none => return (snprintf len illFormed, db)
        | some (name, rest) =>
          match scanWord rest with
          | none => return (snprintf len illFormed, db)
          | some (value, _) => do
            let (added, db) ← db.dbAdd name value
            if added ≠ 0 then return (snprintf len (bytes "added"), db)
            else return (snprintf len (bytes "already in database"), db)
      else if command.head? = some 100 then
        -- 'd'
        match scanWord args with
        | none => return (snprintf len illFormed, db)
        | some (name, _) => do
          let (removed, db) ← db.dbRemove name
          if removed ≠ 0 then return (snprintf len (bytes "removed"), db)
          else return (snprintf len (bytes "not in database"), db)
      else if command.head? = some 102 then
        -- 'f'
        match scanWord args with
        | none => return (snprintf len illFormed, db)
        | some (name, _) =>
          match files name with
          | none => return (snprintf len (bytes "bad file name"), db)
          | some content => do
            let db ← (fileCommands content).foldlM (fun db ibuf => do
              let (_, db) ← interpretCommand files len fuel db ibuf
              return db) db
            return (snprintf len (bytes "file processed"), db)
      else return (snprintf len illFormed, db)

/-! ## Texts without a newline -/

/-- What a text has to be so that it is one line, and fits in a node. -/
structure Plain (s : CString) : Prop where
  noNul : 0 ∉ s
  line : newline ∉ s
  length : s.length ≤ 255

theorem Plain.take {s : CString} (h : Plain s) (n : Nat) : Plain (s.take n) :=
  ⟨fun hm => h.noNul (List.mem_of_mem_take hm), fun hm => h.line (List.mem_of_mem_take hm),
    Nat.le_trans (List.length_take_le' n s) h.length⟩

theorem Plain.snprintf {s : CString} (h : Plain s) (n : Nat) : Plain (snprintf n s) :=
  h.take (n - 1)

theorem scanWord_plain {s word rest : CString} (hs : 0 ∉ s)
    (h : scanWord s = some (word, rest)) : Plain word ∧ 0 ∉ rest := by
  unfold scanWord at h
  dsimp only at h
  split_ifs at h
  cases h
  have hsub : ∀ c ∈ s.dropWhile isspace, c ∈ s := fun c => (List.dropWhile_sublist isspace).mem
  refine ⟨⟨fun hm => ?_, fun hm => ?_, List.length_take_le _ _⟩, fun hm => ?_⟩
  · exact hs (hsub 0 ((List.takeWhile_sublist _).mem (List.mem_of_mem_take hm)))
  · have := List.mem_takeWhile_imp (List.mem_of_mem_take hm)
    exact absurd this (by decide)
  · exact hs (hsub 0 (List.mem_of_mem_drop hm))

theorem fileCommands_noNul {content : List (Fin 256)} {command : CString}
    (h : command ∈ fileCommands content) : 0 ∉ command := by
  obtain ⟨ibuf, -, rfl⟩ := List.mem_map.mp h
  intro hm
  exact absurd (List.mem_takeWhile_imp hm) (by decide)

/-- All texts of a database are plain. -/
def Clean (db : Db) : Prop :=
  ∀ a n, db.mem a = some n → Plain n.name ∧ Plain n.value

variable {db db' : Db} {a : Addr} {n : Node} {name value : CString}

theorem Clean.set (h : Clean db) (hn : Plain n.name ∧ Plain n.value) :
    Clean (db.set a (some n)) := by
  intro b m hm
  by_cases hb : b = a
  · subst hb
    rw [Db.set_mem_self] at hm
    cases hm
    exact hn
  · rw [Db.set_mem_ne db (some n) hb] at hm
    exact h b m hm

theorem Clean.destroy (h : Clean db) (a : Addr) : Clean (db.destroy a) := by
  intro b m hm
  by_cases hb : b = a
  · subst hb
    rw [Db.destroy_mem_self] at hm
    cases hm
  · rw [Db.destroy_mem_ne db hb] at hm
    exact h b m hm

theorem Clean.nodeConstructor (h : Clean db) (hname : Plain name) (hvalue : Plain value) (l r : Addr) :
    Clean (db.nodeConstructor name value l r).2 := by
  unfold Db.nodeConstructor
  split_ifs
  · exact h
  · intro b m hm
    dsimp only at hm
    split_ifs at hm
    · cases hm
      exact ⟨hname.snprintf maxLen, hvalue.snprintf maxLen⟩
    · exact h b m hm

/-! ## What the operations keep -/

theorem bind_ok {α β : Type} {x : Except Fault α} {f : α → Except Fault β} {b : β}
    (h : x >>= f = .ok b) : ∃ a, x = .ok a ∧ f a = .ok b := by
  cases x with
  | error e => cases h
  | ok a => exact ⟨a, rfl, h⟩

theorem deref_ok (h : db.deref a = .ok n) : db.mem a = some n := by
  unfold Db.deref at h
  split at h
  · next m hm =>
    cases h
    exact hm
  · cases h

theorem Clean.setToward {parent child : Addr} (h : Clean db)
    (hs : db.setToward name parent child = .ok db') : Clean db' := by
  obtain ⟨n, hn, hs⟩ := bind_ok hs
  cases hs
  have htexts := h _ _ (deref_ok hn)
  refine h.set ?_
  unfold Node.setToward
  split_ifs <;> exact htexts

theorem Clean.setField {p : Addr × Field} {child : Addr} (h : Clean db)
    (hs : db.setField p child = .ok db') : Clean db' := by
  obtain ⟨n, hn, hs⟩ := bind_ok hs
  cases hs
  have htexts := h _ _ (deref_ok hn)
  refine h.set ?_
  unfold Node.setField
  cases p.2 <;> exact htexts

theorem Clean.writeName (h : Clean db) (hname : Plain name)
    (hs : db.writeName a name = .ok db') : Clean db' := by
  obtain ⟨n, hn, hs⟩ := bind_ok hs
  have htexts := h _ _ (deref_ok hn)
  split_ifs at hs
  cases hs
  exact h.set ⟨hname.snprintf maxLen, htexts.2⟩

theorem Clean.writeValue (h : Clean db) (hvalue : Plain value)
    (hs : db.writeValue a value = .ok db') : Clean db' := by
  obtain ⟨n, hn, hs⟩ := bind_ok hs
  have htexts := h _ _ (deref_ok hn)
  split_ifs at hs
  cases hs
  exact h.set ⟨htexts.1, hvalue.snprintf maxLen⟩

theorem Clean.nodeDestructor (h : Clean db) (hs : db.nodeDestructor a = .ok db') : Clean db' := by
  obtain ⟨n, hn, hs⟩ := bind_ok hs
  cases hs
  exact h.destroy a

theorem notFound_plain : Plain Db.dbQuery.notFound :=
  ⟨by decide, by decide, by decide⟩

theorem Clean.dbQuery {len : Nat} {response : CString} (h : Clean db)
    (hs : db.dbQuery name len = .ok response) : Plain response := by
  obtain ⟨⟨target, parent⟩, -, hs⟩ := bind_ok hs
  dsimp only at hs
  split_ifs at hs
  · cases hs
    exact notFound_plain.snprintf len
  · obtain ⟨t, ht, hs⟩ := bind_ok hs
    cases hs
    exact (h _ _ (deref_ok ht)).2.snprintf len

theorem Clean.dbAdd {i : Int} (h : Clean db) (hname : Plain name) (hvalue : Plain value)
    (hs : db.dbAdd name value = .ok (i, db')) : Clean db' := by
  obtain ⟨⟨target, parent⟩, -, hs⟩ := bind_ok hs
  dsimp only at hs
  split_ifs at hs
  · cases hs
    exact h
  · obtain ⟨-, -, hs⟩ := bind_ok hs
    obtain ⟨db₁, hset, hs⟩ := bind_ok hs
    cases hs
    exact (h.nodeConstructor hname hvalue 0 0).setToward hset

theorem Clean.dbRemove {i : Int} (h : Clean db) (hs : db.dbRemove name = .ok (i, db')) :
    Clean db' := by
  obtain ⟨⟨dnode, parent⟩, -, hs⟩ := bind_ok hs
  dsimp only at hs
  split_ifs at hs
  · cases hs
    exact h
  · obtain ⟨d, hd, hs⟩ := bind_ok hs
    split_ifs at hs
    · -- `dnode` has no right child
      obtain ⟨db₁, hset, hs⟩ := bind_ok hs
      obtain ⟨db₂, hfree, hs⟩ := bind_ok hs
      cases hs
      exact (h.setToward hset).nodeDestructor hfree
    · -- `dnode` has no left child
      obtain ⟨db₁, hset, hs⟩ := bind_ok hs
      obtain ⟨db₂, hfree, hs⟩ := bind_ok hs
      cases hs
      exact (h.setToward hset).nodeDestructor hfree
    · obtain ⟨⟨next, pnext⟩, -, hs⟩ := bind_ok hs
      obtain ⟨n, hn, hs⟩ := bind_ok hs
      obtain ⟨db₁, hname, hs⟩ := bind_ok hs
      obtain ⟨db₂, hvalue, hs⟩ := bind_ok hs
      obtain ⟨db₃, hset, hs⟩ := bind_ok hs
      obtain ⟨db₄, hfree, hs⟩ := bind_ok hs
      cases hs
      have htexts := h _ _ (deref_ok hn)
      exact (((h.writeName htexts.1 hname).writeValue htexts.2 hvalue).setField hset).nodeDestructor
        hfree

/-! ## Responses -/

/-- A response that the client can read as one line. -/
def Line (response : CString) : Prop :=
  response ≠ [] ∧ Plain response

theorem line_text {s : CString} (hs : s ≠ []) (h : Plain s) : Line (snprintf 1024 s) := by
  refine ⟨?_, h.snprintf 1024⟩
  have : snprintf 1024 s = s := List.take_of_length_le (by have := h.length; omega)
  rwa [this]

theorem line_literal {s : CString} (h : s ≠ [] ∧ 0 ∉ s ∧ newline ∉ s ∧ s.length ≤ 255) :
    Line (snprintf 1024 s) :=
  line_text h.1 ⟨h.2.1, h.2.2.1, h.2.2.2⟩

variable {files : Files} {fuel : Nat} {command response : CString}

/-- A loop over commands keeps what each command keeps. -/
theorem foldlM_clean {f : Db → CString → Except Fault Db} {cs : List CString}
    (hf : ∀ db, ∀ c ∈ cs, ∀ db', Clean db → f db c = .ok db' → Clean db') (h : Clean db)
    (hs : cs.foldlM f db = .ok db') : Clean db' := by
  induction cs generalizing db with
  | nil =>
    cases hs
    exact h
  | cons c cs ih =>
    rw [List.foldlM_cons] at hs
    obtain ⟨db₁, hc, hs⟩ := bind_ok hs
    have hhead : Clean db₁ := hf db c List.mem_cons_self db₁ h hc
    exact ih (fun db c hmem => hf db c (List.mem_cons_of_mem _ hmem)) hhead hs

/-- Every command keeps the texts plain and is answered by one line. -/
theorem interpretCommand_line (h : Clean db) (hcommand : 0 ∉ command)
    (hs : interpretCommand files 1024 fuel db command = .ok (response, db')) :
    Line response ∧ Clean db' := by
  induction fuel generalizing db db' command response with
  | zero => cases hs
  | succ fuel ih =>
    rw [interpretCommand] at hs
    have hill : (snprintf 1024 illFormed, db) = (response, db') → Line response ∧ Clean db' := by
      intro heq
      cases heq
      exact ⟨line_literal (by decide), h⟩
    have hargs : 0 ∉ command.tail := fun hm => hcommand (List.mem_of_mem_tail hm)
    dsimp only at hs
    split_ifs at hs with h1 hq ha hd hf
    · exact hill (Except.ok.inj hs)
    · -- query
      split at hs
      · exact hill (Except.ok.inj hs)
      · obtain ⟨text, htext, hs⟩ := bind_ok hs
        have hplain := h.dbQuery htext
        split_ifs at hs with hzero
        · cases hs
          exact ⟨line_literal (by decide), h⟩
        · cases hs
          exact ⟨⟨fun hnil => hzero (by rw [hnil]; rfl), hplain⟩, h⟩
    · -- add
      split at hs
      · exact hill (Except.ok.inj hs)
      · next name rest hname =>
        split at hs
        · exact hill (Except.ok.inj hs)
        · next value rest' hvalue =>
          obtain ⟨⟨added, db₁⟩, hadd, hs⟩ := bind_ok hs
          obtain ⟨hnamePlain, hrest⟩ := scanWord_plain hargs hname
          obtain ⟨hvaluePlain, -⟩ := scanWord_plain hrest hvalue
          have hclean := h.dbAdd hnamePlain hvaluePlain hadd
          dsimp only at hs
          split_ifs at hs <;> cases hs
          · exact ⟨line_literal (by decide), hclean⟩
          · exact ⟨line_literal (by decide), hclean⟩
    · -- delete
      split at hs
      · exact hill (Except.ok.inj hs)
      · obtain ⟨⟨removed, db₁⟩, hremove, hs⟩ := bind_ok hs
        have hclean := h.dbRemove hremove
        dsimp only at hs
        split_ifs at hs <;> cases hs
        · exact ⟨line_literal (by decide), hclean⟩
        · exact ⟨line_literal (by decide), hclean⟩
    · -- the commands of a file
      split at hs
      · exact hill (Except.ok.inj hs)
      · split at hs
        · cases hs
          exact ⟨line_literal (by decide), h⟩
        · obtain ⟨db₁, hloop, hs⟩ := bind_ok hs
          cases hs
          refine ⟨line_literal (by decide), foldlM_clean ?_ h hloop⟩
          intro db c hc db' hdb hstep
          obtain ⟨⟨r, db₂⟩, hr, hstep⟩ := bind_ok hstep
          cases hstep
          exact (ih hdb (fileCommands_noNul hc) hr).2
    · exact hill (Except.ok.inj hs)

end CourseProjects.Database

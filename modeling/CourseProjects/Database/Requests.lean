import CourseProjects.Database.Contents
import CourseProjects.Database.Interpret

/-!
# What a command asks for

A command is ill-formed, a call of the database, or a file of commands. Names and
values are words without white space, which the database therefore holds at any time.
-/

namespace CourseProjects.Database

open TreeHeap SearchTree SearchTree.Tree

/-- What `%255s` stores. -/
structure Token (s : CString) : Prop where
  ne_nil : s ≠ []
  word : ∀ c ∈ s, isspace c = false
  noNul : 0 ∉ s
  length : s.length ≤ 255

inductive Request
  | illFormed
  | call (c : Call)
  | file (name : CString)

def request (len : Nat) (command : CString) : Request :=
  if command.length ≤ 1 then .illFormed
  else
    match scanWord command.tail with
    | none => .illFormed
    | some (name, rest) =>
      if command.head? = some 113 then .call (.query name len)
      else if command.head? = some 97 then
        match scanWord rest with
        | none => .illFormed
        | some (value, _) => .call (.add name value)
      else if command.head? = some 100 then .call (.remove name)
      else if command.head? = some 102 then .file name
      else .illFormed

/-- The texts of a call are words. -/
def Call.Words : Call → Prop
  | .query name _ => Token name
  | .add name value => Token name ∧ Token value
  | .remove name => Token name

/-- The same call for a response buffer of another size. -/
def Call.atLen (len : Nat) : Call → Call
  | .query name _ => .query name len
  | c => c

def Request.atLen (len : Nat) : Request → Request
  | .call c => .call (c.atLen len)
  | r => r

/-- The text for the result of a call. -/
def answer : Call → Result → CString
  | .query _ _, .text s => if s.length = 0 then bytes "not found" else s
  | .add _ _, .int i => if i ≠ 0 then bytes "added" else bytes "already in database"
  | .remove _, .int i => if i ≠ 0 then bytes "removed" else bytes "not in database"
  | _, _ => illFormed

/-- The commands of a file, one after another. -/
def runLines (files : Files) (len fuel : Nat) (db : Db) (commands : List CString) :
    Except Fault Db :=
  commands.foldlM (fun db ibuf => do
    let (_, db) ← interpretCommand files len fuel db ibuf
    return db) db

variable {files : Files} {len fuel : Nat} {db db' : Db} {t : NTree} {c : Call}
  {name value word rest s command response : CString} {commands : List CString} {m : Contents}

theorem request_atLen (len len' : Nat) (command : CString) :
    request len' command = (request len command).atLen len' := by
  unfold request
  by_cases hlen : command.length ≤ 1
  · simp [hlen, Request.atLen]
  · cases hname : scanWord command.tail with
    | none => simp [hlen, Request.atLen]
    | some r =>
      obtain ⟨name, rest⟩ := r
      simp only [hlen, if_false]
      split_ifs
      · rfl
      · cases scanWord rest <;> rfl
      · rfl
      · rfl
      · rfl

@[simp] theorem answer_atLen (c : Call) (r : Result) : answer (c.atLen len) r = answer c r := by
  cases c <;> cases r <;> rfl

theorem snprintf_snprintf : snprintf len (snprintf len s) = snprintf len s := by
  rw [snprintf, snprintf, List.take_take, Nat.min_self]

theorem dbQuery_cut {text : CString} (h : db.dbQuery name len = .ok text) :
    snprintf len text = text := by
  obtain ⟨⟨target, parent⟩, -, h⟩ := bind_ok h
  dsimp only at h
  split_ifs at h
  · cases h
    exact snprintf_snprintf
  · obtain ⟨n, -, h⟩ := bind_ok h
    cases h
    exact snprintf_snprintf

/-- One command: the call or the file that it asks for. -/
theorem interpretCommand_request : interpretCommand files len (fuel + 1) db command =
    match request len command with
    | .illFormed => .ok (snprintf len illFormed, db)
    | .call c => do
      let (r, db) ← c.run db
      return (snprintf len (answer c r), db)
    | .file name =>
      match files name with
      | none => .ok (snprintf len (bytes "bad file name"), db)
      | some content => do
        let db ← runLines files len fuel db (fileCommands content)
        return (snprintf len (bytes "file processed"), db) := by
  rw [interpretCommand, request]
  by_cases hlen : command.length ≤ 1
  · simp only [hlen, if_true]
    rfl
  · simp only [hlen, if_false]
    cases hscan : scanWord command.tail with
    | none =>
      simp only
      split_ifs <;> rfl
    | some r =>
      obtain ⟨name, rest⟩ := r
      simp only
      split_ifs with hq ha hd hf
      · -- query
        simp only [Call.run]
        cases htext : db.dbQuery name len with
        | error f => rfl
        | ok text =>
          have hcut := dbQuery_cut htext
          simp only [ok_bind, pure, Except.pure, answer]
          split_ifs
          · rfl
          · rw [hcut]
      · -- add
        cases hscan' : scanWord rest with
        | none => rfl
        | some r =>
          obtain ⟨value, rest'⟩ := r
          simp only [Call.run]
          cases hadd : db.dbAdd name value with
          | error f => rfl
          | ok r =>
            simp only [ok_bind, pure, Except.pure, answer]
            split_ifs <;> rfl
      · -- delete
        simp only [Call.run]
        cases hremove : db.dbRemove name with
        | error f => rfl
        | ok r =>
          simp only [ok_bind, pure, Except.pure, answer]
          split_ifs <;> rfl
      · -- the commands of a file
        dsimp only
        cases files name <;> rfl
      · rfl

/-! ## Words -/

theorem scanWord_token (hs : 0 ∉ s) (h : scanWord s = some (word, rest)) :
    Token word ∧ 0 ∉ rest := by
  obtain ⟨hplain, hrest⟩ := scanWord_plain hs h
  refine ⟨⟨?_, ?_, hplain.noNul, hplain.length⟩, hrest⟩
  all_goals
    unfold scanWord at h
    dsimp only at h
    split_ifs at h with hnil
    cases h
  · obtain ⟨b, s', hdrop⟩ := List.exists_cons_of_ne_nil hnil
    have hb : isspace b = false := by
      have hhead := List.head?_dropWhile_not isspace s
      rw [hdrop] at hhead
      simpa using hhead
    rw [hdrop, List.takeWhile_cons_of_pos (by simp [hb])]
    exact List.cons_ne_nil _ _
  · intro c hc
    have := List.mem_takeWhile_imp (List.mem_of_mem_take hc)
    simpa using this

theorem Call.Words.legal (h : c.Words) : c.Legal := by
  cases c with
  | query name len => exact ⟨h.ne_nil, h.length⟩
  | add name value => exact ⟨⟨h.1.ne_nil, h.1.length⟩, h.2.ne_nil, h.2.length⟩
  | remove name => exact ⟨h.ne_nil, h.length⟩

theorem request_words (hc : 0 ∉ command) (h : request len command = .call c) : c.Words := by
  have hargs : 0 ∉ command.tail := fun hm => hc (List.mem_of_mem_tail hm)
  by_cases hlen : command.length ≤ 1
  · simp [request, hlen] at h
  · cases hname : scanWord command.tail with
    | none => simp [request, hlen, hname] at h
    | some r =>
      obtain ⟨name, rest⟩ := r
      obtain ⟨htoken, hrest⟩ := scanWord_token hargs hname
      simp only [request, hlen, hname, if_false] at h
      split_ifs at h
      · cases h
        exact htoken
      · cases hvalue : scanWord rest with
        | none => simp [hvalue] at h
        | some r =>
          simp only [hvalue, Request.call.injEq] at h
          subst h
          exact ⟨htoken, (scanWord_token hrest hvalue).1⟩
      · cases h
        exact htoken

/-- Every name and every value of a map is a word. -/
def Tokens (m : Contents) : Prop :=
  ∀ x v, m x = some v → Token x ∧ Token v

theorem Tokens.update {o : Option CString} (hm : Tokens m)
    (ho : ∀ v, o = some v → Token name ∧ Token v) : Tokens (Function.update m name o) := by
  intro x v hv
  by_cases hx : x = name
  · subst hx
    rw [Function.update_self] at hv
    exact ho v hv
  · rw [Function.update_of_ne hx] at hv
    exact hm x v hv

theorem Tokens.spec (hm : Tokens m) (hc : c.Words) : Tokens (c.spec m).2 := by
  cases c with
  | query name len => exact hm
  | add name value =>
    rw [Call.spec]
    split_ifs
    · exact hm.update fun v hv => Option.some.inj hv ▸ hc
    · exact hm
  | remove name =>
    rw [Call.spec]
    split_ifs
    · exact hm
    · exact hm.update fun v hv => absurd hv (by simp)

/-! ## What a command leaves behind -/

/-- A command or a line returns, overflows, or is cut off. It returns exactly when its
copies fit. -/
inductive Ends {β : Type} (good : β → Prop) (fits : Prop) : Except Fault β → Prop
  | returns {b : β} : good b → fits → Ends good fits (.ok b)
  | overflows : ¬ fits → Ends good fits (.error .overflow)
  | diverges : Ends good fits (.error .diverges)

theorem Ends.bind {α β : Type} {good : α → Prop} {good' : β → Prop} {fits : Prop}
    {fits' : α → Prop} {x : Except Fault α} {f : α → Except Fault β} (h : Ends good fits x)
    (hf : ∀ a, good a → Ends good' (fits' a) (f a)) :
    Ends good' (fits ∧ ∀ a, x = .ok a → fits' a) (x >>= f) := by
  cases h with
  | overflows hfits => exact .overflows fun h => hfits h.1
  | diverges => exact .diverges
  | @returns a hgood hfits =>
    have hiff : (fits ∧ ∀ b, Except.ok a = Except.ok (ε := Fault) b → fits' b) ↔ fits' a :=
      ⟨fun h => h.2 a rfl, fun h => ⟨hfits, fun b hb => Except.ok.inj hb ▸ h⟩⟩
    rw [hiff]
    exact hf a hgood

theorem Ends.map {α β : Type} {good : α → Prop} {good' : β → Prop} {fits : Prop}
    {x : Except Fault α} {f : α → β} (h : Ends good fits x) (hf : ∀ a, good a → good' (f a)) :
    Ends good' fits (x >>= fun a => pure (f a)) := by
  cases h with
  | overflows hfits => exact .overflows hfits
  | diverges => exact .diverges
  | returns hgood hfits => exact .returns (hf _ hgood) hfits

theorem bind_error {α β : Type} {x : Except Fault α} {f : α → Except Fault β} {e : Fault}
    (h : x >>= f = .error e) : x = .error e ∨ ∃ a, x = .ok a ∧ f a = .error e := by
  cases x with
  | error e' =>
    cases h
    exact Or.inl rfl
  | ok a => exact Or.inr ⟨a, rfl, h⟩

/-- A property of every command of a list, in the memory that the commands before it
have left. -/
def Along (run : Db → CString → Except Fault (CString × Db)) (P : Db → CString → Prop) :
    Db → List CString → Prop
  | _, [] => True
  | db, c :: cs => P db c ∧ ∀ r, run db c = .ok r → Along run P r.2 cs

/-- The copies of every removal that the command makes fit, also of those in the files
it interprets. -/
def CopiesFit (files : Files) (len : Nat) : Nat → Db → CString → Prop
  | 0, _, _ => True
  | fuel + 1, db, command =>
    match request len command with
    | .illFormed => True
    | .call c => c.Fits db
    | .file name =>
      match files name with
      | none => True
      | some content =>
        Along (interpretCommand files len fuel) (CopiesFit files len fuel) db
          (fileCommands content)

/-- The memory is a search tree of words. -/
def Kept (db : Db) : Prop :=
  ∃ t, Good db t ∧ Tokens (contents t)

theorem kept_init : Kept Db.init :=
  ⟨leaf, good_init, fun _ _ h => by cases h⟩

theorem ends_lines (run : Db → CString → Except Fault (CString × Db)) {P : Db → CString → Prop}
    (hrun : ∀ db, ∀ c ∈ commands, Kept db → Ends (fun r => Kept r.2) (P db c) (run db c))
    (hk : Kept db) : Ends Kept (Along run P db commands)
      (commands.foldlM (fun db ibuf => do
        let (_, db) ← run db ibuf
        return db) db) := by
  induction commands generalizing db with
  | nil => exact .returns hk trivial
  | cons c cs ih =>
    rw [List.foldlM_cons, Along, bind_assoc]
    refine (hrun db c List.mem_cons_self hk).bind fun r hr => ?_
    exact ih (fun db c hc => hrun db c (List.mem_cons_of_mem _ hc)) hr

theorem Kept.call (hk : Kept db) (hc : c.Words) :
    Ends (fun r : Result × Db => Kept r.2) (c.Fits db) (c.run db) := by
  obtain ⟨t, hg, htok⟩ := hk
  obtain ⟨hok, hover⟩ := hg.call hc.legal
  by_cases hfits : c.Fits db
  · obtain ⟨db', t', hrun, hg', hmap⟩ := hok hfits
    rw [hrun]
    refine .returns ⟨t', hg', ?_⟩ hfits
    change Tokens fun x => t'.lookup ↑x
    rw [hmap]
    exact htok.spec hc
  · rw [hover hfits]
    exact .overflows hfits

theorem Kept.call_ends (hk : Kept db) (hc : c.Words) : c.run db ≠ .error .diverges := by
  obtain ⟨t, hg, -⟩ := hk
  obtain ⟨hok, hover⟩ := hg.call hc.legal
  intro h
  by_cases hfits : c.Fits db
  · obtain ⟨db', t', hrun, -⟩ := hok hfits
    rw [hrun] at h
    cases h
  · rw [hover hfits] at h
    cases h

theorem Kept.ends (files : Files) (len fuel : Nat) (hk : Kept db) (hc : 0 ∉ command) :
    Ends (fun r => Kept r.2) (CopiesFit files len fuel db command)
      (interpretCommand files len fuel db command) := by
  induction fuel generalizing db command with
  | zero => exact .diverges
  | succ fuel ih =>
    rw [interpretCommand_request, CopiesFit]
    cases hreq : request len command with
    | illFormed => exact .returns hk trivial
    | call c => exact (hk.call (request_words hc hreq)).map fun r hr => hr
    | file name =>
      dsimp only
      cases files name with
      | none => exact .returns hk trivial
      | some content =>
        have hlines : Ends Kept _ (runLines files len fuel db (fileCommands content)) :=
          ends_lines _ (fun db c hmem hdb => ih hdb (fileCommands_noNul hmem)) hk
        exact hlines.map fun db hdb => hdb

/-- The databases that calls of `interpret_command` lead to. -/
inductive Served : Db → Prop
  | init : Served Db.init
  | call {files : Files} {len fuel : Nat} {db db' : Db} {command response : CString} :
      Served db → 0 ∉ command →
      interpretCommand files len fuel db command = .ok (response, db') → Served db'

theorem Served.kept (hs : Served db) : Kept db := by
  induction hs with
  | init => exact kept_init
  | @call files len fuel _ _ _ _ _ hc hrun ih =>
    have hends := ih.ends files len fuel hc
    rw [hrun] at hends
    cases hends with
    | returns hk _ => exact hk

end CourseProjects.Database

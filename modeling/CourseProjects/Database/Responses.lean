import CourseProjects.Database.Comm
import CourseProjects.Database.Requests

/-!
# One line for every command

A command is answered by one line, the same for every buffer that is large enough,
unless a removal on its way overruns the buffers of a node.
-/

namespace CourseProjects.Database

open TreeHeap SearchTree SearchTree.Tree
open ByteStream (lines)

/-- A node of the database has the name. -/
def Stored (db : Db) (name : CString) : Prop :=
  ∃ a n, a ≠ head ∧ db.mem a = some n ∧ n.name = name

/-- The response is one line that is not cut off, and a query tells whether there is
an entry. -/
def Answered (files : Files) (fuel : Nat) (db : Db) (command : CString) : Prop :=
  ∃ response db',
    (∀ len, 1024 ≤ len → interpretCommand files len fuel db command = .ok (response, db')) ∧
    Line response ∧
    ∀ args name rest, command = 113 :: args → scanWord args = some (name, rest) →
      (response = bytes "not found" ↔ ¬ Stored db name)

variable {files : Files} {len len' fuel : Nat} {db db' : Db} {t : NTree} {c : Call} {r : Result}
  {name s command response : CString} {commands : List CString}

theorem Good.stored_iff (hg : Good db t) : Stored db name ↔ t.lookup ↑name ≠ none := by
  constructor
  · rintro ⟨a, n, hah, hn, rfl⟩
    simp [hg.lookup_of_mem hn hah]
  · intro hlook
    obtain ⟨res, -, hfound⟩ := hg.search name
    cases hfound with
    | missing hp hn h0 => exact absurd (hg.holds.lookup_none hp hn h0) hlook
    | @found p n dn hp hn h0 hd hname =>
      obtain ⟨l, k, v, r, l', r', m, -, -, hsub, -⟩ := hg.holds.child hp hn h0
      exact ⟨_, dn, hg.holds.ne_head hsub.mem, hd, hname.symm⟩

/-! ## The answer of a call -/

theorem snprintf_full (hs : s.length ≤ 255) (hlen : 256 ≤ len) : snprintf len s = s :=
  List.take_of_length_le (by omega)

theorem Token.line (h : Token s) : Line s := by
  refine ⟨h.ne_nil, h.noNul, fun hm => ?_, h.length⟩
  have := h.word newline hm
  exact absurd this (by decide)

/-- A query is answered by the value or by the text for a name that is not stored. -/
theorem answer_query {n : Nat} (hv : ∀ v, t.lookup ↑name = some v → Token v) (hlen : 256 ≤ len) :
    answer (.query name n) (.text (snprintf len ((t.lookup ↑name).getD Db.dbQuery.notFound))) =
      (t.lookup ↑name).getD (bytes "not found") := by
  cases hlook : t.lookup ↑name with
  | none =>
    have htext : snprintf len Db.dbQuery.notFound = Db.dbQuery.notFound :=
      snprintf_full (by decide) hlen
    rw [Option.getD_none, Option.getD_none, answer, htext]
    decide
  | some v =>
    have hne : ¬ v.length = 0 := by simpa using (hv v hlook).ne_nil
    rw [Option.getD_some, Option.getD_some, snprintf_full (hv v hlook).length hlen, answer,
      if_neg hne]

/-- Every call is answered by a line, when the buffer is large enough. -/
theorem Kept.answer_line (hk : Kept db) (hc : c.Words) (hlen : 256 ≤ len)
    (h : (c.atLen len).run db = .ok (r, db')) : Line (answer c r) := by
  obtain ⟨t, hg, htok⟩ := hk
  cases c with
  | query name n =>
    rw [Call.atLen, Call.run, hg.dbQuery, ok_bind] at h
    cases h
    rw [answer_query (fun v hlook => (htok name v hlook).2) hlen]
    cases hlook : t.lookup ↑name with
    | none => exact ⟨by decide, by decide, by decide, by decide⟩
    | some v => exact (htok name v hlook).2.line
  | add name value =>
    obtain ⟨⟨i, db1⟩, -, h⟩ := bind_ok h
    cases h
    rw [answer]
    split_ifs <;> exact ⟨by decide, by decide, by decide, by decide⟩
  | remove name =>
    obtain ⟨⟨i, db1⟩, -, h⟩ := bind_ok h
    cases h
    rw [answer]
    split_ifs <;> exact ⟨by decide, by decide, by decide, by decide⟩

theorem Kept.query_answer (hk : Kept db) (hlen : 256 ≤ len)
    (h : (Call.query name len).run db = .ok (r, db')) :
    answer (.query name len) r = bytes "not found" ↔ ¬ Stored db name := by
  obtain ⟨t, hg, htok⟩ := hk
  rw [Call.run, hg.dbQuery, ok_bind] at h
  cases h
  rw [hg.stored_iff, not_not, answer_query (fun v hlook => (htok name v hlook).2) hlen]
  cases hlook : t.lookup ↑name with
  | none => exact iff_of_true rfl rfl
  | some v =>
    rw [Option.getD_some]
    constructor
    · intro heq
      -- a word has no space
      have := (htok name v hlook).2.word 32 (heq ▸ by decide)
      exact absurd this (by decide)
    · exact fun h => by cases h

/-! ## The size of the response buffer -/

theorem Kept.run_atLen (hk : Kept db) (c : Call) (hlen : 256 ≤ len) (hlen' : 256 ≤ len') :
    (c.atLen len).run db = (c.atLen len').run db := by
  obtain ⟨t, hg, htok⟩ := hk
  cases c with
  | query name n =>
    have hv : ((t.lookup ↑name).getD Db.dbQuery.notFound).length ≤ 255 := by
      cases hlook : t.lookup ↑name with
      | none => decide
      | some v => exact (htok name v hlook).2.length
    rw [Call.atLen, Call.atLen, Call.run, Call.run, hg.dbQuery, hg.dbQuery, snprintf_full hv hlen,
      snprintf_full hv hlen']
  | add name value => rfl
  | remove name => rfl

theorem runLines_len (hrun : ∀ db, ∀ c ∈ commands, Kept db →
      interpretCommand files len fuel db c = interpretCommand files len' fuel db c)
    (hnul : ∀ c ∈ commands, 0 ∉ c) (hk : Kept db) :
    runLines files len fuel db commands = runLines files len' fuel db commands := by
  induction commands generalizing db with
  | nil => rfl
  | cons c cs ih =>
    have hends := hk.ends files len' fuel (hnul c List.mem_cons_self)
    rw [runLines, runLines, List.foldlM_cons, List.foldlM_cons, hrun db c List.mem_cons_self hk]
    generalize interpretCommand files len' fuel db c = x at hends ⊢
    cases hends with
    | returns hk' _ =>
      exact ih (fun db c hc => hrun db c (List.mem_cons_of_mem _ hc))
        (fun c hc => hnul c (List.mem_cons_of_mem _ hc)) hk'
    | overflows => rfl
    | diverges => rfl

/-- The response is not cut off: a larger buffer makes no difference. -/
theorem Kept.len_eq (hk : Kept db) (hc : 0 ∉ command) (hlen : 256 ≤ len) (hlen' : 256 ≤ len') :
    interpretCommand files len fuel db command = interpretCommand files len' fuel db command := by
  induction fuel generalizing db command with
  | zero => rfl
  | succ fuel ih =>
    rw [interpretCommand_request, interpretCommand_request, request_atLen 0 len,
      request_atLen 0 len']
    cases hreq : request 0 command with
    | illFormed =>
      simp only [Request.atLen]
      rw [snprintf_full (by decide) hlen, snprintf_full (by decide) hlen']
    | call c =>
      have hwords : c.Words := request_words hc hreq
      simp only [Request.atLen, answer_atLen]
      rw [hk.run_atLen c hlen hlen']
      cases hrun : (c.atLen len').run db with
      | error f => rfl
      | ok r =>
        have hline := hk.answer_line hwords hlen' hrun
        rw [ok_bind, ok_bind, snprintf_full hline.2.length hlen, snprintf_full hline.2.length hlen']
    | file name =>
      simp only [Request.atLen]
      cases files name with
      | none =>
        dsimp only
        rw [snprintf_full (by decide) hlen, snprintf_full (by decide) hlen']
      | some content =>
        dsimp only
        rw [runLines_len (fun db c hmem hdb => ih hdb (fileCommands_noNul hmem))
          (fun c hmem => fileCommands_noNul hmem) hk, snprintf_full (by decide) hlen,
          snprintf_full (by decide) hlen']

theorem Kept.line (hk : Kept db) (hc : 0 ∉ command) (hlen : 256 ≤ len)
    (h : interpretCommand files len fuel db command = .ok (response, db')) : Line response := by
  cases fuel with
  | zero => cases h
  | succ fuel =>
    rw [interpretCommand_request, request_atLen 0 len] at h
    cases hreq : request 0 command with
    | illFormed =>
      rw [hreq] at h
      cases h
      rw [snprintf_full (by decide) hlen]
      exact ⟨by decide, by decide, by decide, by decide⟩
    | call c =>
      simp only [hreq, Request.atLen, answer_atLen] at h
      obtain ⟨⟨r, db1⟩, hrun, h⟩ := bind_ok h
      have hline := hk.answer_line (request_words hc hreq) hlen hrun
      cases h
      rwa [snprintf_full hline.2.length hlen]
    | file name =>
      simp only [hreq, Request.atLen] at h
      cases hfile : files name with
      | none =>
        rw [hfile] at h
        cases h
        rw [snprintf_full (by decide) hlen]
        exact ⟨by decide, by decide, by decide, by decide⟩
      | some content =>
        rw [hfile] at h
        obtain ⟨db1, -, h⟩ := bind_ok h
        cases h
        rw [snprintf_full (by decide) hlen]
        exact ⟨by decide, by decide, by decide, by decide⟩

theorem request_query {args rest : CString} (h : scanWord args = some (name, rest)) :
    request len (113 :: args) = .call (.query name len) := by
  have hne : args ≠ [] := by
    rintro rfl
    cases h
  have hlong : ¬ (113 :: args : CString).length ≤ 1 := by
    have := List.length_pos_iff.mpr hne
    rw [List.length_cons]
    omega
  simp [request, h, hne]

theorem Kept.query_response {args rest : CString} (hk : Kept db) (hlen : 256 ≤ len)
    (hc : 0 ∉ (113 :: args : CString)) (hscan : scanWord args = some (name, rest))
    (h : interpretCommand files len fuel db (113 :: args) = .ok (response, db')) :
    response = bytes "not found" ↔ ¬ Stored db name := by
  cases fuel with
  | zero => cases h
  | succ fuel =>
    have hreq : request len (113 :: args) = .call ((Call.query name len).atLen len) :=
      request_query hscan
    rw [interpretCommand_request, hreq] at h
    obtain ⟨⟨r, db1⟩, hrun, h⟩ := bind_ok h
    have hline := hk.answer_line (request_words hc (request_query hscan)) hlen hrun
    cases h
    rw [answer_atLen, snprintf_full hline.2.length hlen]
    exact hk.query_answer hlen hrun

/-! ## The lines of a connection -/

/-- The response buffer of `run_client`, what `comm_serve` has sent, and the commands
that were read with their responses. -/
structure Connection where
  db : Db
  response : CString
  output : List (Fin 256)
  answered : List (CString × CString)

inductive Turn
  | serve
  | others

/-- `comm_serve` sends the response in the buffer and reads a command, which is then
interpreted. Other connections change the database in between. -/
inductive Connection.Step : Connection → Turn → Connection → Prop
  | serve {s : Connection} {files : Files} {fuel : Nat} {command response : CString} {db : Db} :
      0 ∉ command → command.length ≤ bufLen - 1 → command.head? ≠ some eof →
      interpretCommand files 1024 fuel s.db command = .ok (response, db) →
      Step s .serve ⟨db, response, s.output ++ Comm.sent s.response,
        s.answered ++ [(command, response)]⟩
  | others {s : Connection} {files : Files} {len fuel : Nat} {command response : CString} {db : Db} :
      0 ∉ command → interpretCommand files len fuel s.db command = .ok (response, db) →
      Step s .others { s with db := db }

/-- `char response[1024] = ""`. -/
def connection : Transition.System Connection Turn where
  init s := Served s.db ∧ s.response = [] ∧ s.output = [] ∧ s.answered = []
  step := Connection.Step

/-- With the next `comm_serve`, one line has been sent for every command: its response. -/
def LinePerCommand (s : Connection) : Prop :=
  lines newline (s.output ++ Comm.sent s.response) = s.answered.map fun r => r.2 ++ [newline]

/-- What is sent in every state of a connection. -/
structure Sending (s : Connection) : Prop where
  served : Served s.db
  line : ∀ r ∈ s.answered, Line r.2
  sent : s.output ++ Comm.sent s.response = (s.answered.map fun r => r.2 ++ [newline]).flatten

theorem sending_invariant : connection.Invariant Sending := by
  constructor
  · rintro s ⟨hdb, hresponse, houtput, hanswered⟩
    refine ⟨hdb, by simp [hanswered], ?_⟩
    rw [hresponse, houtput, hanswered]
    rfl
  · rintro s turn s' ⟨hdb, hlines, hsent⟩ hstep
    cases hstep with
    | @serve files fuel command response db hc _ _ hrun =>
      have hline : Line response := hdb.kept.line hc (by decide) hrun
      refine ⟨hdb.call hc hrun, ?_, ?_⟩
      · intro r hr
        rcases List.mem_append.mp hr with hr | hr
        · exact hlines r hr
        · rw [List.mem_singleton.mp hr]
          exact hline
      · simp [hsent, Comm.sent_line hline]
    | others hc hrun => exact ⟨hdb.call hc hrun, hlines, hsent⟩

theorem Sending.linePerCommand {s : Connection} (h : Sending s) : LinePerCommand s := by
  obtain ⟨db, response, output, answered⟩ := s
  have hlines := h.line
  unfold LinePerCommand
  rw [h.sent]
  dsimp only at hlines ⊢
  clear h
  induction answered with
  | nil => rfl
  | cons r rs ih =>
    rw [List.map_cons, List.flatten_cons, List.append_assoc, List.singleton_append,
      ByteStream.lines_line (hlines r List.mem_cons_self).2.line,
      ih fun r hr => hlines r (List.mem_cons_of_mem _ hr)]

/-- **A command is answered by one complete line** if and only if no removal on its way
overruns a buffer, and a connection has one line for every command. -/
theorem answered_iff (files : Files) (fuel : Nat) (hs : Served db) (hc : 0 ∉ command)
    (hends : interpretCommand files 1024 fuel db command ≠ .error .diverges) :
    (Answered files fuel db command ↔ CopiesFit files 1024 fuel db command) ∧
      ∀ s, connection.Reachable s → LinePerCommand s := by
  constructor
  · have hk := hs.kept
    have hresult := hk.ends files 1024 fuel hc
    generalize hx : interpretCommand files 1024 fuel db command = x at hresult hends
    cases hresult with
    | diverges => exact absurd rfl hends
    | overflows hfits =>
      refine iff_of_false ?_ hfits
      rintro ⟨response, db', hall, -⟩
      cases hx.symm.trans (hall 1024 (Nat.le_refl 1024))
    | @returns r hk' hfits =>
      obtain ⟨response, db'⟩ := r
      refine iff_of_true ⟨response, db', fun len hlen => ?_, hk.line hc (by decide) hx, ?_⟩ hfits
      · rw [← hx]
        exact hk.len_eq hc (by omega) (by decide)
      · rintro args name rest rfl hscan
        exact hk.query_response (by decide) hc hscan hx
  · exact fun s hreach => (hreach.rule sending_invariant).linePerCommand

theorem served_runLines (hs : Served db) (hnul : ∀ c ∈ commands, 0 ∉ c)
    (h : runLines files len fuel db commands = .ok db') : Served db' := by
  induction commands generalizing db with
  | nil =>
    cases h
    exact hs
  | cons c cs ih =>
    rw [runLines, List.foldlM_cons] at h
    obtain ⟨db1, hc, hrest⟩ := bind_ok h
    obtain ⟨⟨response, db2⟩, hr, heq⟩ := bind_ok hc
    cases heq
    exact ih (hs.call (hnul c List.mem_cons_self) hr)
      (fun c hc => hnul c (List.mem_cons_of_mem _ hc)) hrest

/-- "a m 1", "a a 1", and "a" with a name of 255 bytes. -/
def longRight : List CString :=
  [[97, 32, 109, 32, 49], [97, 32, 97, 32, 49], 97 :: 32 :: (List.replicate 255 122 ++ [32, 49])]

theorem exists_longRight {P : Db → Bool} (h : ((runLines Comm.noFiles 1024 1 Db.init
    longRight).toOption.any P) = true) : ∃ db, Served db ∧ P db = true := by
  cases hrun : runLines Comm.noFiles 1024 1 Db.init longRight with
  | error f =>
    rw [hrun] at h
    cases h
  | ok db =>
    rw [hrun] at h
    exact ⟨db, served_runLines .init (by decide +kernel) hrun, h⟩

/-- The removal of "a" is answered. -/
theorem longRight_answered : ∃ db, Served db ∧
    (Answered Comm.noFiles 1 db [100, 32, 97] ↔
      CopiesFit Comm.noFiles 1024 1 db [100, 32, 97]) := by
  obtain ⟨db, hs, hrun⟩ := exists_longRight (P := fun db =>
    (interpretCommand Comm.noFiles 1024 1 db [100, 32, 97]).toBool) (by decide +kernel)
  refine ⟨db, hs, (answered_iff Comm.noFiles 1 hs (by decide) fun h => ?_).1⟩
  rw [h] at hrun
  cases hrun

/-- The removal of "m" overruns the buffer of its node. -/
theorem longRight_not_answered : ∃ db, Served db ∧
    interpretCommand Comm.noFiles 1024 1 db [100, 32, 109] ≠ .error .diverges ∧
    ¬ Answered Comm.noFiles 1 db [100, 32, 109] := by
  obtain ⟨db, hs, hrun⟩ := exists_longRight (P := fun db =>
    match interpretCommand Comm.noFiles 1024 1 db [100, 32, 109] with
    | .error e => decide (e = .overflow)
    | .ok _ => false) (by decide +kernel)
  refine ⟨db, hs, fun h => ?_, ?_⟩
  · rw [h] at hrun
    cases hrun
  · rintro ⟨response, db', hall, -⟩
    rw [hall 1024 (Nat.le_refl 1024)] at hrun
    cases hrun

end CourseProjects.Database

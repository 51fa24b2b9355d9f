import CourseProjects.Database.Interpret
import CourseProjects.Lib.Transition

/-!
# One client and the server

The client sends a line and waits for a line. `comm_serve` sends the response to
the last command and reads the next one. The buffers of the client have 1024
bytes, `BUFLEN` is 256. The connection is a queue of bytes in each direction.
-/

namespace CourseProjects.Database

open ByteStream (cut lines)

def bufSize : Nat :=
  1024

def bufLen : Nat :=
  256

/-- `EOF`, when a (signed) `char` is compared with it. -/
def eof : Fin 256 :=
  255

/-- The C string at the start of a buffer. -/
def cString (buf : List (Fin 256)) : CString :=
  buf.takeWhile fun c => c ≠ 0

namespace Comm

inductive Client
  | send
  | receive
  | exited

inductive Server
  | serve
  | interpret (command : CString)
  | closed

/-- `qbuf` holds the bytes that `fgets` stored last. The last three fields
record the calls of `interpret_command`, the responses with their commands and
what the client printed. -/
structure State where
  infile : List (Fin 256)
  qbuf : List (Fin 256)
  client : Client
  toServer : List (Fin 256)
  server : Server
  toClient : List (Fin 256)
  db : Db
  calls : List CString
  responses : List (CString × CString)
  printed : List CString

/-- When `fgets` with room for `n` bytes returns a string. -/
def Available (n : Nat) (input : List (Fin 256)) (ended : Prop) : Prop :=
  input ≠ [] ∧ (newline ∈ input.take n ∨ n ≤ input.length ∨ ended)

/-- What `comm_serve` and `fputc` write for a response. -/
def sent (response : CString) : List (Fin 256) :=
  if response.length > 0 then response ++ [newline] else []

inductive Act
  | send
  | quit
  | serve
  | hangUp
  | respond (fuel : Nat)
  | fail (fuel : Nat)
  | receive
  | giveUp
  | others (command : CString) (fuel : Nat)

inductive Step (files : Files) : State → Act → State → Prop
  | send {s : State} : s.client = .send → s.infile ≠ [] →
      Step files s .send { s with
        infile := (cut newline (bufSize - 1) s.infile).2
        qbuf := (cut newline (bufSize - 1) s.infile).1
        toServer := s.toServer ++ cString (cut newline (bufSize - 1) s.infile).1
        client := .receive }
  -- `qbuf[0] = EOF`
  | quit {s : State} : s.client = .send → s.infile = [] →
      Step files s .quit { s with
        toServer := s.toServer ++ eof :: cString s.qbuf.tail
        client := .exited }
  | serve {s : State} {command : CString} :
      s.server = .serve → Available (bufLen - 1) s.toServer (s.client = .exited) →
      command = cString (cut newline (bufLen - 1) s.toServer).1 → command.head? ≠ some eof →
      Step files s .serve { s with
        toServer := (cut newline (bufLen - 1) s.toServer).2
        server := .interpret command
        calls := s.calls ++ [command] }
  | serveEof {s : State} :
      s.server = .serve → Available (bufLen - 1) s.toServer (s.client = .exited) →
      (cString (cut newline (bufLen - 1) s.toServer).1).head? = some eof →
      Step files s .serve { s with
        toServer := (cut newline (bufLen - 1) s.toServer).2
        server := .closed }
  -- the client has closed the connection
  | hangUp {s : State} : s.server = .serve → s.client = .exited →
      Step files s .hangUp { s with server := .closed }
  | respond {s : State} {command response : CString} {db : Db} {fuel : Nat} :
      s.server = .interpret command →
      interpretCommand files 1024 fuel s.db command = .ok (response, db) →
      Step files s (.respond fuel) { s with
        server := .serve
        db := db
        toClient := s.toClient ++ sent response
        responses := s.responses ++ [(command, response)] }
  -- `fflush` cannot write while the stream has bytes that are not read yet, nor to a client
  -- that is gone, and `comm_serve` returns -1
  | fail {s : State} {command response : CString} {db : Db} {fuel : Nat} :
      s.server = .interpret command →
      interpretCommand files 1024 fuel s.db command = .ok (response, db) → response.length > 0 →
      s.toServer ≠ [] ∨ s.client = .exited →
      Step files s (.fail fuel) { s with server := .closed, db := db }
  | receive {s : State} :
      s.client = .receive → Available (bufSize - 1) s.toClient (s.server = .closed) →
      Step files s .receive { s with
        toClient := (cut newline (bufSize - 1) s.toClient).2
        client := .send
        printed := s.printed ++ [cString (cut newline (bufSize - 1) s.toClient).1] }
  -- "Connection terminated."
  | giveUp {s : State} : s.client ≠ .exited → s.server = .closed →
      Step files s .giveUp { s with client := .exited }
  -- a command of another client
  | others {s : State} {command response : CString} {db : Db} {fuel : Nat} :
      0 ∉ command → interpretCommand files 1024 fuel s.db command = .ok (response, db) →
      Step files s (.others command fuel) { s with db := db }

/-- The client has opened its script, and the server runs `run_client` for it. -/
def Start (script : List (Fin 256)) (s : State) : Prop :=
  s.infile = script ∧ s.client = .send ∧ s.toServer = [] ∧ s.server = .serve ∧
    s.toClient = [] ∧ Clean s.db ∧ s.calls = [] ∧ s.responses = [] ∧ s.printed = []

def start (script : List (Fin 256)) : State :=
  ⟨script, [0], .send, [], .serve, [], Db.init, [], [], []⟩

def system (files : Files) (script : List (Fin 256)) : Transition.System State Act where
  init := Start script
  step := Step files

/-! ## One line is one command -/

/-- A script of newline-terminated lines for a client with a buffer of 1024 bytes. -/
structure Script (script : List (Fin 256)) : Prop where
  noNul : 0 ∉ script
  line : ∀ l ∈ lines newline script, l.getLast? = some newline ∧ l.length ≤ bufSize - 1

/-- What the server reads as one command. -/
def Fits (l : List (Fin 256)) : Prop :=
  l.length ≤ bufLen - 1 ∧ l.head? ≠ some eof

instance (l : List (Fin 256)) : Decidable (Fits l) :=
  inferInstanceAs (Decidable (_ ∧ _))

/-- The session is over, or waits for `interpret_command`, or goes on. -/
def Live (files : Files) (s : State) : Prop :=
  s.client = .exited ∨ (∃ command, s.server = .interpret command) ∨
    ∃ a s', Step files s a s' ∧ ∀ command fuel, a ≠ .others command fuel

/-! ## The phases of a session -/

variable {files : Files} {script l rest buf : List (Fin 256)} {s s' : State} {a : Act}
  {past : List (CString × CString)} {n : Nat}

theorem cString_of_noNul (h : 0 ∉ buf) : cString buf = buf := by
  unfold cString
  rw [List.takeWhile_eq_self_iff]
  intro c hc
  have : c ≠ 0 := fun h0 => h (h0 ▸ hc)
  simpa using this

/-- A line that both sides read as one. -/
structure Whole (l : List (Fin 256)) : Prop where
  line : ∃ body, l = body ++ [newline] ∧ newline ∉ body
  noNul : 0 ∉ l
  fits : Fits l

theorem Whole.cut (h : Whole l) (hn : bufLen - 1 ≤ n) (rest : List (Fin 256)) :
    cut newline n (l ++ rest) = (l, rest) := by
  obtain ⟨body, rfl, hbody⟩ := h.line
  have hlen := h.fits.1
  rw [List.length_append, List.length_singleton] at hlen
  rw [List.append_assoc]
  exact ByteStream.cut_line hbody (by omega)

theorem Whole.ne_nil (h : Whole l) : l ≠ [] := by
  obtain ⟨body, rfl, -⟩ := h.line
  simp

theorem Whole.newline_mem (h : Whole l) : newline ∈ l := by
  obtain ⟨body, rfl, -⟩ := h.line
  simp

theorem Script.whole (h : Script script) (hfits : ∀ l ∈ lines newline script, Fits l) :
    ∀ l ∈ lines newline script, Whole l := by
  intro l hl
  have hne : l ≠ [] := by
    rintro rfl
    cases (h.line [] hl).1
  have hlast : l.getLast hne = newline := by
    have := (h.line l hl).1
    rw [List.getLast?_eq_some_getLast hne] at this
    exact Option.some.inj this
  refine ⟨⟨l.dropLast, ?_, ByteStream.not_mem_dropLast_of_mem_lines hl⟩, ?_, hfits l hl⟩
  · rw [← hlast, List.dropLast_append_getLast hne]
  · intro h0
    apply h.noNul
    rw [← ByteStream.flatten_lines newline script]
    exact List.mem_flatten.mpr ⟨l, hl, h0⟩

theorem sent_line {response : CString} (h : Line response) : sent response = response ++ [newline] :=
  if_pos (List.length_pos_of_ne_nil h.1)

theorem cut_response {response : CString} (h : Line response) :
    cut newline (bufSize - 1) (response ++ [newline]) = (response ++ [newline], []) := by
  have := h.2.length
  exact ByteStream.cut_line h.2.line (by unfold bufSize; omega)

theorem cString_response {response : CString} (h : Line response) :
    cString (response ++ [newline]) = response ++ [newline] := by
  apply cString_of_noNul
  rw [List.mem_append, List.mem_singleton]
  rintro (h0 | h0)
  · exact h.2.noNul h0
  · exact absurd h0 (by decide)

/-- The server reads the one line that is there. -/
theorem cut_whole {l : CString} (h : Whole l) : cut newline (bufLen - 1) l = (l, []) := by
  have := h.cut (Nat.le_refl _) []
  rwa [List.append_nil] at this

/-- Whole lines are not empty, so only no lines make an empty text. -/
theorem flatten_eq_nil {rest : List CString} (hwhole : ∀ l ∈ rest, Whole l)
    (hnil : rest.flatten = []) : rest = [] := by
  cases rest with
  | nil => rfl
  | cons l rest =>
    have hl := hwhole l List.mem_cons_self
    exact absurd (List.append_eq_nil_iff.mp hnil).1 hl.ne_nil

/-- What the client prints for the commands and responses so far. -/
def shown (past : List (CString × CString)) : List CString :=
  past.map fun r => r.2 ++ [newline]

/-- Where a session of whole lines can stand. -/
inductive Phase (script : List (Fin 256)) : State → Prop
  | sending {past rest qbuf db} :
      lines newline script = past.map Prod.fst ++ rest → Clean db →
      Phase script ⟨rest.flatten, qbuf, .send, [], .serve, [], db, past.map Prod.fst, past,
        shown past⟩
  | sent {past l rest qbuf db} :
      lines newline script = past.map Prod.fst ++ l :: rest → Clean db →
      Phase script ⟨rest.flatten, qbuf, .receive, l, .serve, [], db, past.map Prod.fst, past,
        shown past⟩
  | interpreting {past l rest qbuf db} :
      lines newline script = past.map Prod.fst ++ l :: rest → Clean db →
      Phase script ⟨rest.flatten, qbuf, .receive, [], .interpret l, [], db,
        past.map Prod.fst ++ [l], past, shown past⟩
  | answered {past l rest qbuf response db} :
      lines newline script = past.map Prod.fst ++ l :: rest → Clean db → Line response →
      Phase script ⟨rest.flatten, qbuf, .receive, [], .serve, response ++ [newline], db,
        past.map Prod.fst ++ [l], past ++ [(l, response)], shown past⟩
  | exited {past qbuf rest db} :
      lines newline script = past.map Prod.fst → Clean db →
      Phase script ⟨[], qbuf, .exited, eof :: rest, .serve, [], db, past.map Prod.fst, past,
        shown past⟩
  | closed {past qbuf rest db} :
      lines newline script = past.map Prod.fst → Clean db →
      Phase script ⟨[], qbuf, .exited, rest, .closed, [], db, past.map Prod.fst, past,
        shown past⟩

theorem Phase.init (h : Start script s) : Phase script s := by
  obtain ⟨infile, qbuf, client, toServer, server, toClient, db, calls, responses, printed⟩ := s
  obtain ⟨rfl, rfl, rfl, rfl, rfl, hclean, rfl, rfl, rfl⟩ := h
  have := @Phase.sending infile [] (lines newline infile) qbuf db rfl hclean
  rwa [ByteStream.flatten_lines] at this

theorem Available.ne_nil {ended : Prop} (h : Available n [] ended) : False :=
  h.1 rfl

theorem shown_append (r : CString × CString) :
    shown (past ++ [r]) = shown past ++ [r.2 ++ [newline]] := by
  simp [shown]

theorem Phase.step (hwhole : ∀ l ∈ lines newline script, Whole l) (h : Phase script s)
    (hs : Step files s a s') : Phase script s' := by
  cases h with
  | @sending past rest qbuf db hlines hclean =>
    cases hs
    case send hc hne =>
      cases rest with
      | nil => exact absurd rfl hne
      | cons l rest =>
        have hl : Whole l := hwhole l (by simp [hlines])
        have hcut : cut newline (bufSize - 1) (l :: rest).flatten = (l, rest.flatten) :=
          hl.cut (by decide) rest.flatten
        dsimp only
        rw [hcut, cString_of_noNul hl.noNul]
        exact .sent hlines hclean
    case quit hc hnil =>
      have hrest : rest = [] :=
        flatten_eq_nil (fun l hl => hwhole l (hlines ▸ List.mem_append_right _ hl)) hnil
      subst hrest
      rw [List.append_nil] at hlines
      exact .exited hlines hclean
    case others hcmd hr => exact .sending hlines (interpretCommand_line hclean hcmd hr).2
    case serve _ hav _ _ => exact hav.ne_nil.elim
    case serveEof _ hav _ => exact hav.ne_nil.elim
    all_goals contradiction
  | @sent past l rest qbuf db hlines hclean =>
    have hl : Whole l := hwhole l (by simp [hlines])
    have hcut := cut_whole hl
    cases hs
    case serve hserver hav hcommand hhead =>
      dsimp only at hcommand ⊢
      rw [hcut, cString_of_noNul hl.noNul] at hcommand
      subst hcommand
      rw [hcut]
      exact .interpreting hlines hclean
    case serveEof hserver hav hhead =>
      dsimp only at hhead
      rw [hcut, cString_of_noNul hl.noNul] at hhead
      exact absurd hhead hl.fits.2
    case others hcmd hr => exact .sent hlines (interpretCommand_line hclean hcmd hr).2
    case receive hc hav => exact hav.ne_nil.elim
    all_goals contradiction
  | @interpreting past l rest qbuf db hlines hclean =>
    have hl : Whole l := hwhole l (by simp [hlines])
    cases hs
    case respond command response db' fuel hserver hr =>
      cases hserver
      obtain ⟨hline, hclean'⟩ := interpretCommand_line hclean hl.noNul hr
      dsimp only
      rw [sent_line hline]
      exact .answered hlines hclean' hline
    case fail _ _ hunread => simp at hunread
    case others hcmd hr => exact .interpreting hlines (interpretCommand_line hclean hcmd hr).2
    case receive hc hav => exact hav.ne_nil.elim
    all_goals contradiction
  | @answered past l rest qbuf response db hlines hclean hline =>
    cases hs
    case receive hc hav =>
      dsimp only
      rw [cut_response hline, cString_response hline]
      have := @Phase.sending script (past ++ [(l, response)]) rest qbuf db (by simpa using hlines)
        hclean
      rwa [shown_append, List.map_append] at this
    case others hcmd hr => exact .answered hlines (interpretCommand_line hclean hcmd hr).2 hline
    case serve _ hav _ _ => exact hav.ne_nil.elim
    case serveEof _ hav _ => exact hav.ne_nil.elim
    all_goals contradiction
  | @exited past qbuf rest db hlines hclean =>
    have hhead : (cString (cut newline (bufLen - 1) (eof :: rest)).1).head? = some eof := rfl
    cases hs
    case serve hserver hav hcommand hne =>
      subst hcommand
      exact absurd hhead hne
    case serveEof => exact .closed hlines hclean
    case hangUp => exact .closed hlines hclean
    case others hcmd hr => exact .exited hlines (interpretCommand_line hclean hcmd hr).2
    all_goals contradiction
  | @closed past qbuf rest db hlines hclean =>
    cases hs
    case others hcmd hr => exact .closed hlines (interpretCommand_line hclean hcmd hr).2
    case giveUp hc hserver => exact absurd rfl hc
    all_goals contradiction

theorem Phase.live (hwhole : ∀ l ∈ lines newline script, Whole l) (h : Phase script s) :
    Live files s := by
  cases h with
  | @sending past rest qbuf db hlines hclean =>
    refine .inr (.inr ?_)
    by_cases hrest : rest.flatten = []
    · exact ⟨.quit, _, .quit rfl hrest, nofun⟩
    · exact ⟨.send, _, .send rfl hrest, nofun⟩
  | @sent past l rest qbuf db hlines hclean =>
    have hl : Whole l := hwhole l (by simp [hlines])
    have hav : Available (bufLen - 1) l (Client.receive = .exited) := by
      refine ⟨hl.ne_nil, .inl ?_⟩
      rw [List.take_of_length_le hl.fits.1]
      exact hl.newline_mem
    have hcut := cut_whole hl
    refine .inr (.inr ⟨.serve, _, .serve rfl hav rfl ?_, nofun⟩)
    dsimp only
    rw [hcut, cString_of_noNul hl.noNul]
    exact hl.fits.2
  | interpreting hlines hclean => exact .inr (.inl ⟨_, rfl⟩)
  | @answered past l rest qbuf response db hlines hclean hline =>
    have hav : Available (bufSize - 1) (response ++ [newline]) (Server.serve = .closed) := by
      have := hline.2.length
      refine ⟨by simp, .inl ?_⟩
      rw [List.take_of_length_le (by simp [bufSize]; omega)]
      simp
    exact .inr (.inr ⟨.receive, _, .receive rfl hav, nofun⟩)
  | exited hlines hclean => exact .inl rfl
  | closed hlines hclean => exact .inl rfl

def noFiles : Files :=
  fun _ => none

end Comm

end CourseProjects.Database

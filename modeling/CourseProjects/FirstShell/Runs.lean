import CourseProjects.FirstShell.Repl
import Mathlib.Algebra.Ring.Nat

/-!
# Runs of the first shell

At every prompt the shell has its own files again, as long as the calls that bring them
back succeed. A descriptor is left open for each failed `dup2` of a redirection and for
nothing else.
-/

namespace CourseProjects.FirstShell

open Shell Text Descriptors Table

variable {fds fds' fds'' : Fds} {f : File} {fd tempfd copy fuel len c n index : Nat} {fname : Token}
  {flag : Int} {opened duped : Bool} {l l' : Finset Nat} {st out : Parsed} {answers : Answers}

/-! ## The flags of the parser -/

/-- The flags say how a file is opened. -/
structure Flags (st : Parsed) : Prop where
  input : st.iflag = 0 ∨ st.iflag = 3
  output : st.oflag = 0 ∨ st.oflag = 1 ∨ st.oflag = 2

def Redirected.Flagged : Redirected → Prop
  | .syntaxError st => Flags st
  | .named _ st => Flags st

theorem redirectOutput_flags {multiple : String} {reject : List Char → Bool} {red : Redirected}
    (hst : Flags st) (hflag : flag = 1 ∨ flag = 2)
    (h : redirectOutput fuel len flag multiple reject c st = some red) :
    Redirected.Flagged red := by
  unfold redirectOutput at h
  split at h
  · cases h
    exact ⟨hst.input, hst.output⟩
  · simp only [Option.bind_eq_bind, Option.bind_eq_some_iff] at h
    obtain ⟨c', -, oname, -, h⟩ := h
    split_ifs at h <;> cases h <;> exact ⟨hst.input, Or.inr hflag⟩

theorem redirectInput_flags {red : Redirected} (hst : Flags st)
    (h : redirectInput fuel len c st = some red) : Redirected.Flagged red := by
  unfold redirectInput at h
  split at h
  · cases h
    exact ⟨hst.input, hst.output⟩
  · simp only [Option.bind_eq_bind, Option.bind_eq_some_iff] at h
    obtain ⟨c', -, iname, -, h⟩ := h
    split_ifs at h <;> cases h <;> exact ⟨Or.inr rfl, hst.output⟩

theorem redirect_flags {red : Redirected} (hst : Flags st)
    (h : redirect fuel len c st = some (some red)) : Redirected.Flagged red := by
  unfold redirect at h
  simp only [Option.bind_eq_bind, Option.bind_eq_some_iff] at h
  obtain ⟨s, -, h⟩ := h
  split_ifs at h
  · obtain ⟨red', hred, heq⟩ := Option.map_eq_some_iff.mp h
    cases heq
    exact redirectOutput_flags hst (Or.inr rfl) hred
  · obtain ⟨red', hred, heq⟩ := Option.map_eq_some_iff.mp h
    cases heq
    exact redirectOutput_flags hst (Or.inl rfl) hred
  · obtain ⟨red', hred, heq⟩ := Option.map_eq_some_iff.mp h
    cases heq
    exact redirectInput_flags hst hred
  · cases h

theorem parseLoop_flags {ret : Int} (hst : Flags st)
    (h : parseLoop fuel len n c index st = some (ret, out)) : Flags out := by
  induction n generalizing c index st with
  | zero => cases h
  | succ n ih =>
    rw [parseLoop] at h
    simp only [Option.bind_eq_bind, Option.bind_eq_some_iff] at h
    obtain ⟨a, -, h⟩ := h
    split at h
    · cases h
      exact hst
    · obtain ⟨red, hred, h⟩ := Option.bind_eq_some_iff.mp h
      rcases red with _ | st' | ⟨c', st'⟩
      · obtain ⟨c'', -, h⟩ := Option.bind_eq_some_iff.mp h
        have hst' : Flags (st.argument index c) := ⟨hst.input, hst.output⟩
        exact ih hst' h
      · cases h
        exact redirect_flags hst hred
      · obtain ⟨c'', -, h⟩ := Option.bind_eq_some_iff.mp h
        have hst' : Flags st' := redirect_flags hst hred
        exact ih hst' h

theorem nullSpaces_flags {i i' : Nat} {flip : Bool} (hst : Flags st)
    (h : nullSpaces fuel st i flip = some (out, i')) : Flags out := by
  induction fuel generalizing st i flip with
  | zero => cases h
  | succ n ih =>
    rw [nullSpaces] at h
    simp only [Option.bind_eq_bind, Option.bind_eq_some_iff] at h
    obtain ⟨a, -, h⟩ := h
    split_ifs at h
    · cases h
      exact hst
    · refine ih ?_ h
      exact ⟨hst.input, hst.output⟩
    · refine ih ?_ h
      exact ⟨hst.input, hst.output⟩
    · exact ih hst h

theorem callParse_flags {str iname oname : List Char} {argc : Nat → Nat} {ret : Int}
    (h : callParse fuel str iname oname argc = some (ret, out)) : Flags out := by
  unfold callParse parse at h
  simp only [Option.bind_eq_bind, Option.bind_eq_some_iff] at h
  obtain ⟨⟨st, i⟩, hspaces, h⟩ := h
  have hst : Flags st := nullSpaces_flags ⟨Or.inl rfl, Or.inl rfl⟩ hspaces
  dsimp only at h
  split at h
  · cases h
    exact hst
  · obtain ⟨c, -, h⟩ := Option.bind_eq_some_iff.mp h
    exact parseLoop_flags hst h

/-! ## One redirection -/

/-- What `redir` makes of the descriptor `fd`: it failed, or a file is open and copied over it. -/
inductive Replaced (fds fds' : Fds) (fd : Nat) : Nat → Finset Nat → Prop
  | failed {l : Finset Nat} : Leaks fds fds' l → Replaced fds fds' fd fd l
  | replaced {tempfd : Nat} {f : File} : Over fds fds' fd tempfd f → Replaced fds fds' fd tempfd ∅

theorem Replaced.kept {x : Nat} (h : Replaced fds fds' fd tempfd l) (hx : fds.get x = some f)
    (hne : x ≠ fd) : fds'.get x = some f := by
  cases h with
  | failed h => exact h.kept hx
  | replaced h => exact h.kept hx hne

/-- The way back leaves open what has been left open since, and no more. -/
theorem Replaced.restored (h : Replaced fds fds' fd tempfd l) (hfd : fds.get fd = some f)
    (hcopy : fds.get copy = some f) (hne : copy ≠ fd) (hl : Leaks fds' fds'' l') :
    Leaks fds (restore fds'' (some copy) fd tempfd true) (l ∪ l') := by
  cases h with
  | failed h =>
    rw [restore, if_neg (not_not_intro rfl)]
    exact h.trans hl
  | replaced h =>
    have htemp : tempfd ≠ fd := by
      rintro rfl
      cases h.free.symm.trans hfd
    obtain ⟨t, hback, ht⟩ := h.undone hfd hcopy hne hl
    rw [restore, if_pos htemp, if_pos rfl, Option.bind_some, hback, Finset.empty_union]
    exact ht

theorem Replaced.disjoint {fd' tempfd' : Nat} (h : Replaced fds fds' fd tempfd l)
    (h' : Replaced fds' fds'' fd' tempfd' l') : Disjoint l l' := by
  cases h with
  | replaced _ => exact Finset.disjoint_empty_left l'
  | failed hl =>
    cases h' with
    | replaced _ => exact Finset.disjoint_empty_right l
    | failed hl' => exact hl.disjoint hl'

/-- The redirection of one descriptor, if the line has one. -/
def replace (fds : Fds) (redirected : Option (Int × Token)) (fd : Nat) (opened duped : Bool) :
    Nat × Fds × List String :=
  match redirected with
  | some (flag, fname) => redir fds fname fd flag opened duped
  | none => (fd, fds, [])

/-- Each message of `dup2` stands for a descriptor that is left open. -/
theorem replace_spec (redirected : Option (Int × Token)) (opened duped : Bool)
    (hflag : ∀ r ∈ redirected, r.1 = 1 ∨ r.1 = 2 ∨ r.1 = 3) (hfd : fds.get fd = some f) :
    ∃ tempfd fds' messages l,
      replace fds redirected fd opened duped = (tempfd, fds', messages) ∧
      Replaced fds fds' fd tempfd l ∧ l.card = messages.count dupError ∧
      fds'.get fd = shown redirected opened duped (some f) := by
  cases redirected with
  | none => exact ⟨fd, fds, [], ∅, rfl, .failed (Leaks.refl fds), rfl, hfd⟩
  | some r =>
    obtain ⟨flag, fname⟩ := r
    have hflag' : flag = 1 ∨ flag = 2 ∨ flag = 3 := hflag _ rfl
    have hfresh : (fds.openFile (.opened fname flag)).2.get fds.lowest =
        some (.opened fname flag) := by
      simp [openFile]
    simp only [replace, redir, if_pos hflag']
    cases opened with
    | false => exact ⟨fd, fds, _, ∅, rfl, .failed (Leaks.refl fds), rfl, hfd⟩
    | true =>
      cases duped with
      | false =>
        have hleaks := Leaks.openFile fds (.opened fname flag)
        exact ⟨fd, _, [dupError], {fds.lowest}, rfl, .failed hleaks, by simp, hleaks.kept hfd⟩
      | true =>
        obtain ⟨fds', hdup⟩ : ∃ fds',
            (fds.openFile (.opened fname flag)).2.dup2 fds.lowest fd = some fds' := by
          rw [dup2, hfresh]
          exact ⟨_, rfl⟩
        have hover := Over.of_dup2 hfd hdup
        refine ⟨fds.lowest, fds', [], ∅, ?_, .replaced hover, rfl, hover.copied⟩
        simp [duplicate, openFile] at hdup ⊢
        simp [hdup]

/-! ## The redirections of a line -/

def inputOf (out : Parsed) : Option (Int × Token) :=
  if out.iflag ≠ 0 then some (out.iflag, out.iname) else none

def outputOf (out : Parsed) : Option (Int × Token) :=
  if out.oflag = 1 ∨ out.oflag = 2 then some (out.oflag, out.oname) else none

theorem redirections_eq {ifd ofd : Nat} {before after : List String}
    (hin : replace fds (inputOf out) 0 answers.openInput answers.dupInput = (ifd, fds', before))
    (hout : replace fds' (outputOf out) 1 answers.openOutput answers.dupOutput =
      (ofd, fds'', after)) :
    redirections fds out answers = (ifd, ofd, fds'', before ++ after) := by
  have hfirst : (if out.iflag ≠ 0 then
      redir fds out.iname 0 out.iflag answers.openInput answers.dupInput else (0, fds, [])) =
        (ifd, fds', before) := by
    rw [← hin, inputOf]
    split <;> rfl
  have hsecond : (if out.oflag = 1 ∨ out.oflag = 2 then
      redir fds' out.oname 1 out.oflag answers.openOutput answers.dupOutput else (1, fds', [])) =
        (ofd, fds'', after) := by
    rw [← hout, outputOf]
    split <;> rfl
  rw [redirections, hfirst]
  dsimp only
  rw [hsecond]

theorem shown_eq_some (redirected : Option (Int × Token)) (opened duped : Bool) (f : File) :
    ∃ g, shown redirected opened duped (some f) = some g := by
  unfold shown
  split
  · exact ⟨_, rfl⟩
  · exact ⟨f, rfl⟩

/-- The redirections are nested, so they can be undone from the last one on. -/
theorem redirections_spec (answers : Answers) (hout : Flags out) {f0 f1 : File}
    (h0 : fds.get 0 = some f0) (h1 : fds.get 1 = some f1) :
    ∃ ifd ofd fds' fds'' messages l l',
      redirections fds out answers = (ifd, ofd, fds'', messages) ∧
      Replaced fds fds' 0 ifd l ∧ Replaced fds' fds'' 1 ofd l' ∧
      l.card + l'.card = messages.count dupError ∧
      fds''.get 0 = shown (inputOf out) answers.openInput answers.dupInput (some f0) ∧
      fds''.get 1 = shown (outputOf out) answers.openOutput answers.dupOutput (some f1) := by
  have hinput : ∀ r ∈ inputOf out, r.1 = 1 ∨ r.1 = 2 ∨ r.1 = 3 := fun r hr => by
    unfold inputOf at hr
    split at hr
    · next hflag =>
      cases hr
      exact Or.inr (Or.inr (hout.input.resolve_left hflag))
    · cases hr
  have houtput : ∀ r ∈ outputOf out, r.1 = 1 ∨ r.1 = 2 ∨ r.1 = 3 := fun r hr => by
    unfold outputOf at hr
    split at hr
    · next hflag =>
      cases hr
      exact hflag.imp_right Or.inl
    · cases hr
  obtain ⟨ifd, fds', before, l, hrun, hrep, hcard, hshown⟩ :=
    replace_spec (inputOf out) answers.openInput answers.dupInput hinput h0
  have h1' : fds'.get 1 = some f1 := hrep.kept h1 (by decide)
  obtain ⟨ofd, fds'', after, l', hrun', hrep', hcard', hshown'⟩ :=
    replace_spec (outputOf out) answers.openOutput answers.dupOutput houtput h1'
  refine ⟨ifd, ofd, fds', fds'', before ++ after, l, l', redirections_eq hrun hrun', hrep, hrep',
    ?_, ?_, hshown'⟩
  · rw [List.count_append, hcard, hcard']
  · obtain ⟨g, hg⟩ := shown_eq_some (inputOf out) answers.openInput answers.dupInput f0
    rw [hg] at hshown ⊢
    exact hrep'.kept hshown (by decide)

/-! ## The prompt -/

/-- The saved descriptors are copies of 0 and 1. -/
structure Saved (fds : Fds) (copy0 copy1 : Nat) (f0 f1 : File) : Prop where
  file0 : fds.get 0 = some f0
  file1 : fds.get 1 = some f1
  copied0 : fds.get copy0 = some f0
  copied1 : fds.get copy1 = some f1
  apart0 : copy0 ≠ 0
  apart1 : copy1 ≠ 0 ∧ copy1 ≠ 1

theorem Saved.leaks {copy0 copy1 : Nat} {f0 f1 : File} (h : Saved fds copy0 copy1 f0 f1)
    (hl : Leaks fds fds' l) : Saved fds' copy0 copy1 f0 f1 :=
  ⟨hl.kept h.file0, hl.kept h.file1, hl.kept h.copied0, hl.kept h.copied1, h.apart0, h.apart1⟩

theorem saved_spec (h : fds.get fd = some f) :
    saved fds fd = (some fds.lowest, (fds.openFile f).2) := by
  rw [saved, dup, h]
  rfl

theorem start_saved {f0 f1 : File} (h0 : fds.get 0 = some f0) (h1 : fds.get 1 = some f1) :
    ∃ base copy0 copy1, start fds = ⟨base, some copy0, some copy1, false⟩ ∧
      Saved base copy0 copy1 f0 f1 ∧ Leaks fds base {copy0, copy1} ∧ copy0 ≠ copy1 := by
  let first := (fds.openFile f0).2
  have hl0 : Leaks fds first {fds.lowest} := Leaks.openFile fds f0
  have h1' : first.get 1 = some f1 := hl0.kept h1
  have hl1 : Leaks first (first.openFile f1).2 {first.lowest} := Leaks.openFile first f1
  have hcopy0 : first.get fds.lowest = some f0 := by simp [first, openFile]
  have hcopy1 : (first.openFile f1).2.get first.lowest = some f1 := by simp [openFile]
  refine ⟨(first.openFile f1).2, fds.lowest, first.lowest, ?_, ?_, hl0.trans hl1, ?_⟩
  · rw [start, saved_spec h0]
    dsimp only
    rw [saved_spec h1']
  · exact ⟨hl1.kept (hl0.kept h0), hl1.kept h1', hl1.kept hcopy0, hcopy1, lowest_ne h0,
      lowest_ne (hl0.kept h0), lowest_ne h1'⟩
  · exact (lowest_ne hcopy0).symm

/-- Undoing the redirections of a line leaves open what they left open. -/
theorem redirections_undone {copy0 copy1 ifd ofd : Nat} {f0 f1 : File}
    (hs : Saved fds copy0 copy1 f0 f1) (hin : Replaced fds fds' 0 ifd l)
    (hout : Replaced fds' fds'' 1 ofd l') :
    Leaks fds (restore (restore fds'' (some copy1) 1 ofd true) (some copy0) 0 ifd true)
      (l ∪ l') := by
  have h1 : fds'.get 1 = some f1 := hin.kept hs.file1 (by decide)
  have hcopy1 : fds'.get copy1 = some f1 := hin.kept hs.copied1 hs.apart1.1
  have hback := hout.restored h1 hcopy1 hs.apart1.2 (Leaks.refl fds'')
  rw [Finset.union_empty] at hback
  exact hin.restored hs.file0 hs.copied0 hs.apart0 hback

/-! ## A round -/

variable {s s' base : Repl} {r : Round} {input : Input}

/-- The shell with its own files again. -/
def Repl.back (s : Repl) (fds : Fds) (ifd ofd : Nat) (answers : Answers) : Repl :=
  let fds := restore fds s.stdout 1 ofd answers.restoreOutput
  { s with fds := restore fds s.stdin 0 ifd answers.restoreInput }

/-- The round of an accepted line: `fds` are the descriptors that the command finds. -/
structure Executes (s : Repl) (out : Parsed) (answers : Answers) (r : Round) (s' : Repl) : Prop where
  command : commandOf out = r.command
  redirected : ∃ ifd ofd,
    redirections s.fds out answers = (ifd, ofd, r.fds, r.redirMessages) ∧
    (s'.ended = true ∨ s' = s.back r.fds ifd ofd answers)

/-- A round without a command changes nothing but the end of the shell. -/
theorem round_cases (h : round s input = some (r, s')) :
    s.ended = false ∧
      (r.redirMessages = [] ∧ (s'.ended = true ∨ s' = s) ∨
        ∃ buf iname oname argc answers ret out, input = .line buf iname oname argc answers ∧
          callParse buf.length buf iname oname argc = some (ret, out) ∧
          Executes s out answers r s') := by
  cases input with
  | endOfInput =>
    rw [round] at h
    split_ifs at h with hended
    cases h
    exact ⟨by simpa using hended, Or.inl ⟨rfl, Or.inl rfl⟩⟩
  | line buf iname oname argc answers =>
    rw [round] at h
    split_ifs at h with hended
    refine ⟨by simpa using hended, ?_⟩
    obtain ⟨⟨ret, out⟩, hrun, h⟩ := Option.bind_eq_some_iff.mp h
    dsimp only at h
    split_ifs at h with hret
    · cases h
      exact Or.inl ⟨rfl, Or.inr rfl⟩
    · obtain ⟨command, hcommand, h⟩ := Option.bind_eq_some_iff.mp h
      refine Or.inr ⟨buf, iname, oname, argc, answers, ret, out, rfl, hrun, ?_⟩
      split at h
      · cases h
        exact ⟨hcommand, _, _, rfl, Or.inl rfl⟩
      · cases h
        exact ⟨hcommand, _, _, rfl, Or.inl rfl⟩
      · cases h
        exact ⟨hcommand, _, _, rfl, Or.inr rfl⟩

/-- The shell is at a prompt with `lost` descriptors more than at its first one. -/
structure Home (base s : Repl) (lost : Nat) : Prop where
  stdin : s.stdin = base.stdin
  stdout : s.stdout = base.stdout
  leaks : ∃ l, Leaks base.fds s.fds l ∧ l.card = lost

def Input.Restores : Input → Prop
  | .endOfInput => True
  | .line _ _ _ _ answers => answers.restoreOutput = true ∧ answers.restoreInput = true

def dupErrors (rounds : List Round) : Nat :=
  (rounds.map fun r => r.redirMessages.count dupError).sum

theorem round_home {copy0 copy1 lost : Nat} {f0 f1 : File} (hhome : Home base s lost)
    (hin : base.stdin = some copy0) (hout : base.stdout = some copy1)
    (hsaved : Saved base.fds copy0 copy1 f0 f1) (h : round s input = some (r, s'))
    (hback : input.Restores) (hon : s'.ended = false) :
    Home base s' (lost + r.redirMessages.count dupError) := by
  obtain ⟨-, ⟨hnone, hsame⟩ | ⟨buf, iname, oname, argc, answers, ret, out, rfl, hrun, hexec⟩⟩ :=
    round_cases h
  · rcases hsame with hended | rfl
    · cases hon.symm.trans hended
    · rw [hnone]
      exact hhome
  · obtain ⟨ifd, ofd, hred, hended | hs'⟩ := hexec.redirected
    · cases hon.symm.trans hended
    obtain ⟨l, hl, hcard⟩ := hhome.leaks
    have hs := hsaved.leaks hl
    obtain ⟨ifd', ofd', fds', fds'', messages, li, lo, hred', hrepin, hrepout, hcount, -⟩ :=
      redirections_spec answers (callParse_flags hrun) hs.file0 hs.file1
    cases hred.symm.trans hred'
    have hundone := redirections_undone hs hrepin hrepout
    subst hs'
    refine ⟨hhome.stdin, hhome.stdout, l ∪ (li ∪ lo), ?_, ?_⟩
    · rw [Repl.back, hhome.stdin, hhome.stdout, hin, hout, hback.1, hback.2]
      exact hl.trans hundone
    · rw [Finset.card_union_of_disjoint (hl.disjoint hundone),
        Finset.card_union_of_disjoint (hrepin.disjoint hrepout), hcard, hcount]

/-! ## A run -/

theorem run_cons {inputs : List Input} {rounds : List Round}
    (h : run s (input :: inputs) = some (rounds, s')) :
    ∃ r s₁ rest, round s input = some (r, s₁) ∧ run s₁ inputs = some (rest, s') ∧
      rounds = r :: rest := by
  rw [run] at h
  obtain ⟨⟨r, s₁⟩, hround, h⟩ := Option.bind_eq_some_iff.mp h
  obtain ⟨⟨rest, s₂⟩, hrest, h⟩ := Option.bind_eq_some_iff.mp h
  cases h
  exact ⟨r, s₁, rest, hround, hrest, rfl⟩

/-- A shell that has ended has no rounds. -/
theorem run_ended {inputs : List Input} {rounds : List Round} (hended : s.ended = true)
    (h : run s inputs = some (rounds, s')) : s' = s := by
  cases inputs with
  | nil =>
    cases h
    rfl
  | cons input inputs =>
    obtain ⟨r, s₁, rest, hround, -, -⟩ := run_cons h
    cases (round_cases hround).1.symm.trans hended

theorem run_home {copy0 copy1 lost : Nat} {f0 f1 : File} {inputs : List Input}
    {rounds : List Round} (hhome : Home base s lost) (hin : base.stdin = some copy0)
    (hout : base.stdout = some copy1) (hsaved : Saved base.fds copy0 copy1 f0 f1)
    (h : run s inputs = some (rounds, s')) (hback : ∀ input ∈ inputs, input.Restores)
    (hon : s'.ended = false) : Home base s' (lost + dupErrors rounds) := by
  induction inputs generalizing s lost rounds with
  | nil =>
    cases h
    exact hhome
  | cons input inputs ih =>
    obtain ⟨r, s₁, rest, hround, hrest, rfl⟩ := run_cons h
    have hon₁ : s₁.ended = false := by
      by_contra hended
      rw [Bool.not_eq_false] at hended
      rw [run_ended hended hrest] at hon
      cases hon.symm.trans hended
    have hhome₁ := round_home hhome hin hout hsaved hround (hback _ List.mem_cons_self) hon₁
    have := ih hhome₁ hrest fun input hi => hback input (List.mem_cons_of_mem _ hi)
    rwa [Nat.add_assoc] at this

theorem run_start {f0 f1 : File} {inputs : List Input} {rounds : List Round}
    (h0 : fds.get 0 = some f0) (h1 : fds.get 1 = some f1)
    (h : run (start fds) inputs = some (rounds, s)) (hback : ∀ input ∈ inputs, input.Restores)
    (hon : s.ended = false) :
    ∃ copy0 copy1 l, s.stdin = some copy0 ∧ s.stdout = some copy1 ∧
      Saved s.fds copy0 copy1 f0 f1 ∧ Leaks fds s.fds l ∧ l.card = 2 + dupErrors rounds := by
  obtain ⟨base, copy0, copy1, hstart, hsaved, hleaks, hne⟩ := start_saved h0 h1
  rw [hstart] at h
  have hhome : Home ⟨base, some copy0, some copy1, false⟩ ⟨base, some copy0, some copy1, false⟩ 0 :=
    ⟨rfl, rfl, ∅, Leaks.refl base, rfl⟩
  have hend := run_home hhome rfl rfl hsaved h hback hon
  obtain ⟨l, hl, hcard⟩ := hend.leaks
  refine ⟨copy0, copy1, {copy0, copy1} ∪ l, hend.stdin, hend.stdout, hsaved.leaks hl,
    hleaks.trans hl, ?_⟩
  rw [Finset.card_union_of_disjoint (hleaks.disjoint hl), Finset.card_pair hne, hcard,
    Nat.zero_add]

/-- At every prompt the descriptors are those that the shell was started with, two copies of
the terminal and one descriptor for each failed `dup2` of a redirection. -/
theorem prompt_descriptors (fds : Fds) (h0 : fds.get 0 ≠ none) (h1 : fds.get 1 ≠ none)
    (inputs : List Input) (rounds : List Round) (s : Repl)
    (h : run (start fds) inputs = some (rounds, s)) (hback : ∀ input ∈ inputs, input.Restores)
    (hon : s.ended = false) :
    ∃ l : Finset Nat, l.card = 2 + dupErrors rounds ∧ (∀ x ∈ l, fds.get x = none) ∧
      (∀ x ∈ l, s.fds.get x ≠ none) ∧ ∀ x ∉ l, s.fds.get x = fds.get x := by
  obtain ⟨f0, hf0⟩ := Option.ne_none_iff_exists'.mp h0
  obtain ⟨f1, hf1⟩ := Option.ne_none_iff_exists'.mp h1
  obtain ⟨copy0, copy1, l, -, -, -, hl, hcard⟩ := run_start hf0 hf1 h hback hon
  exact ⟨l, hcard, hl.free, hl.taken, hl.same⟩

def terminal : Fds :=
  ⟨[some (.inherited 0), some (.inherited 1), some (.inherited 2)]⟩

/-- Both files are opened and the second is not copied. -/
def halfRedirected : Input :=
  .line ("cat < a > b\n".toList ++ nul :: nul :: []) [] [] id
    ⟨true, true, true, false, false, true, true⟩

theorem halfRedirected_leaves : ∃ rounds s,
    run (start terminal) [halfRedirected] = some (rounds, s) ∧
      ∃ l : Finset Nat, l.card = 2 + dupErrors rounds ∧ (∀ x ∈ l, terminal.get x = none) ∧
        (∀ x ∈ l, s.fds.get x ≠ none) ∧ ∀ x ∉ l, s.fds.get x = terminal.get x := by
  have hends : (run (start terminal) [halfRedirected]).map (fun end' => end'.2.ended) =
      some false := by
    decide +kernel
  obtain ⟨⟨rounds, s⟩, hrun, hon⟩ := Option.map_eq_some_iff.mp hends
  have hback : ∀ input ∈ [halfRedirected], input.Restores := by
    intro input hinput
    rw [List.mem_singleton.mp hinput]
    exact ⟨rfl, rfl⟩
  exact ⟨rounds, s, hrun, prompt_descriptors terminal (by decide) (by decide) [halfRedirected]
    rounds s hrun hback hon⟩

end CourseProjects.FirstShell

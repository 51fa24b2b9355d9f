import CourseProjects.Database.Requests
import CourseProjects.Lib.Acyclic
import Mathlib.Order.Filter.AtTopBot.Basic
import Mathlib.Order.Filter.Finite

/-!
# Files that interpret files

A line of a file may be the command `f` again. The recursion ends exactly when no
file that is reached in this way leads back to itself.
-/

namespace CourseProjects.Database

open Acyclic Filter

/-- The file that a command interprets. -/
def opens (command : CString) : Option CString :=
  match request 0 command with
  | .file name => some name
  | _ => none

/-- A line of the file `f` interprets `g`. -/
def Includes (files : Files) (f g : CString) : Prop :=
  ∃ content, files f = some content ∧ ∃ command ∈ fileCommands content, opens command = some g

/-- No file that the command reaches includes itself, directly or through others. -/
def NoInclusionCycle (files : Files) (command : CString) : Prop :=
  ∀ f, opens command = some f → NoCycle (Includes files) f

variable {files : Files} {len fuel : Nat} {db db' : Db} {f name command response : CString}
  {commands : List CString} {content : List (Fin 256)}

theorem opens_iff (len : Nat) : opens command = some f ↔ request len command = .file f := by
  unfold opens
  rw [request_atLen len 0]
  cases request len command with
  | illFormed => simp [Request.atLen]
  | call c => simp [Request.atLen]
  | file name => simp [Request.atLen]

/-! ## Without a cycle the recursion ends -/

/-- A list of commands ends when each of them does. -/
theorem runLines_ends (hruns : ∀ c ∈ commands, ∀ db, Kept db →
      interpretCommand files len fuel db c ≠ .error .diverges)
    (hnul : ∀ c ∈ commands, 0 ∉ c) (hk : Kept db) :
    runLines files len fuel db commands ≠ .error .diverges := by
  induction commands generalizing db with
  | nil => exact fun h => by cases h
  | cons c cs ih =>
    intro h
    rw [runLines, List.foldlM_cons] at h
    rcases bind_error h with hc | ⟨db1, hc, hrest⟩
    · rcases bind_error hc with hc | ⟨r, -, hr⟩
      · exact hruns c List.mem_cons_self db hk hc
      · cases hr
    · obtain ⟨⟨response, db2⟩, hr, heq⟩ := bind_ok hc
      cases heq
      have hends := hk.ends files len fuel (hnul c List.mem_cons_self)
      rw [hr] at hends
      cases hends with
      | returns hk' _ =>
        exact ih (fun c hc => hruns c (List.mem_cons_of_mem _ hc))
          (fun c hc => hnul c (List.mem_cons_of_mem _ hc)) hk' hrest

/-- With this number of levels every line of the file ends in every database. -/
def LinesEnd (files : Files) (f : CString) (fuel : Nat) : Prop :=
  ∀ content, files f = some content → ∀ c ∈ fileCommands content, ∀ len db, Kept db →
    interpretCommand files len fuel db c ≠ .error .diverges

/-- A command takes one level more than the lines of the file that it opens. -/
theorem ends_of_lines (hc : 0 ∉ command) (hk : Kept db)
    (hlines : ∀ f, opens command = some f → LinesEnd files f fuel) :
    interpretCommand files len (fuel + 1) db command ≠ .error .diverges := by
  rw [interpretCommand_request]
  cases hreq : request len command with
  | illFormed => exact fun h => by cases h
  | call c =>
    intro h
    rcases bind_error h with hcall | ⟨r, -, hr⟩
    · exact hk.call_ends (request_words hc hreq) hcall
    · cases hr
  | file name =>
    dsimp only
    cases hfile : files name with
    | none => exact fun h => by cases h
    | some content =>
      intro h
      have hruns := hlines name ((opens_iff len).mpr hreq) content hfile
      rcases bind_error h with hrun | ⟨r, -, hr⟩
      · exact runLines_ends (fun c hc => hruns c hc len) (fun c hc => fileCommands_noNul hc) hk hrun
      · cases hr

/-- Without an endless chain of inclusions some number of levels is enough for a file. -/
theorem linesEnd_of_acc (h : Acc (flip (Includes files)) f) :
    ∀ᶠ fuel in atTop, LinesEnd files f fuel := by
  induction h with
  | intro f _ ih =>
    cases hfile : files f with
    | none =>
      refine Eventually.of_forall fun fuel content h => ?_
      cases hfile.symm.trans h
    | some content =>
      have hline : ∀ c ∈ {c | c ∈ fileCommands content}, ∀ᶠ fuel in atTop, ∀ len db, Kept db →
          interpretCommand files len fuel db c ≠ .error .diverges := by
        intro c hc
        have hlevels : ∀ᶠ fuel in atTop, ∀ g, opens c = some g → LinesEnd files g fuel := by
          cases hopens : opens c with
          | none => exact Eventually.of_forall fun _ g hg => by cases hg
          | some g =>
            refine (ih g ⟨content, hfile, c, hc, hopens⟩).mono fun fuel hfuel g' hg => ?_
            cases hg
            exact hfuel
        obtain ⟨n, hn⟩ := eventually_atTop.mp hlevels
        refine eventually_atTop.mpr ⟨n + 1, fun fuel hfuel len db hk => ?_⟩
        obtain ⟨fuel, rfl⟩ := Nat.exists_eq_add_of_le' (Nat.le_of_add_left_le hfuel)
        exact ends_of_lines (fileCommands_noNul hc) hk (hn fuel (by omega))
      refine ((eventually_all_finite (List.finite_toSet _)).mpr hline).mono fun fuel hall => ?_
      intro content' h c hc
      cases hfile.symm.trans h
      exact hall c hc

/-- The files have a common number of levels. -/
theorem linesEnd_all (hfin : {name | files name ≠ none}.Finite) :
    ∀ᶠ fuel in atTop, ∀ f, NoCycle (Includes files) f → LinesEnd files f fuel := by
  have hsources : {f | ∃ g, Includes files f g}.Finite := by
    refine hfin.subset ?_
    rintro f ⟨g, content, hfile, -⟩
    simp [hfile]
  have heach : ∀ f ∈ {name | files name ≠ none}, ∀ᶠ fuel in atTop,
      NoCycle (Includes files) f → LinesEnd files f fuel := by
    intro f _
    by_cases hno : NoCycle (Includes files) f
    · exact (linesEnd_of_acc (hno.acc hsources)).mono fun fuel hf _ => hf
    · exact Eventually.of_forall fun _ h => absurd h hno
  refine ((eventually_all_finite hfin).mpr heach).mono fun fuel hall f hno content hfile => ?_
  exact hall f (by simp [hfile]) hno content hfile

/-! ## A command that returns has met no cycle -/

theorem runLines_returns {c : CString} (h : runLines files len fuel db commands = .ok db')
    (hc : c ∈ commands) : ∃ db r, interpretCommand files len fuel db c = .ok r := by
  induction commands generalizing db with
  | nil => cases hc
  | cons d ds ih =>
    rw [runLines, List.foldlM_cons] at h
    obtain ⟨db1, hd, hrest⟩ := bind_ok h
    rcases List.mem_cons.mp hc with rfl | hc
    · obtain ⟨r, hr, -⟩ := bind_ok hd
      exact ⟨db, r, hr⟩
    · exact ih hrest hc

theorem acc_of_returns {r : CString × Db} (h : interpretCommand files len fuel db command = .ok r)
    (hc : opens command = some f) : Acc (flip (Includes files)) f := by
  induction fuel generalizing db command f r with
  | zero => cases h
  | succ fuel ih =>
    refine Acc.intro f fun g hg => ?_
    obtain ⟨content, hfile, c, hmem, hopens⟩ := hg
    rw [interpretCommand_request, (opens_iff len).mp hc] at h
    simp only [hfile] at h
    obtain ⟨db1, hrun, -⟩ := bind_ok h
    obtain ⟨db2, r2, hr⟩ := runLines_returns hrun hmem
    exact ih hr hopens

/-! ## Termination -/

/-- **The recursion is bounded** by a number of levels that the files determine, for every
command that reaches no file that includes itself, and a command that returns has reached no
such file. -/
theorem interpretCommand_terminates (files : Files)
    (hfin : {name | files name ≠ none}.Finite) :
    (∃ n, ∀ fuel, n ≤ fuel → ∀ (db : Db) (len : Nat) (command : CString), Served db →
      0 ∉ command → NoInclusionCycle files command →
      interpretCommand files len fuel db command ≠ .error .diverges) ∧
    ∀ (db : Db) (len : Nat) (command : CString) fuel r,
      interpretCommand files len fuel db command = .ok r → NoInclusionCycle files command := by
  constructor
  · obtain ⟨n, hn⟩ := eventually_atTop.mp (linesEnd_all hfin)
    refine ⟨n + 1, fun fuel hfuel db len command hs hc hno => ?_⟩
    obtain ⟨fuel, rfl⟩ := Nat.exists_eq_add_of_le' (Nat.le_of_add_left_le hfuel)
    exact ends_of_lines hc hs.kept fun f hf => hn fuel (by omega) f (hno f hf)
  · intro db len command fuel r hr f hf
    exact noCycle_of_acc (acc_of_returns hr hf)

/-- The file "x" with the line "f y", and the file "y" with the line "a m 1". -/
def twoFiles : Files := fun name =>
  if name = [120] then some [102, 32, 121, 10]
  else if name = [121] then some [97, 32, 109, 32, 49, 10]
  else none

theorem twoFiles_terminates : NoInclusionCycle twoFiles [102, 32, 120] ∧ ∃ n, ∀ fuel, n ≤ fuel →
    interpretCommand twoFiles 1024 fuel Db.init [102, 32, 120] ≠ .error .diverges := by
  have hfin : {name | twoFiles name ≠ none}.Finite := by
    refine Set.Finite.subset (Set.toFinite {[120], [121]}) fun name hname => ?_
    by_contra hne
    simp only [Set.mem_insert_iff, Set.mem_singleton_iff, not_or] at hne
    exact hname (by simp [twoFiles, hne.1, hne.2])
  obtain ⟨⟨n, hends⟩, hno⟩ := interpretCommand_terminates twoFiles hfin
  have hrun : (interpretCommand twoFiles 1024 3 Db.init [102, 32, 120]).toBool = true := by
    decide +kernel
  cases h : interpretCommand twoFiles 1024 3 Db.init [102, 32, 120] with
  | error f =>
    rw [h] at hrun
    cases hrun
  | ok r =>
    have hcycle := hno Db.init 1024 [102, 32, 120] 3 r h
    exact ⟨hcycle, n, fun fuel hfuel => hends fuel hfuel _ 1024 _ .init (by decide) hcycle⟩

/-- The file "x" with the line "f x". -/
def selfIncluding : Files := fun name =>
  if name = [120] then some [102, 32, 120, 10] else none

theorem selfIncluding_diverges : {name | selfIncluding name ≠ none}.Finite ∧ ∀ fuel,
    interpretCommand selfIncluding 1024 fuel Db.init [102, 32, 120] = .error .diverges := by
  constructor
  · refine Set.Finite.subset (Set.toFinite {[120]}) fun name hname => ?_
    by_contra hne
    exact hname (if_neg hne)
  · have hopen : ∀ fuel command, opens command = some [120] →
        interpretCommand selfIncluding 1024 fuel Db.init command = .error .diverges := by
      intro fuel
      induction fuel with
      | zero => exact fun _ _ => rfl
      | succ fuel ih =>
        intro command hc
        have hlines : fileCommands [102, 32, 120, 10] = [[102, 32, 120, 10]] := by decide +kernel
        rw [interpretCommand_request, (opens_iff 1024).mp hc]
        simp only [selfIncluding, if_true, hlines]
        rw [runLines, List.foldlM_cons, ih _ (by decide +kernel)]
        rfl
    exact fun fuel => hopen fuel _ (by decide +kernel)

end CourseProjects.Database

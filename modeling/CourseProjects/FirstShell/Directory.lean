import CourseProjects.Lib.Paths
import CourseProjects.Shell.Command

/-!
# The working directory

The shells change the directory by the text of an absolute path: they cut the last name off
the working directory for `..` and put the working directory in front of a relative path. This
is `chdir` with the path itself, messages included, where the text fits into the buffer and
leads back to the working directory. What the kernel finds is a parameter.
-/

namespace CourseProjects.FirstShell

open Shell Text Paths

def dotdot : Token :=
  ['.', '.']

/-- The directories of a file system, which no command of the session changes. A directory
that is missing or must not be searched makes `lookup` fail for a name in a path, or `enter`
for the last one; `names` are those in the text of `getcwd`, which a directory that has been
removed does not have. -/
structure FileSystem (D E : Type) where
  root : D
  lookup : D → Token → Except E D
  enter : D → Except E Unit
  names : D → Option (List Token)
  noEntry : E
  strerror : E → String

variable {D E : Type}

/-- The directory at the end of a path, its names being looked up one after another. -/
def chdir (fs : FileSystem D E) (cwd : D) (path : List Char) : Except E D :=
  if path = [] then .error fs.noEntry
  else do
    let start := if path.head? = some '/' then fs.root else cwd
    let dir ← (words (· = '/') path).foldlM fs.lookup start
    fs.enter dir
    return dir

/-- The path of a directory from the root. -/
def absolute (names : List Token) : List Char :=
  if names = [] then ['/'] else render '/' names

/-- `getcwd` with a buffer of 1024 characters; the shells do not expect a null pointer. -/
def getcwd (fs : FileSystem D E) (cwd : D) : Option (List Char) := do
  let names ← fs.names cwd
  if (absolute names).length < 1024 then some (absolute names) else none

/-- The loop for `..`; a null at `i` ends the string there. -/
def parentLoop : Nat → List Char → List Char
  | 0, dirname => dirname
  | i + 1, dirname =>
    if dirname.drop (i + 1) = ['/'] then dirname.take (i + 1)
    else parentLoop i (dirname.take (i + 1))

/-- The working directory after a call of `chdir`, and what `perror` prints. -/
def changed (fs : FileSystem D E) (cwd : D) : Except E D → D × List String
  | .ok dir => (dir, [])
  | .error e => (cwd, ["cd: No such file or directory\n: " ++ fs.strerror e ++ "\n"])

/-- There is no result when the path does not fit into the buffer. -/
def myCd (fs : FileSystem D E) (cwd : D) (path : List Char) : Option (D × List String) :=
  if path = dotdot then do
    let dirname ← getcwd fs cwd
    return changed fs cwd (chdir fs cwd (parentLoop (dirname.length - 1) dirname))
  else if path.head? = some '/' then return changed fs cwd (chdir fs cwd path)
  else do
    let dirname ← getcwd fs cwd
    if dirname.length + 1 + path.length < 1024 then
      return changed fs cwd (chdir fs cwd (dirname ++ '/' :: path))
    else none

/-- `cd` of the shell with job control, which counts the arguments itself. -/
def cd (fs : FileSystem D E) (cwd : D) (nargs : Int) (path : List Char) :
    Option (D × List String) :=
  if nargs ≤ 1 then some (cwd, ["cd: syntax error\n"]) else myCd fs cwd path

/-- The working directory has not been removed; every directory above can be searched, so that
the text of `getcwd` leads to it; and `..` is the directory above. -/
structure Placed (fs : FileSystem D E) (cwd : D) (names : List Token) : Prop where
  named : fs.names cwd = some names
  texts : ∀ name ∈ names, name ≠ [] ∧ '/' ∉ name
  back : names.foldlM fs.lookup fs.root = .ok cwd
  up : fs.lookup cwd dotdot = names.dropLast.foldlM fs.lookup fs.root

/-- The text that is put together for a path fits into the buffer. -/
def Fits (fs : FileSystem D E) (cwd : D) (path : List Char) : Prop :=
  path.head? = some '/' ∨ ∃ names, Placed fs cwd names ∧
    (absolute names).length + (if path = dotdot then 0 else 1 + path.length) < 1024

variable {fs : FileSystem D E} {cwd dir : D} {names : List Token} {path : List Char}

/-! ## The text of a directory -/

theorem Placed.getcwd (h : Placed fs cwd names) (hlen : (absolute names).length < 1024) :
    getcwd fs cwd = some (absolute names) := by
  rw [FirstShell.getcwd, h.named, Option.bind_eq_bind, Option.bind_some, if_pos hlen]

theorem absolute_head (names : List Token) (rest : List Char) :
    (absolute names ++ rest).head? = some '/' := by
  unfold absolute
  split_ifs with hroot
  · rfl
  · obtain ⟨first, others, rfl⟩ := List.exists_cons_of_ne_nil hroot
    simp [render]

theorem words_absolute (h : ∀ name ∈ names, name ≠ [] ∧ '/' ∉ name) :
    words (· = '/') (absolute names) = names := by
  unfold absolute
  split_ifs with hroot
  · rw [hroot]
    rfl
  · exact words_render h

theorem chdir_absolute (hnames : ∀ name ∈ names, name ≠ [] ∧ '/' ∉ name) (cwd : D) :
    chdir fs cwd (absolute names) = (do
      let dir ← names.foldlM fs.lookup fs.root
      fs.enter dir
      return dir) := by
  have hhead : (absolute names).head? = some '/' := by simpa using absolute_head names []
  have hne : absolute names ≠ [] := fun hnil => by simp [hnil] at hhead
  rw [chdir, if_neg hne, if_pos hhead, words_absolute hnames]

/-- A relative path is looked up behind the text of the working directory. -/
theorem Placed.chdir_behind (h : Placed fs cwd names) (hpath : path ≠ [])
    (hslash : path.head? ≠ some '/') :
    chdir fs cwd (absolute names ++ '/' :: path) = chdir fs cwd path := by
  have hlookup : (words (· = '/') (absolute names ++ '/' :: path)).foldlM fs.lookup fs.root =
      (words (· = '/') path).foldlM fs.lookup cwd := by
    rw [words_append_sep, words_absolute h.texts, List.foldlM_append, h.back]
    rfl
  have hne : absolute names ++ '/' :: path ≠ [] := by simp
  rw [chdir, chdir, if_neg hne, if_neg hpath]
  dsimp only
  rw [if_pos (absolute_head names _), if_neg hslash, hlookup]

/-! ## The loop -/

/-- The loop cuts off the last name and the separator in front of it. -/
theorem parentLoop_spec (u v : List Char) (hv : '/' ∉ v) :
    parentLoop (u.length + v.length) (u ++ '/' :: v) = if u = [] then ['/'] else u := by
  induction v using List.reverseRecOn with
  | nil =>
    cases u with
    | nil => rfl
    | cons a u =>
      simp [parentLoop]
  | append_singleton v last ih =>
    rw [List.mem_append, not_or] at hv
    have hlast : last ≠ '/' := fun h => hv.2 (by simp [h])
    have hcut : u ++ '/' :: (v ++ [last]) = (u ++ '/' :: v) ++ [last] := by simp
    have hlen : (u ++ '/' :: v).length = u.length + v.length + 1 := by
      simp
      omega
    have hdrop : (u ++ '/' :: (v ++ [last])).drop (u.length + v.length + 1) = [last] := by
      rw [hcut, ← hlen, List.drop_left]
    have htake : (u ++ '/' :: (v ++ [last])).take (u.length + v.length + 1) = u ++ '/' :: v := by
      rw [hcut, ← hlen, List.take_left]
    rw [List.length_append, List.length_singleton, ← Nat.add_assoc, parentLoop, hdrop,
      if_neg (by simpa using hlast), htake, ih hv.1]

theorem parent_absolute (h : ∀ name ∈ names, name ≠ [] ∧ '/' ∉ name) :
    parentLoop ((absolute names).length - 1) (absolute names) = absolute names.dropLast := by
  cases names using List.reverseRecOn with
  | nil => rfl
  | append_singleton names last =>
    have hlast : '/' ∉ last := (h last (by simp)).2
    have htext : absolute (names ++ [last]) = render '/' names ++ '/' :: last := by
      rw [absolute, if_neg (by simp), render_concat]
    have hlen : (absolute (names ++ [last])).length - 1 =
        (render '/' names).length + last.length := by
      rw [htext]
      simp
    rw [hlen, htext, parentLoop_spec _ _ hlast, List.dropLast_concat, absolute]
    cases names with
    | nil => rfl
    | cons first names => simp [render]

/-! ## Changing the directory -/

theorem Placed.chdir_dotdot (h : Placed fs cwd names) :
    chdir fs cwd (absolute names.dropLast) = chdir fs cwd dotdot := by
  have hwords : words (· = '/') dotdot = [dotdot] := words_name (by decide) (by decide)
  rw [chdir_absolute fun name hn => h.texts name (List.dropLast_subset _ hn), chdir,
    if_neg (by decide), if_neg (by decide), hwords]
  dsimp only
  rw [List.foldlM_cons, h.up]
  cases names.dropLast.foldlM fs.lookup fs.root <;> rfl

/-- The shell changes to the directory that `chdir` finds, and prints its error if it finds
none. -/
theorem myCd_is_chdir (hpath : path ≠ []) (hfits : Fits fs cwd path) :
    myCd fs cwd path = some (changed fs cwd (chdir fs cwd path)) := by
  unfold myCd
  by_cases hup : path = dotdot
  · subst hup
    obtain ⟨names, hplaced, hlen⟩ := hfits.resolve_left (by decide)
    rw [if_pos rfl, hplaced.getcwd (by simpa using hlen), Option.bind_eq_bind, Option.bind_some,
      parent_absolute hplaced.texts, hplaced.chdir_dotdot]
    rfl
  · rw [if_neg hup]
    by_cases hslash : path.head? = some '/'
    · rw [if_pos hslash]
      rfl
    · obtain ⟨names, hplaced, hlen⟩ := hfits.resolve_left hslash
      rw [if_neg hup] at hlen
      rw [if_neg hslash, hplaced.getcwd (by omega), Option.bind_eq_bind, Option.bind_some,
        if_pos (by omega), hplaced.chdir_behind hpath hslash]
      rfl

/-! ## Runs -/

/-- The calls for the `cd` commands of a session. -/
def cds (call : D → List Char → Option (D × List String)) (cwd : D) :
    List (List Char) → Option (D × List String)
  | [] => some (cwd, [])
  | path :: paths => do
    let (cwd, message) ← call cwd path
    let (cwd, messages) ← cds call cwd paths
    return (cwd, message ++ messages)

/-- The directories that `chdir` goes through with the paths themselves. -/
def follow (fs : FileSystem D E) (cwd : D) : List (List Char) → D × List String
  | [] => (cwd, [])
  | path :: paths =>
    let (cwd, message) := changed fs cwd (chdir fs cwd path)
    let (cwd, messages) := follow fs cwd paths
    (cwd, message ++ messages)

/-- The text of every command fits where it is put together. -/
def AllFit (fs : FileSystem D E) (cwd : D) : List (List Char) → Prop
  | [] => True
  | path :: paths =>
    path ≠ [] ∧ Fits fs cwd path ∧ AllFit fs (changed fs cwd (chdir fs cwd path)).1 paths

/-- A session of `cd` commands follows `chdir` along their paths, in either shell. -/
theorem cds_follow (fs : FileSystem D E) (cwd : D) (paths : List (List Char))
    (hfit : AllFit fs cwd paths) :
    cds (myCd fs) cwd paths = some (follow fs cwd paths) ∧
      cds (fun cwd path => cd fs cwd 2 path) cwd paths = some (follow fs cwd paths) := by
  have hsame : (fun cwd path => cd fs cwd 2 path) = myCd fs := by
    funext cwd path
    rw [cd, if_neg (by decide)]
  rw [hsame, and_self]
  induction paths generalizing cwd with
  | nil => rfl
  | cons path paths ih =>
    obtain ⟨hpath, hfits, hrest⟩ := hfit
    rw [cds, myCd_is_chdir hpath hfits, Option.bind_eq_bind, Option.bind_some]
    dsimp only
    rw [ih _ hrest]
    rfl

/-- The directories `/`, `/a` and `/a/b`, of which nobody may enter the last one. -/
def threeDirectories : FileSystem (List Token) Bool where
  root := []
  lookup dir name :=
    if name = dotdot then .ok dir.dropLast
    else if dir ++ [name] ∈ [[['a']], [['a'], ['b']]] then .ok (dir ++ [name])
    else .error false
  enter dir := if dir = [['a'], ['b']] then .error true else .ok ()
  names dir := some dir
  noEntry := false
  strerror e := if e then "Permission denied" else "No such file or directory"

theorem placed_root : Placed threeDirectories [] [] :=
  ⟨rfl, nofun, rfl, rfl⟩

theorem placed_a : Placed threeDirectories [['a']] [['a']] :=
  ⟨rfl, by decide, rfl, rfl⟩

/-- Down, to a directory that must not be entered, to a missing one, and up. -/
theorem session_follows :
    let paths : List (List Char) := [['a'], ['b'], ['.', '/', 'c'], ['.', '.']]
    cds (myCd threeDirectories) [] paths = some (follow threeDirectories [] paths) ∧
      cds (fun cwd path => cd threeDirectories cwd 2 path) [] paths =
        some (follow threeDirectories [] paths) :=
  cds_follow threeDirectories [] _
    ⟨by decide, Or.inr ⟨_, placed_root, by decide⟩, by decide, Or.inr ⟨_, placed_a, by decide⟩,
      by decide, Or.inr ⟨_, placed_a, by decide⟩, by decide, Or.inr ⟨_, placed_a, by decide⟩,
      trivial⟩

end CourseProjects.FirstShell

import CourseProjects.FirstShell.Runs

/-!
# What a command finds

After any run an accepted line executes the command of its words, with the files
of its redirections at the descriptors 0 and 1 and everything else as the shell
was started. The shell with job control opens the same files in the child.
-/

namespace CourseProjects.FirstShell

open Shell Text Descriptors Table

variable {out : Parsed} {items : List Item} {background : Bool}

/-! ## The command of the words -/

def inputFile (items : List Item) : Option (Int × Token) :=
  (inputsOf items).head?.map fun name => (3, name)

def outputFile (items : List Item) : Option (Int × Token) :=
  (outputsOf items).head?.map fun (op, name) => (op.flag, name)

variable {fds : Fds} {s : Repl} {f0 f1 : File} {line rest iname oname : List Char}
  {argc : Nat → Nat} {answers : Answers}

/-- The command finds the redirected files, and its other descriptors are those of the shell. -/
structure Finds (fds found : Fds) (items : List Item) (answers : Answers) : Prop where
  input : found.get 0 =
    shown (inputFile items) answers.openInput answers.dupInput (fds.get 0)
  output : found.get 1 =
    shown (outputFile items) answers.openOutput answers.dupOutput (fds.get 1)
  others : ∀ x f, x ≠ 0 → x ≠ 1 → fds.get x = some f → found.get x = some f

theorem Finds.leaks {fds' found : Fds} {l : Finset Nat} (hl : Leaks fds fds' l)
    (h : Finds fds' found items answers) (h0 : fds.get 0 = some f0) (h1 : fds.get 1 = some f1) :
    Finds fds found items answers := by
  refine ⟨?_, ?_, fun x f hx0 hx1 hx => h.others x f hx0 hx1 (hl.kept hx)⟩
  · rw [h.input, hl.kept h0, h0]
  · rw [h.output, hl.kept h1, h1]

end CourseProjects.FirstShell

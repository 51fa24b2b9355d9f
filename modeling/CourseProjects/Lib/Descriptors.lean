import Mathlib.Data.Finset.Card
import Mathlib.Data.List.Basic

/-!
# Descriptor tables

A process names its open files by small numbers. The calls for them take the
lowest free number, copy an entry or free it. `Over.undone` is the rule for a
redirection: a file is opened and copied over a descriptor, and both are undone.
-/

namespace CourseProjects.Descriptors

/-- The file of each descriptor; those behind the list are free. -/
structure Table (α : Type*) where
  files : List (Option α)

variable {α : Type*} {t : Table α} {a b : α} {fd x : Nat}

namespace Table

def get (t : Table α) (fd : Nat) : Option α :=
  t.files[fd]?.join

/-- The table with the entry `a` at `fd`. -/
def put (t : Table α) (fd : Nat) (a : Option α) : Table α :=
  ⟨(t.files ++ List.replicate (fd + 1 - t.files.length) none).set fd a⟩

def lowest (t : Table α) : Nat :=
  t.files.findIdx Option.isNone

/-! ## The calls -/

def openFile (t : Table α) (a : α) : Nat × Table α :=
  (t.lowest, t.put t.lowest (some a))

def dup (t : Table α) (fd : Nat) : Option (Nat × Table α) :=
  (t.get fd).map fun a => t.openFile a

def dup2 (t : Table α) (old new : Nat) : Option (Table α) :=
  (t.get old).map fun a => t.put new (some a)

def close (t : Table α) (fd : Nat) : Table α :=
  t.put fd none

/-! ## Entries -/

@[simp] theorem get_put (a : Option α) : (t.put fd a).get x = if x = fd then a else t.get x := by
  have hlen : fd < (t.files ++ List.replicate (fd + 1 - t.files.length) none).length := by
    simp
    omega
  by_cases hx : x = fd
  · subst hx
    rw [if_pos rfl, get, put, List.getElem?_set_self hlen]
    rfl
  · rw [if_neg hx, get, put, List.getElem?_set_ne (Ne.symm hx), get]
    by_cases hin : x < t.files.length
    · rw [List.getElem?_append_left hin]
    · have hout : t.files.length ≤ x := Nat.le_of_not_lt hin
      rw [List.getElem?_append_right hout, List.getElem?_eq_none hout, List.getElem?_replicate]
      split <;> rfl

@[simp] theorem get_close : (t.close fd).get x = if x = fd then none else t.get x :=
  get_put none

theorem lowest_free : t.get t.lowest = none := by
  unfold get lowest
  by_cases h : t.files.findIdx Option.isNone < t.files.length
  · have hfree := List.findIdx_getElem (w := h)
    rw [List.getElem?_eq_getElem h]
    simpa using hfree
  · rw [List.getElem?_eq_none (Nat.le_of_not_lt h)]
    rfl

theorem lowest_ne (h : t.get fd = some a) : t.lowest ≠ fd := by
  rintro rfl
  cases t.lowest_free.symm.trans h

/-! ## What is left open -/

/-- The table `t'` has the files `l` open besides those of `t`. -/
structure Leaks (t t' : Table α) (l : Finset Nat) : Prop where
  free : ∀ x ∈ l, t.get x = none
  taken : ∀ x ∈ l, t'.get x ≠ none
  same : ∀ x ∉ l, t'.get x = t.get x

theorem Leaks.refl (t : Table α) : Leaks t t ∅ :=
  ⟨fun _ h => absurd h (Finset.notMem_empty _), fun _ h => absurd h (Finset.notMem_empty _),
    fun _ _ => rfl⟩

/-- A file that was open is still there. -/
theorem Leaks.kept {t' : Table α} {l : Finset Nat} (h : Leaks t t' l) (hx : t.get x = some a) :
    t'.get x = some a := by
  rw [h.same x fun hl => ?_, hx]
  cases (h.free x hl).symm.trans hx

theorem Leaks.disjoint {t' t'' : Table α} {l l' : Finset Nat} (h : Leaks t t' l)
    (h' : Leaks t' t'' l') : Disjoint l l' :=
  Finset.disjoint_left.mpr fun x hx hx' => h.taken x hx (h'.free x hx')

theorem Leaks.trans {t' t'' : Table α} {l l' : Finset Nat} (h : Leaks t t' l)
    (h' : Leaks t' t'' l') : Leaks t t'' (l ∪ l') := by
  have hdisjoint := h.disjoint h'
  refine ⟨fun x hx => ?_, fun x hx => ?_, fun x hx => ?_⟩
  · rcases Finset.mem_union.mp hx with hl | hl
    · exact h.free x hl
    · rw [← h.same x (Finset.disjoint_right.mp hdisjoint hl)]
      exact h'.free x hl
  · rcases Finset.mem_union.mp hx with hl | hl
    · rw [h'.same x (Finset.disjoint_left.mp hdisjoint hl)]
      exact h.taken x hl
    · exact h'.taken x hl
  · rw [Finset.mem_union, not_or] at hx
    rw [h'.same x hx.2, h.same x hx.1]

theorem Leaks.openFile (t : Table α) (a : α) : Leaks t (t.openFile a).2 {t.lowest} := by
  refine ⟨fun x hx => ?_, fun x hx => ?_, fun x hx => ?_⟩
  · rw [Finset.mem_singleton.mp hx]
    exact t.lowest_free
  · rw [Finset.mem_singleton.mp hx]
    simp [Table.openFile]
  · rw [Finset.mem_singleton] at hx
    simp [Table.openFile, hx]

/-! ## Redirections -/

/-- The file `a` is open at `tmp` and copied over `fd`; nothing else differs. -/
structure Over (t t' : Table α) (fd tmp : Nat) (a : α) : Prop where
  free : t.get tmp = none
  opened : t'.get tmp = some a
  copied : t'.get fd = some a
  same : ∀ x, x ≠ fd → x ≠ tmp → t'.get x = t.get x

theorem Over.of_dup2 {t' : Table α} (hfd : t.get fd = some b)
    (h : (t.openFile a).2.dup2 t.lowest fd = some t') : Over t t' fd t.lowest a := by
  have hne : t.lowest ≠ fd := lowest_ne hfd
  have hopened : (t.openFile a).2.get t.lowest = some a := by simp [Table.openFile]
  rw [dup2, hopened, Option.map_some, Option.some.injEq] at h
  subst h
  refine ⟨t.lowest_free, by simp [hne, hopened], by simp, fun x hx hx' => ?_⟩
  simp [Table.openFile, hx, hx']

/-- Another file that was open is still there. -/
theorem Over.kept {t' : Table α} {tmp : Nat} (h : Over t t' fd tmp a) (hx : t.get x = some b)
    (hne : x ≠ fd) : t'.get x = some b := by
  rw [h.same x hne fun hs => ?_, hx]
  cases (hs ▸ h.free).symm.trans hx

/-- A copy back from a saved descriptor and a `close` undo a redirection, also
when files have been left open since. -/
theorem Over.undone {t' t'' : Table α} {tmp saved : Nat} {l : Finset Nat} (h : Over t t' fd tmp a)
    (hfd : t.get fd = some b) (hsaved : t.get saved = some b) (hne : saved ≠ fd)
    (hl : Leaks t' t'' l) :
    ∃ t₁, t''.dup2 saved fd = some t₁ ∧ Leaks t (t₁.close tmp) l := by
  have hsaved' : t''.get saved = some b := hl.kept (h.kept hsaved hne)
  have hout : ∀ x ∈ l, x ≠ fd ∧ x ≠ tmp := fun x hx => by
    have hfree := hl.free x hx
    constructor
    · rintro rfl
      cases hfree.symm.trans h.copied
    · rintro rfl
      cases hfree.symm.trans h.opened
  refine ⟨t''.put fd (some b), by rw [dup2, hsaved']; rfl, ⟨fun x hx => ?_, fun x hx => ?_,
    fun x hx => ?_⟩⟩
  · obtain ⟨hxfd, hxtmp⟩ := hout x hx
    rw [← h.same x hxfd hxtmp]
    exact hl.free x hx
  · obtain ⟨hxfd, hxtmp⟩ := hout x hx
    simpa [hxfd, hxtmp] using hl.taken x hx
  · by_cases hxtmp : x = tmp
    · rw [hxtmp, get_close, if_pos rfl, h.free]
    · by_cases hxfd : x = fd
      · subst hxfd
        simp [hxtmp, hfd]
      · simp [hxtmp, hxfd, hl.same x hx, h.same x hxfd hxtmp]

end Table

end CourseProjects.Descriptors

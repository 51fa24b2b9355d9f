import Mathlib.Data.List.Basic

/-!
# Strings in memory

A memory has a byte at every address that may be accessed. `StringAt` says that
a string and its terminator are at an address; the rules say what a suffix, a
change elsewhere and a new terminator make of it.
-/

namespace CourseProjects.CText

abbrev Memory := Nat → Option UInt8

/-- The memory with the byte `b` at `a`. -/
def Memory.put (m : Memory) (a : Nat) (b : UInt8) : Memory :=
  fun x => if x = a then some b else m x

def store (m : Memory) (a : Nat) (b : UInt8) : Option Memory :=
  if (m a).isSome then some (m.put a b) else none

/-- The string `s` is at `a`, with a null byte behind it. -/
def StringAt (m : Memory) : Nat → List UInt8 → Prop
  | a, [] => m a = some 0
  | a, b :: s => b ≠ 0 ∧ m a = some b ∧ StringAt m (a + 1) s

variable {m m' : Memory} {a x : Nat} {b : UInt8} {s t u : List UInt8}

@[simp] theorem put_self : m.put a b a = some b := by
  simp [Memory.put]

theorem put_of_ne (h : x ≠ a) : m.put a b x = m x :=
  if_neg h

/-! ## Reading a string -/

theorem StringAt.drop (h : StringAt m a (u ++ s)) : StringAt m (a + u.length) s := by
  induction u generalizing a with
  | nil => exact h
  | cons b u ih =>
    have hrest := ih h.2.2
    rwa [Nat.add_assoc, Nat.add_comm 1] at hrest

/-- The byte behind the first `u.length` bytes of a string. -/
theorem StringAt.byte (h : StringAt m a (u ++ s)) : m (a + u.length) = some (s.headD 0) := by
  have hs := h.drop
  cases s with
  | nil => exact hs
  | cons b s => exact hs.2.1

theorem StringAt.ne_zero (h : StringAt m a s) : ∀ b ∈ s, b ≠ 0 := by
  induction s generalizing a with
  | nil => simp
  | cons c s ih =>
    intro b hb
    rcases List.mem_cons.mp hb with rfl | hb
    · exact h.1
    · exact ih h.2.2 b hb

/-! ## Changing the memory -/

/-- The addresses of the string `s` at `a`, its terminator included. -/
def Within (a : Nat) (s : List UInt8) (x : Nat) : Prop :=
  a ≤ x ∧ x ≤ a + s.length

instance instDecidablePredWithin (a : Nat) (s : List UInt8) : DecidablePred (Within a s) :=
  fun x => inferInstanceAs (Decidable (a ≤ x ∧ x ≤ a + s.length))

/-- The memory with the strings `s` at `a` and `t` at `b`, and no other byte. -/
def Memory.strings (m : Memory) (a : Nat) (s : List UInt8) (b : Nat) (t : List UInt8) : Memory :=
  fun x => if Within a s x ∨ Within b t x then m x else none

/-- A string depends on its own bytes and its terminator. -/
theorem StringAt.congr (h : StringAt m a s)
    (hm : ∀ x, a ≤ x → x ≤ a + s.length → m' x = m x) : StringAt m' a s := by
  induction s generalizing a with
  | nil => exact (hm a (Nat.le_refl a) (Nat.le_refl a)).trans h
  | cons b s ih =>
    refine ⟨h.1, (hm a (Nat.le_refl a) (Nat.le_add_right a _)).trans h.2.1, ih h.2.2 ?_⟩
    intro x hx hx'
    exact hm x (by omega) (by rw [List.length_cons]; omega)

theorem StringAt.strings_left (h : StringAt m a s) (d : Nat) (t : List UInt8) :
    StringAt (m.strings a s d t) a s :=
  h.congr fun _ hx hx' => if_pos (Or.inl ⟨hx, hx'⟩)

theorem StringAt.strings_right (h : StringAt m a s) (d : Nat) (t : List UInt8) :
    StringAt (m.strings d t a s) a s :=
  h.congr fun _ hx hx' => if_pos (Or.inr ⟨hx, hx'⟩)

/-- A null byte ends the string where it is put. -/
theorem StringAt.cut (h : StringAt m a (t ++ s)) : StringAt (m.put (a + t.length) 0) a t := by
  induction t generalizing a with
  | nil => exact put_self
  | cons b t ih =>
    have hne : a ≠ a + (t.length + 1) := by omega
    refine ⟨h.1, (put_of_ne hne).trans h.2.1, ?_⟩
    have hrest := ih h.2.2
    rwa [Nat.add_assoc, Nat.add_comm 1] at hrest

end CourseProjects.CText

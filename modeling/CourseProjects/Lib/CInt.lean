import CourseProjects.Lib.Text
import Mathlib.Algebra.Group.Nat.Defs

/-!
# The `int` of C

Numbers of 32 bits with a sign. An operation whose result is not one of them has no
result. `atoi` reads a `long` of 64 bits and cuts it to an `int`.
-/

namespace CourseProjects.CInt

open Text

def intMin : Int :=
  -2147483648

def intMax : Int :=
  2147483647

variable {α β : Type} {z : Int}

/-- The result of an operation, unless that overflows. -/
def checked (z : Int) : Option Int :=
  if intMin ≤ z ∧ z ≤ intMax then some z else none

theorem checked_of_mem (hmin : intMin ≤ z) (hmax : z ≤ intMax) : checked z = some z :=
  if_pos ⟨hmin, hmax⟩

theorem checked_of_nonneg (h0 : 0 ≤ z) (hmax : z ≤ intMax) : checked z = some z := by
  refine checked_of_mem ?_ hmax
  unfold intMin
  omega

theorem checked_of_not_mem (h : ¬ (intMin ≤ z ∧ z ≤ intMax)) : checked z = none :=
  if_neg h

/-- A loop in which no round overflows. -/
theorem mapM_of_forall {f : α → Option β} {g : α → β} {l : List α}
    (h : ∀ a ∈ l, f a = some (g a)) : l.mapM f = some (l.map g) := by
  induction l with
  | nil => rfl
  | cons a l ih =>
    rw [List.mapM_cons, h a List.mem_cons_self, ih fun b hb => h b (List.mem_cons_of_mem a hb)]
    rfl

/-- The same, where what a round computes is only known by a property. -/
theorem exists_mapM {f : α → Option β} {P : β → Prop} {l : List α}
    (h : ∀ a ∈ l, ∃ b, f a = some b ∧ P b) :
    ∃ bs, l.mapM f = some bs ∧ bs.length = l.length ∧ ∀ b ∈ bs, P b := by
  induction l with
  | nil => exact ⟨[], rfl, rfl, fun b hb => absurd hb List.not_mem_nil⟩
  | cons a l ih =>
    obtain ⟨b, hb, hP⟩ := h a List.mem_cons_self
    obtain ⟨bs, hbs, hlen, hall⟩ := ih fun a' ha => h a' (List.mem_cons_of_mem a ha)
    refine ⟨b :: bs, ?_, congrArg (· + 1) hlen, List.forall_mem_cons.mpr ⟨hP, hall⟩⟩
    rw [List.mapM_cons, hb, hbs]
    rfl

/-! ## Numbers in decimal -/

def longMin : Int :=
  -9223372036854775808

def longMax : Int :=
  9223372036854775807

/-- The digits of a number, and the value read so far. -/
def digitsValue : List Char → Int → Int
  | [], n => n
  | c :: s, n => if c.isDigit then digitsValue s (10 * n + (c.toNat - '0'.toNat)) else n

/-- The number at the beginning of a text, or the nearest `long`. -/
def strtol (s : List Char) : Int :=
  let value := match s.dropWhile isspace with
    | '-' :: rest => -digitsValue rest 0
    | '+' :: rest => digitsValue rest 0
    | rest => digitsValue rest 0
  max longMin (min longMax value)

def atoi (s : List Char) : Int :=
  (strtol s).bmod (2 ^ 32)

example : atoi [' ', '-', '7', 'x'] = -7 := by decide

example : atoi ['4', '2', '9', '4', '9', '6', '7', '2', '9', '7'] = 1 := by decide

end CourseProjects.CInt

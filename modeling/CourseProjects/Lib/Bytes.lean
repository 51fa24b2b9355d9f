import Mathlib.Algebra.Group.Int.Defs
import Mathlib.Algebra.Group.Nat.Defs

/-!
# Byte-addressed memory

A memory is a function from addresses to bytes. `readBytes` and `writeBytes`
are the little-endian load and store of `n` consecutive bytes, `copyBytes` is a
block copy that reads the whole source before it writes. The rules below say
what a load sees after a store at the same place (`readBytes_writeBytes_self`),
what it sees after a store elsewhere (`readBytes_writeBytes_of_disjoint`) and
which bytes a store leaves alone (`writeBytes_of_not_mem`).
-/

namespace CourseProjects.Bytes

abbrev Memory := Nat → UInt8

/-- Little-endian load of `n` bytes at `a`. -/
def readBytes (m : Memory) (a : Nat) : Nat → Nat
  | 0 => 0
  | n + 1 => (m a).toNat + 256 * readBytes m (a + 1) n

/-- Little-endian store of the low `n` bytes of `v` at `a`. -/
def writeBytes (m : Memory) (a n v : Nat) : Memory := fun x =>
  if a ≤ x ∧ x < a + n then UInt8.ofNat (v / 256 ^ (x - a)) else m x

/-- Copy `n` bytes from `s` to `d`; the source is read before anything is
written, so the two ranges may overlap. -/
def copyBytes (m : Memory) (d s n : Nat) : Memory := fun x =>
  if d ≤ x ∧ x < d + n then m (s + (x - d)) else m x

/-- Store one byte. -/
def setByte (m : Memory) (a : Nat) (v : UInt8) : Memory := fun x =>
  if x = a then v else m x

theorem readBytes_lt (m : Memory) (a n : Nat) : readBytes m a n < 256 ^ n := by
  induction n generalizing a with
  | zero => simp [readBytes]
  | succ n ih =>
    have hb := (m a).toNat_lt
    have hr := ih (a + 1)
    simp only [readBytes, Nat.pow_succ]
    omega

/-- A load depends on the bytes it reads only. -/
theorem readBytes_congr {m m' : Memory} {a n : Nat}
    (h : ∀ x, a ≤ x → x < a + n → m' x = m x) : readBytes m' a n = readBytes m a n := by
  induction n generalizing a with
  | zero => rfl
  | succ n ih =>
    have ht : readBytes m' (a + 1) n = readBytes m (a + 1) n :=
      ih fun x hx hx' => h x (by omega) (by omega)
    simp only [readBytes, ht, h a (Nat.le_refl a) (by omega)]

/-- Equal loads have equal bytes. -/
theorem byte_eq_of_readBytes_eq {m m' : Memory} {a a' n j : Nat}
    (h : readBytes m a n = readBytes m' a' n) (hj : j < n) : m (a + j) = m' (a' + j) := by
  induction n generalizing a a' j with
  | zero => omega
  | succ n ih =>
    have hb := (m a).toNat_lt
    have hb' := (m' a').toNat_lt
    simp only [readBytes] at h
    have hhead : (m a).toNat = (m' a').toNat := by omega
    have htail : readBytes m (a + 1) n = readBytes m' (a' + 1) n := by omega
    cases j with
    | zero => exact UInt8.toNat_inj.mp hhead
    | succ j =>
      have := ih htail (show j < n by omega)
      rwa [show a + (j + 1) = a + 1 + j by omega, show a' + (j + 1) = a' + 1 + j by omega]

theorem writeBytes_of_not_mem {m : Memory} {a n v x : Nat} (h : x < a ∨ a + n ≤ x) :
    writeBytes m a n v x = m x := by
  unfold writeBytes
  rw [if_neg (by omega)]

theorem copyBytes_of_not_mem {m : Memory} {d s n x : Nat} (h : x < d ∨ d + n ≤ x) :
    copyBytes m d s n x = m x := by
  unfold copyBytes
  rw [if_neg (by omega)]

theorem copyBytes_of_mem {m : Memory} {d s n i : Nat} (h : i < n) :
    copyBytes m d s n (d + i) = m (s + i) := by
  unfold copyBytes
  rw [if_pos (by omega), Nat.add_sub_cancel_left]

theorem setByte_of_ne {m : Memory} {a x : Nat} {v : UInt8} (h : x ≠ a) :
    setByte m a v x = m x := by
  unfold setByte
  rw [if_neg h]

theorem readBytes_writeBytes_of_disjoint {m : Memory} {a n v b k : Nat}
    (h : b + k ≤ a ∨ a + n ≤ b) : readBytes (writeBytes m a n v) b k = readBytes m b k :=
  readBytes_congr fun x _ _ => writeBytes_of_not_mem (by omega)

/-- The load of a store at the same address is the stored value, cut to its
width. The induction splits off the lowest byte. -/
theorem readBytes_writeBytes_self (m : Memory) (a n v : Nat) :
    readBytes (writeBytes m a n v) a n = v % 256 ^ n := by
  induction n generalizing a v m with
  | zero => simp [readBytes, Nat.mod_one]
  | succ n ih =>
    have hhead : (writeBytes m a (n + 1) v a).toNat = v % 256 := by
      unfold writeBytes
      rw [if_pos (by omega), Nat.sub_self, Nat.pow_zero, Nat.div_one]
      exact UInt8.toNat_ofNat'
    have htail : readBytes (writeBytes m a (n + 1) v) (a + 1) n =
        readBytes (writeBytes m (a + 1) n (v / 256)) (a + 1) n := by
      refine readBytes_congr fun x hx hx' => ?_
      unfold writeBytes
      rw [if_pos (by omega), if_pos (by omega), Nat.div_div_eq_div_mul,
        show x - a = x - (a + 1) + 1 by omega, Nat.pow_succ, Nat.mul_comm]
    simp only [readBytes, hhead, htail, ih]
    rw [Nat.pow_succ, Nat.mul_comm (256 ^ n) 256, Nat.mod_mul]

/-- The second of two stores of one range wins. -/
theorem writeBytes_writeBytes_self (m : Memory) (a n v w : Nat) :
    writeBytes (writeBytes m a n v) a n w = writeBytes m a n w := by
  funext x
  unfold writeBytes
  split <;> rfl

theorem writeBytes_comm {m : Memory} {a b n k v w : Nat} (h : a + n ≤ b ∨ b + k ≤ a) :
    writeBytes (writeBytes m a n v) b k w = writeBytes (writeBytes m b k w) a n v := by
  funext x
  unfold writeBytes
  by_cases ha : a ≤ x ∧ x < a + n
  · rw [if_neg (by omega), if_pos ha, if_pos ha]
  · rw [if_neg ha, if_neg ha]

end CourseProjects.Bytes

import Mathlib.Data.Set.Basic
import Mathlib.Tactic.Common
import CourseProjects.Malloc.Heap

/-!
# Words, tags and frames

`blockSetSizeAndAllocated_eq` gives the memory after the two tags of a block are
written, whatever the words held before. What an operation may change is a set
of bytes: `Keeps S h h'`.
-/

namespace CourseProjects.Malloc

open Bytes

variable {h h' h'' : Heap} {m : Memory} {a b n size v x : Nat} {alloc : Bool} {S T : Set Nat}

/-! ## Words -/

theorem readWord_lt (m : Memory) (a : Nat) : readWord m a < 2 ^ 64 :=
  readBytes_lt m a wordSize

theorem readWord_writeWord_self (hv : v < 2 ^ 64) : readWord (writeWord m a v) a = v := by
  unfold readWord writeWord
  rw [readBytes_writeBytes_self]
  exact Nat.mod_eq_of_lt hv

theorem readWord_writeWord_of_disjoint (hab : b + 8 ≤ a ∨ a + 8 ≤ b) :
    readWord (writeWord m a v) b = readWord m b :=
  readBytes_writeBytes_of_disjoint hab

theorem writeWord_of_not_mem (hx : x < a ∨ a + 8 ≤ x) : writeWord m a v x = m x :=
  writeBytes_of_not_mem hx

theorem readWord_congr {m' : Memory} (hm : ∀ x, a ≤ x → x < a + 8 → m' x = m x) :
    readWord m' a = readWord m a :=
  readBytes_congr hm

/-- The heap with other memory, and with another `flist_first`. -/
def Heap.setMem (h : Heap) (m : Memory) : Heap := { h with mem := m }
def Heap.setFirst (h : Heap) (f : Nat) : Heap := { h with flistFirst := f }

@[simp] theorem setMem_mem (h : Heap) (m : Memory) : (h.setMem m).mem = m := rfl
@[simp] theorem setMem_first (h : Heap) (m : Memory) :
    (h.setMem m).flistFirst = h.flistFirst := rfl
@[simp] theorem setMem_setMem (h : Heap) (m m' : Memory) :
    (h.setMem m).setMem m' = h.setMem m' := rfl
@[simp] theorem setFirst_mem (h : Heap) (f : Nat) : (h.setFirst f).mem = h.mem := rfl
@[simp] theorem setFirst_first (h : Heap) (f : Nat) : (h.setFirst f).flistFirst = f := rfl
@[simp] theorem setMem_setFirst (h : Heap) (m : Memory) (f : Nat) :
    (h.setFirst f).setMem m = (h.setMem m).setFirst f := rfl

@[simp] theorem inArena_setMem : InArena (h.setMem m) a n ↔ InArena h a n := Iff.rfl
@[simp] theorem inArena_setFirst {f : Nat} : InArena (h.setFirst f) a n ↔ InArena h a n := Iff.rfl

theorem load_eq (ha : InArena h a 8) : load h a = some (readWord h.mem a) := if_pos ha

theorem store_eq (ha : InArena h a 8) :
    store h a v = some (h.setMem (writeWord h.mem a v)) := if_pos ha

theorem wadd_eq (hab : a + b < 2 ^ 64) : wadd a b = a + b := by
  unfold wadd
  exact Nat.mod_eq_of_lt hab

theorem wsub_eq (hab : b ≤ a) (ha : a < 2 ^ 64) : wsub a b = a - b := by
  unfold wsub
  omega

theorem payloadAt_zero (hb : b + 8 < 2 ^ 64) : payloadAt b 0 = b + 8 := wadd_eq hb

theorem payloadAt_one (hb : b + 16 < 2 ^ 64) : payloadAt b 1 = b + 16 := wadd_eq hb

theorem or_bit (h8 : size % 8 = 0) (alloc : Bool) : size ||| alloc.toNat = size + alloc.toNat := by
  obtain ⟨k, rfl⟩ := Nat.dvd_of_mod_eq_zero h8
  have hlt : alloc.toNat < 2 ^ 3 := by cases alloc <;> decide
  exact (Nat.two_pow_add_eq_or_of_lt hlt k).symm

theorem or_bit_one (h8 : size % 8 = 0) (alloc : Bool) : (size + alloc.toNat) ||| 1 = size + 1 := by
  have h1 : size ||| 1 = size + 1 := or_bit h8 true
  rw [← or_bit h8 alloc, Nat.or_assoc]
  cases alloc with
  | false => rw [Bool.toNat_false, Nat.zero_or, h1]
  | true => rw [Bool.toNat_true, Nat.or_self, h1]

theorem clearBit_add_bit (h8 : size % 8 = 0) (alloc : Bool) : clearBit (size + alloc.toNat) = size := by
  unfold clearBit
  cases alloc <;> simp only [Bool.toNat_false, Bool.toNat_true] <;> omega

/-! ## The tags of a block -/

/-- Header and end tag of the block at `b`. -/
def writeTags (m : Memory) (b size : Nat) (alloc : Bool) : Memory :=
  writeWord (writeWord m b (size + alloc.toNat)) (b + size - 8) (size + alloc.toNat)

theorem blockEndTag_eq (hb : InArena h b size) (htop : h.memMaxAddr < 2 ^ 64)
    (h8 : size % 8 = 0) (h16 : 16 ≤ size) (alloc : Bool)
    (hw : readWord h.mem b = size + alloc.toNat) :
    blockEndTag h b = some (b + size - 8) := by
  have hin : InArena h b 8 := ⟨hb.1, by have := hb.2; omega⟩
  have ht : alloc.toNat ≤ 1 := by cases alloc <;> decide
  have hpay : payloadAt b (size / 8 - 2) = b + size - 8 := by
    have := hb.2
    unfold payloadAt wordSize
    rw [wadd_eq (by omega)]
    omega
  have hguard : size + alloc.toNat ≥ wordSize * 2 := by unfold wordSize; omega
  have hdiv : (size + alloc.toNat) / wordSize = size / 8 := by unfold wordSize; omega
  simp only [blockEndTag, load_eq hin, hw, Option.bind_eq_bind, Option.bind_some,
    guard, hguard, ↓reduceIte, hdiv, hpay, Option.pure_def]

theorem blockAllocated_eq (hb : InArena h b 8) :
    blockAllocated h b = some (readWord h.mem b % 2 == 1) := by
  simp [blockAllocated, load_eq hb]

theorem blockSize_eq (hb : InArena h b 8) :
    blockSize h b = some (clearBit (readWord h.mem b)) := by
  simp [blockSize, load_eq hb]

/-- `block_set_size` leaves the old allocated bit in both tags. -/
theorem blockSetSize_eq (hb : InArena h b size) (htop : h.memMaxAddr < 2 ^ 64)
    (h8 : size % 8 = 0) (h16 : 16 ≤ size) :
    ∃ old : Bool, blockSetSize h b size = some (h.setMem (writeTags h.mem b size old)) := by
  have hb1 := hb.1
  have hb2 := hb.2
  have hin : InArena h b 8 := ⟨hb1, by omega⟩
  have hin' : InArena h (b + size - 8) 8 := ⟨by omega, by omega⟩
  refine ⟨readWord h.mem b % 2 == 1, ?_⟩
  generalize hold : (readWord h.mem b % 2 == 1) = old
  have ht : old.toNat ≤ 1 := by cases old <;> decide
  have htag := blockEndTag_eq (h := h.setMem (writeWord h.mem b (size + old.toNat)))
    hb htop h8 h16 old (readWord_writeWord_self (by omega))
  simp only [blockSetSize, blockAllocated_eq hin, hold, alignment, guard, h8, ↓reduceIte,
    Option.bind_eq_bind, Option.bind_some, Option.pure_def, or_bit h8, store_eq hin, htag,
    store_eq (inArena_setMem.mpr hin'), setMem_mem, setMem_setMem, writeTags]

/-- The two tags after `block_set_size_and_allocated`, whatever the words held. -/
theorem blockSetSizeAndAllocated_eq (hb : InArena h b size) (htop : h.memMaxAddr < 2 ^ 64)
    (h8 : size % 8 = 0) (h16 : 16 ≤ size) :
    blockSetSizeAndAllocated h b size alloc =
      some (h.setMem (writeTags h.mem b size alloc)) := by
  have hb1 := hb.1
  have hb2 := hb.2
  have hin : InArena h b 8 := ⟨hb1, by omega⟩
  have hin' : InArena h (b + size - 8) 8 := ⟨by omega, by omega⟩
  obtain ⟨old, hset⟩ := blockSetSize_eq hb htop h8 h16
  have ht : old.toNat ≤ 1 := by cases old <;> decide
  have ht' : alloc.toNat ≤ 1 := by cases alloc <;> decide
  -- both tags hold the size with the old bit
  have hhead : readWord (writeTags h.mem b size old) b = size + old.toNat := by
    unfold writeTags
    rw [readWord_writeWord_of_disjoint (by omega), readWord_writeWord_self (by omega)]
  have hend : readWord (writeWord (writeTags h.mem b size old) b (size + alloc.toNat))
      (b + size - 8) = size + old.toNat := by
    rw [readWord_writeWord_of_disjoint (by omega)]
    unfold writeTags
    rw [readWord_writeWord_self (by omega)]
  have hfinal : writeWord (writeWord (writeTags h.mem b size old) b (size + alloc.toNat))
      (b + size - 8) (size + alloc.toNat) = writeTags h.mem b size alloc := by
    unfold writeTags writeWord
    rw [writeBytes_comm (a := b + size - 8) (b := b) (by simp only [wordSize]; omega),
      writeBytes_writeBytes_self, writeBytes_writeBytes_self]
  have htag := blockEndTag_eq
    (h := h.setMem (writeWord (writeTags h.mem b size old) b (size + alloc.toNat)))
    hb htop h8 h16 alloc (readWord_writeWord_self (by omega))
  simp only [blockSetSizeAndAllocated, hset, blockSetAllocated, Option.bind_eq_bind,
    Option.bind_some, load_eq (inArena_setMem.mpr hin), setMem_mem, hhead, or_bit_one h8,
    clearBit_add_bit h8, store_eq (inArena_setMem.mpr hin), setMem_setMem]
  cases alloc with
  | false =>
    simp only [Bool.toNat_false, Nat.add_zero] at htag hend hfinal
    simp only [Bool.false_eq_true, ↓reduceIte, htag, Option.bind_some,
      load_eq (inArena_setMem.mpr hin'), setMem_mem, hend, clearBit_add_bit h8,
      store_eq (inArena_setMem.mpr hin'), setMem_setMem, hfinal]
  | true =>
    simp only [Bool.toNat_true] at htag hend hfinal
    simp only [↓reduceIte, htag, Option.bind_some, load_eq (inArena_setMem.mpr hin'), setMem_mem,
      hend, or_bit_one h8, store_eq (inArena_setMem.mpr hin'), setMem_setMem, hfinal]

theorem writeTags_of_not_mem (h8 : 8 ≤ size)
    (hx : x < b ∨ (b + 8 ≤ x ∧ x + 8 < b + size) ∨ b + size ≤ x) :
    writeTags m b size alloc x = m x := by
  unfold writeTags
  rw [writeWord_of_not_mem (by omega), writeWord_of_not_mem (by omega)]

theorem writeTags_header (h16 : 16 ≤ size) (hs : size + 1 < 2 ^ 64) :
    readWord (writeTags m b size alloc) b = size + alloc.toNat := by
  have ht : alloc.toNat ≤ 1 := by cases alloc <;> decide
  unfold writeTags
  rw [readWord_writeWord_of_disjoint (by omega), readWord_writeWord_self (by omega)]

theorem writeTags_endTag (hs : size + 1 < 2 ^ 64) :
    readWord (writeTags m b size alloc) (b + size - 8) = size + alloc.toNat := by
  have ht : alloc.toNat ≤ 1 := by cases alloc <;> decide
  unfold writeTags
  rw [readWord_writeWord_self (by omega)]

/-! ## What an operation keeps -/

/-- The arena lies where `mem_init` put it and the break inside it. -/
structure Placed (h : Heap) : Prop where
  start_pos : 0 < h.memStartBrk
  start_le : h.memStartBrk ≤ h.memBrk
  brk_le : h.memBrk ≤ h.memMaxAddr
  max_eq : h.memMaxAddr = h.memStartBrk + maxHeap
  top : h.memMaxAddr + 2 ^ 31 ≤ 2 ^ 64

theorem Placed.setMem (hp : Placed h) (m : Memory) : Placed (h.setMem m) :=
  ⟨hp.1, hp.2, hp.3, hp.4, hp.5⟩

theorem Placed.setFirst (hp : Placed h) (f : Nat) : Placed (h.setFirst f) :=
  ⟨hp.1, hp.2, hp.3, hp.4, hp.5⟩

/-- `h'` differs from `h` in `flist_first` and in bytes of `S` only. -/
structure Keeps (S : Set Nat) (h h' : Heap) : Prop where
  start : h'.memStartBrk = h.memStartBrk
  brk : h'.memBrk = h.memBrk
  max : h'.memMaxAddr = h.memMaxAddr
  prologue : h'.prologue = h.prologue
  epilogue : h'.epilogue = h.epilogue
  mem : ∀ x, x ∉ S → h'.mem x = h.mem x

/-- An operation on the memory and on `flist_first`. -/
theorem Keeps.of_setMem (f : Nat) (hm : ∀ x, x ∉ S → m x = h.mem x) :
    Keeps S h ((h.setMem m).setFirst f) :=
  ⟨rfl, rfl, rfl, rfl, rfl, hm⟩

theorem Keeps.refl (S : Set Nat) (h : Heap) : Keeps S h h :=
  ⟨rfl, rfl, rfl, rfl, rfl, fun _ _ => rfl⟩

theorem Keeps.trans (h1 : Keeps S h h') (h2 : Keeps S h' h'') : Keeps S h h'' where
  start := h2.start.trans h1.start
  brk := h2.brk.trans h1.brk
  max := h2.max.trans h1.max
  prologue := h2.prologue.trans h1.prologue
  epilogue := h2.epilogue.trans h1.epilogue
  mem x hx := (h2.mem x hx).trans (h1.mem x hx)

theorem Keeps.mono (h1 : Keeps S h h') (hST : S ⊆ T) : Keeps T h h' :=
  { h1 with mem := fun x hx => h1.mem x fun hs => hx (hST hs) }

theorem Keeps.inArena (h1 : Keeps S h h') (ha : InArena h a n) : InArena h' a n := by
  unfold InArena
  rw [h1.start, h1.max]
  exact ha

theorem Keeps.placed (h1 : Keeps S h h') (hp : Placed h) : Placed h' where
  start_pos := by rw [h1.start]; exact hp.start_pos
  start_le := by rw [h1.start, h1.brk]; exact hp.start_le
  brk_le := by rw [h1.brk, h1.max]; exact hp.brk_le
  max_eq := by rw [h1.start, h1.max]; exact hp.max_eq
  top := by rw [h1.max]; exact hp.top

theorem Keeps.readWord (h1 : Keeps S h h') (hS : ∀ x ∈ S, x < a ∨ a + 8 ≤ x) :
    readWord h'.mem a = readWord h.mem a :=
  readWord_congr fun x hx hx' => h1.mem x fun hs => by
    have := hS x hs
    omega

end CourseProjects.Malloc

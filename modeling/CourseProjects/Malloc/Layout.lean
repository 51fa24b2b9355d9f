import CourseProjects.Malloc.FreeList

/-!
# The heap as a sequence of blocks

A `Block` is an address, a size and an allocated bit; `Tiles a bs e` says that
the blocks lie one after another from `a` to `e`. `LayoutInv h bs` says that the
blocks `bs` tile the heap and that both tags of each block hold its size and
bit; `LayoutInv.retile` replaces the blocks of one region. `HeapInv h bs fl` adds
that the free list `fl` consists of the blocks that are marked free.
-/

namespace CourseProjects.Malloc

/-- A block with the size invariants of `mm.h` (`ALIGNMENT`, `MINBLOCKSIZE`). -/
@[ext]
structure Block where
  addr : Nat
  size : Nat
  alloc : Bool
  size_mod : size % 8 = 0
  size_ge : 32 ≤ size
  deriving DecidableEq

namespace Block

def stop (b : Block) : Nat := b.addr + b.size

/-- The word in the header and in the end tag. -/
def tag (b : Block) : Nat := b.size + b.alloc.toNat

def setAlloc (b : Block) (alloc : Bool) : Block := { b with alloc }

/-- Two neighbours as one free block. -/
def join (b c : Block) : Block where
  addr := b.addr
  size := b.size + c.size
  alloc := false
  size_mod := by have := b.size_mod; have := c.size_mod; omega
  size_ge := by have := b.size_ge; omega

theorem clearBit_tag (b : Block) : clearBit b.tag = b.size := clearBit_add_bit b.size_mod b.alloc

theorem tag_mod (b : Block) : b.tag % 2 = b.alloc.toNat := by
  have := b.size_mod
  unfold tag
  cases b.alloc <;> simp only [Bool.toNat_false, Bool.toNat_true] <;> omega

end Block

variable {h h' : Heap} {a e : Nat} {b c p n : Block} {bs L M M' R : List Block} {fl fl' : List Nat}
  {S : Set Nat}

/-! ## Tilings -/

/-- The blocks lie one after another from `a` to `e`. -/
def Tiles : Nat → List Block → Nat → Prop
  | a, [], e => a = e
  | a, b :: bs, e => b.addr = a ∧ Tiles b.stop bs e

theorem tiles_append : Tiles a (L ++ R) e ↔ ∃ m, Tiles a L m ∧ Tiles m R e := by
  induction L generalizing a with
  | nil =>
    constructor
    · exact fun h => ⟨a, rfl, h⟩
    · rintro ⟨m, rfl, h⟩
      exact h
  | cons b L ih =>
    simp only [List.cons_append, Tiles, ih]
    constructor
    · rintro ⟨hb, m, h1, h2⟩
      exact ⟨m, ⟨hb, h1⟩, h2⟩
    · rintro ⟨m, ⟨hb, h1⟩, h2⟩
      exact ⟨hb, m, h1, h2⟩

theorem Tiles.le (ht : Tiles a bs e) : a ≤ e := by
  induction bs generalizing a with
  | nil => exact Nat.le_of_eq ht
  | cons b bs ih =>
    have := ih ht.2
    have := ht.1
    unfold Block.stop at *
    omega

theorem Tiles.bounds (ht : Tiles a bs e) (hb : b ∈ bs) : a ≤ b.addr ∧ b.stop ≤ e := by
  induction bs generalizing a with
  | nil => cases hb
  | cons c bs ih =>
    rcases List.mem_cons.mp hb with rfl | hb
    · exact ⟨Nat.le_of_eq ht.1.symm, ht.2.le⟩
    · have := ih ht.2 hb
      have := ht.1
      unfold Block.stop at *
      omega

theorem Tiles.size_le (ht : Tiles a bs e) (hb : b ∈ bs) : b.size ≤ e - a := by
  have := ht.bounds hb
  unfold Block.stop at this
  omega

theorem Tiles.length_le (ht : Tiles a bs e) : bs.length ≤ e - a := by
  induction bs generalizing a with
  | nil => exact Nat.zero_le _
  | cons b bs ih =>
    have := ih ht.2
    have := ht.2.le
    have := ht.1
    have := b.size_ge
    unfold Block.stop at *
    simp only [List.length_cons]
    omega

/-- Two blocks of a tiling are the same or do not overlap. -/
theorem Tiles.disjoint (ht : Tiles a bs e) (hb : b ∈ bs) (hc : c ∈ bs) :
    b = c ∨ b.stop ≤ c.addr ∨ c.stop ≤ b.addr := by
  induction bs generalizing a with
  | nil => cases hb
  | cons d bs ih =>
    rcases List.mem_cons.mp hb with rfl | hb' <;> rcases List.mem_cons.mp hc with rfl | hc'
    · exact Or.inl rfl
    · exact Or.inr (Or.inl (ht.2.bounds hc').1)
    · exact Or.inr (Or.inr (ht.2.bounds hb').1)
    · exact ih ht.2 hb' hc'

theorem Tiles.eq_of_addr (ht : Tiles a bs e) (hb : b ∈ bs) (hc : c ∈ bs)
    (h : b.addr = c.addr) : b = c := by
  have := b.size_ge
  have := c.size_ge
  rcases ht.disjoint hb hc with hbc | hbc
  · exact hbc
  · unfold Block.stop at hbc
    omega

/-- A tiling with one block singled out. -/
theorem tiles_mid : Tiles a (L ++ b :: R) e ↔ Tiles a L b.addr ∧ Tiles b.stop R e := by
  rw [tiles_append]
  constructor
  · rintro ⟨m, h1, h2, h3⟩
    exact ⟨h2 ▸ h1, h3⟩
  · rintro ⟨h1, h2⟩
    exact ⟨b.addr, h1, rfl, h2⟩

/-! ## The invariant -/

/-- Header and end tag of `b` hold its size and bit. -/
structure Tagged (m : Bytes.Memory) (b : Block) : Prop where
  header : readWord m b.addr = b.tag
  endTag : readWord m (b.stop - 8) = b.tag

def prologueBlock (h : Heap) : Block := ⟨h.prologue, minBlockSize, true, rfl, le_refl _⟩
def epilogueBlock (h : Heap) : Block := ⟨h.epilogue, minBlockSize, true, rfl, le_refl _⟩

structure LayoutInv (h : Heap) (bs : List Block) : Prop where
  placed : Placed h
  tiles : Tiles h.memStartBrk bs h.memBrk
  two : 2 ≤ bs.length
  head : bs.head? = some (prologueBlock h)
  last : bs.getLast? = some (epilogueBlock h)
  tagged : ∀ b ∈ bs, Tagged h.mem b

/-- A free block of the layout starts at `a`. -/
def FreeAt (bs : List Block) (a : Nat) : Prop := ∃ b ∈ bs, b.addr = a ∧ b.alloc = false

/-- **The invariant of the allocator.** -/
structure HeapInv (h : Heap) (bs : List Block) (fl : List Nat) : Prop extends LayoutInv h bs where
  free : FreeList h fl
  mem_free : ∀ a, a ∈ fl ↔ FreeAt bs a

/-! ## What the code reads at a block -/

theorem LayoutInv.inArena (hi : LayoutInv h bs) (hb : b ∈ bs) :
    InArena h b.addr b.size ∧ h.memMaxAddr < 2 ^ 64 := by
  have := hi.tiles.bounds hb
  have := hi.placed.brk_le
  have := hi.placed.top
  unfold Block.stop at *
  refine ⟨⟨by omega, by omega⟩, by omega⟩

/-- Sizes are far from overflow. -/
theorem LayoutInv.size_le (hi : LayoutInv h bs) (hb : b ∈ bs) :
    b.size ≤ h.memBrk - h.memStartBrk ∧ b.size < 2 ^ 31 := by
  have := hi.tiles.size_le hb
  have := hi.placed.brk_le
  have hmax := hi.placed.max_eq
  unfold maxHeap at hmax
  omega

theorem LayoutInv.header_inArena (hi : LayoutInv h bs) (hb : b ∈ bs) : InArena h b.addr 8 := by
  have := (hi.inArena hb).1
  have := b.size_ge
  unfold InArena at *
  omega

theorem LayoutInv.blockSize (hi : LayoutInv h bs) (hb : b ∈ bs) :
    blockSize h b.addr = some b.size := by
  rw [blockSize_eq (hi.header_inArena hb), (hi.tagged b hb).header, b.clearBit_tag]

theorem LayoutInv.blockAllocated (hi : LayoutInv h bs) (hb : b ∈ bs) :
    blockAllocated h b.addr = some b.alloc := by
  rw [blockAllocated_eq (hi.header_inArena hb), (hi.tagged b hb).header, b.tag_mod]
  cases b.alloc <;> rfl

/-- A block in the arena with its tags written is left by `block_next`. -/
theorem Tagged.blockNext (ht : Tagged h.mem b) (hp : Placed h) (hb : h.memStartBrk ≤ b.addr)
    (hb' : b.stop ≤ h.memMaxAddr) : blockNext h b.addr = some b.stop := by
  have := hp.top
  have := b.size_ge
  unfold Block.stop at *
  have hin : InArena h b.addr 8 := ⟨hb, by omega⟩
  simp only [Malloc.blockNext, blockSize_eq hin, ht.header, b.clearBit_tag, Option.bind_eq_bind,
    Option.bind_some, Option.pure_def]
  rw [wadd_eq (by omega)]

theorem LayoutInv.blockNext (hi : LayoutInv h bs) (hb : b ∈ bs) :
    blockNext h b.addr = some b.stop :=
  (hi.tagged b hb).blockNext hi.placed (hi.inArena hb).1.1 (hi.inArena hb).1.2

/-- The block before `b` is found through its end tag. -/
theorem LayoutInv.blockPrev (hi : LayoutInv h (L ++ p :: b :: R)) :
    blockPrev h b.addr = some p.addr := by
  have hp : p ∈ L ++ p :: b :: R := by simp
  have hb : b ∈ L ++ p :: b :: R := by simp
  have hpin := (hi.inArena hp).1
  have := (hi.inArena hb).2
  have hbin := (hi.inArena hb).1
  have := p.size_ge
  have := b.size_ge
  have hadj : b.addr = p.stop := (tiles_mid.mp hi.tiles).2.1
  have hstop : p.stop = p.addr + p.size := rfl
  unfold InArena at hpin hbin
  have hend : wsub b.addr 8 = p.stop - 8 := by
    rw [wsub_eq (by omega) (by omega), hadj]
  have hin : InArena h (p.stop - 8) 8 := by
    unfold InArena Block.stop
    omega
  have hload : load h (p.stop - 8) = some p.tag := by
    rw [load_eq hin, (hi.tagged p hp).endTag]
  simp only [Malloc.blockPrev, blockPrevSize, wordSize, hend, hload, Option.bind_eq_bind,
    Option.bind_some, Option.pure_def, p.clearBit_tag]
  rw [wsub_eq (by unfold Block.stop at hadj; omega) (by omega), hadj, Block.stop,
    Nat.add_sub_cancel]

theorem LayoutInv.blockNextAddr (hi : LayoutInv h (L ++ b :: n :: R)) :
    Malloc.blockNext h b.addr = some n.addr := by
  rw [hi.blockNext (by simp), (tiles_mid.mp hi.tiles).2.1]

/-- The blocks of a layout are apart. -/
theorem LayoutInv.apart (hi : LayoutInv h bs) (hb : b ∈ bs) (hc : c ∈ bs) :
    Apart b.addr c.addr := by
  have := b.size_ge
  have := c.size_ge
  unfold Apart
  rcases hi.tiles.disjoint hb hc with rfl | hbc
  · exact Or.inl rfl
  · unfold Block.stop at hbc
    omega

/-! ## Free blocks of a layout -/

theorem freeAt_nil : FreeAt [] a ↔ False := by
  constructor
  · rintro ⟨c, hc, -⟩
    cases hc
  · exact False.elim

theorem freeAt_cons : FreeAt (b :: bs) a ↔ (a = b.addr ∧ b.alloc = false) ∨ FreeAt bs a := by
  constructor
  · rintro ⟨c, hc, rfl, hfree⟩
    rcases List.mem_cons.mp hc with rfl | hc
    · exact Or.inl ⟨rfl, hfree⟩
    · exact Or.inr ⟨c, hc, rfl, hfree⟩
  · rintro (⟨rfl, hfree⟩ | ⟨c, hc, rfl, hfree⟩)
    · exact ⟨b, List.mem_cons_self, rfl, hfree⟩
    · exact ⟨c, List.mem_cons_of_mem _ hc, rfl, hfree⟩

theorem freeAt_append : FreeAt (L ++ R) a ↔ FreeAt L a ∨ FreeAt R a := by
  constructor
  · rintro ⟨c, hc, rfl, hfree⟩
    rcases List.mem_append.mp hc with hc | hc
    · exact Or.inl ⟨c, hc, rfl, hfree⟩
    · exact Or.inr ⟨c, hc, rfl, hfree⟩
  · rintro (⟨c, hc, rfl, hfree⟩ | ⟨c, hc, rfl, hfree⟩)
    · exact ⟨c, List.mem_append_left _ hc, rfl, hfree⟩
    · exact ⟨c, List.mem_append_right _ hc, rfl, hfree⟩

/-- No other block starts where `b` does. -/
theorem Tiles.addr_ne {s : Nat} (ht : Tiles s (L ++ b :: R) e) (hc : c ∈ L ++ R) :
    c.addr ≠ b.addr := by
  have hmid := tiles_mid.mp ht
  have := b.size_ge
  have := c.size_ge
  rcases List.mem_append.mp hc with hc | hc
  · have := (hmid.1.bounds hc).2
    unfold Block.stop at *
    omega
  · have := (hmid.2.bounds hc).1
    unfold Block.stop at *
    omega

/-- An allocated block is not free anywhere. -/
theorem freeAt_allocated (halloc : b.alloc = true) :
    FreeAt (L ++ b :: R) a ↔ FreeAt (L ++ R) a := by
  rw [freeAt_append, freeAt_append, freeAt_cons]
  simp only [halloc, Bool.true_eq_false, and_false, false_or]

theorem Tiles.freeAt_ne {s : Nat} (ht : Tiles s (L ++ b :: R) e) (ha : FreeAt L a ∨ FreeAt R a) :
    a ≠ b.addr := by
  rcases ha with ⟨c, hc, rfl, -⟩ | ⟨c, hc, rfl, -⟩
  · exact ht.addr_ne (List.mem_append_left _ hc)
  · exact ht.addr_ne (List.mem_append_right _ hc)

/-- The first and the last block of a layout are allocated. -/
theorem LayoutInv.left_ne_nil (hi : LayoutInv h (L ++ b :: R)) (hfree : b.alloc = false) :
    L ≠ [] := by
  rintro rfl
  have hb : b = prologueBlock h := by simpa using hi.head
  simp [hb, prologueBlock] at hfree

theorem LayoutInv.right_ne_nil (hi : LayoutInv h (L ++ b :: R)) (hfree : b.alloc = false) :
    R ≠ [] := by
  rintro rfl
  have hb : b = epilogueBlock h := by simpa using hi.last
  simp [hb, epilogueBlock] at hfree

/-! ## Replacing the blocks of a region -/

theorem Tagged.frame (ht : Tagged h.mem b) (hk : Keeps S h h')
    (hS : ∀ x ∈ S, x < b.addr ∨ (b.addr + 8 ≤ x ∧ x + 8 < b.stop) ∨ b.stop ≤ x) :
    Tagged h'.mem b := by
  have := b.size_ge
  constructor
  · rw [hk.readWord fun x hx => ?_, ht.header]
    have := hS x hx
    unfold Block.stop at *
    omega
  · rw [hk.readWord fun x hx => ?_, ht.endTag]
    have := hS x hx
    unfold Block.stop at *
    omega

/-- **Retiling.** The blocks `M` of the region from `u` to `v` become `M'`. -/
theorem LayoutInv.retile (hi : LayoutInv h (L ++ M ++ R)) (hL0 : L ≠ []) (hR0 : R ≠ [])
    {u v : Nat} (hL : Tiles h.memStartBrk L u) (hR : Tiles v R h.memBrk) (hM' : Tiles u M' v)
    (hk : Keeps (Set.Ico u v) h h') (htag : ∀ b ∈ M', Tagged h'.mem b) :
    LayoutInv h' (L ++ M' ++ R) where
  placed := hk.placed hi.placed
  tiles := by
    rw [hk.start, hk.brk]
    exact tiles_append.mpr ⟨v, tiles_append.mpr ⟨u, hL, hM'⟩, hR⟩
  two := by
    have := List.length_pos_iff.mpr hL0
    have := List.length_pos_iff.mpr hR0
    simp only [List.length_append]
    omega
  head := by
    have := hi.head
    rw [List.append_assoc, List.head?_append_of_ne_nil L hL0] at this ⊢
    rw [this, prologueBlock, prologueBlock, hk.prologue]
  last := by
    have := hi.last
    rw [List.getLast?_append_of_ne_nil _ hR0] at this ⊢
    rw [this, epilogueBlock, epilogueBlock, hk.epilogue]
  tagged b hb := by
    rcases List.mem_append.mp hb with hb | hbR
    · rcases List.mem_append.mp hb with hbL | hbM
      · refine (hi.tagged b (by simp [hbL])).frame hk fun x hx => ?_
        have := (hL.bounds hbL).2
        exact Or.inr (Or.inr (le_trans this hx.1))
      · exact htag b hbM
    · refine (hi.tagged b (by simp [hbR])).frame hk fun x hx => ?_
      have := (hR.bounds hbR).1
      exact Or.inl (lt_of_lt_of_le hx.2 this)

/-- The link operations do not touch the tags. -/
theorem LayoutInv.frame_links (hi : LayoutInv h bs) (hk : Keeps (linkBytes fl) h h')
    (hfl : ∀ a ∈ fl, FreeAt bs a) : LayoutInv h' bs where
  placed := hk.placed hi.placed
  tiles := by
    rw [hk.start, hk.brk]
    exact hi.tiles
  two := hi.two
  head := by rw [hi.head, prologueBlock, prologueBlock, hk.prologue]
  last := by rw [hi.last, epilogueBlock, epilogueBlock, hk.epilogue]
  tagged b hb := by
    refine (hi.tagged b hb).frame hk ?_
    rintro x ⟨a, ha, hx⟩
    obtain ⟨c, hc, rfl, -⟩ := hfl a ha
    have := c.size_ge
    rcases hi.tiles.disjoint hb hc with rfl | hbc
    · unfold Block.stop
      omega
    · unfold Block.stop at *
      omega

/-! ## Writing the tags of a block -/

def tagBytes (b : Block) : Set Nat :=
  {x | (b.addr ≤ x ∧ x < b.addr + 8) ∨ (b.stop ≤ x + 8 ∧ x < b.stop)}

theorem mem_tagBytes {x : Nat} (hx : x ∈ tagBytes b) : b.addr ≤ x ∧ x < b.stop := by
  have := b.size_ge
  have hstop : b.stop = b.addr + b.size := rfl
  rcases hx with hx | hx <;> omega

/-- `block_set_size_and_allocated` with the data of `b`, anywhere in the arena. -/
theorem setTags_spec (hp : Placed h) (hb : h.memStartBrk ≤ b.addr) (hb' : b.stop ≤ h.memMaxAddr) :
    ∃ h', blockSetSizeAndAllocated h b.addr b.size b.alloc = some h' ∧ Tagged h'.mem b ∧
      Keeps (tagBytes b) h h' ∧ h'.flistFirst = h.flistFirst := by
  have := b.size_ge
  have := hp.top
  unfold Block.stop at hb'
  have hrun : blockSetSizeAndAllocated h b.addr b.size b.alloc =
      some (h.setMem (writeTags h.mem b.addr b.size b.alloc)) :=
    blockSetSizeAndAllocated_eq ⟨hb, hb'⟩ (by omega) b.size_mod (by omega)
  refine ⟨_, hrun, ⟨writeTags_header (by omega) (by omega), writeTags_endTag (by omega)⟩,
    Keeps.of_setMem h.flistFirst fun x hx => writeTags_of_not_mem (by omega) ?_, rfl⟩
  have hx' : ¬ ((b.addr ≤ x ∧ x < b.addr + 8) ∨ (b.stop ≤ x + 8 ∧ x < b.stop)) := hx
  unfold Block.stop at hx'
  omega

/-- The blocks of a region become the one block `b`. -/
theorem LayoutInv.setTags (hi : LayoutInv h (L ++ M ++ R)) (hL0 : L ≠ []) (hR0 : R ≠ [])
    (hL : Tiles h.memStartBrk L b.addr) (hR : Tiles b.stop R h.memBrk) :
    ∃ h', blockSetSizeAndAllocated h b.addr b.size b.alloc = some h' ∧
      LayoutInv h' (L ++ b :: R) ∧ Keeps (tagBytes b) h h' ∧ h'.flistFirst = h.flistFirst := by
  have hbrk := hi.placed.brk_le
  obtain ⟨h', hrun, htag, hk, hfirst⟩ :=
    setTags_spec (b := b) hi.placed hL.le (le_trans hR.le hbrk)
  have hlay : LayoutInv h' (L ++ [b] ++ R) :=
    hi.retile hL0 hR0 hL hR ⟨rfl, rfl⟩ (hk.mono fun x hx => mem_tagBytes hx)
      (fun c hc => List.mem_singleton.mp hc ▸ htag)
  exact ⟨h', hrun, by simpa using hlay, hk, hfirst⟩

/-- Rewriting the tags of a block keeps a free list whose blocks are marked free
afterwards. -/
theorem FreeList.retag (hf : FreeList h fl) (hi' : LayoutInv h' bs) (hb : b ∈ bs)
    (hk : Keeps (tagBytes b) h h') (hfirst : h'.flistFirst = h.flistFirst)
    (hfl : ∀ a ∈ fl, FreeAt bs a) : FreeList h' fl := by
  refine hf.frame hk hfirst (fun a ha => ?_) (fun x hx a ha => ?_)
  · obtain ⟨c, hc, rfl, hfree⟩ := hfl a ha
    rw [(hi'.tagged c hc).header, c.tag_mod, hfree]
    rfl
  · obtain ⟨c, hc, rfl, -⟩ := hfl a ha
    have := c.size_ge
    rcases hi'.tiles.disjoint hb hc with rfl | hbc
    · have hstop : b.stop = b.addr + b.size := rfl
      rcases hx with hx | hx <;> omega
    · have := mem_tagBytes hx
      unfold Block.stop at *
      omega

/-- Rewriting a region keeps a free list whose blocks lie outside. -/
theorem FreeList.retile (hf : FreeList h fl) (hi' : LayoutInv h' (L ++ M ++ R)) {u v : Nat}
    (hL : Tiles h'.memStartBrk L u) (hR : Tiles v R h'.memBrk) (hk : Keeps (Set.Ico u v) h h')
    (hfirst : h'.flistFirst = h.flistFirst) (hfl : ∀ a ∈ fl, FreeAt (L ++ R) a) :
    FreeList h' fl := by
  refine hf.frame hk hfirst (fun a ha => ?_) (fun x hx a ha => ?_)
  · obtain ⟨c, hc, rfl, hfree⟩ := hfl a ha
    have hc' : c ∈ L ++ M ++ R := by
      simp only [List.mem_append] at hc ⊢
      tauto
    rw [(hi'.tagged c hc').header, c.tag_mod, hfree]
    rfl
  · obtain ⟨c, hc, rfl, -⟩ := hfl a ha
    have := c.size_ge
    have hx1 : u ≤ x := hx.1
    have hx2 : x < v := hx.2
    rcases List.mem_append.mp hc with hc | hc
    · have := (hL.bounds hc).2
      unfold Block.stop at this
      omega
    · have := (hR.bounds hc).1
      omega

/-! ## Frames -/

/-- The bytes that belong to no allocated block of `bs`. -/
def unallocated (bs : List Block) : Set Nat :=
  {x | ∀ c ∈ bs, c.alloc = true → x < c.addr ∨ c.stop ≤ x}

theorem unallocated_of_free (hfree : b.alloc = false) :
    unallocated (L ++ b :: R) = unallocated (L ++ R) := by
  ext x
  constructor
  · intro hx c hc
    exact hx c (by simp only [List.mem_append, List.mem_cons] at hc ⊢; tauto)
  · intro hx c hc halloc
    simp only [List.mem_append, List.mem_cons] at hc
    rcases hc with hc | rfl | hc
    · exact hx c (by simp [hc]) halloc
    · simp [halloc] at hfree
    · exact hx c (by simp [hc]) halloc

/-- The bytes of a free block are unallocated. -/
theorem LayoutInv.mem_unallocated (hi : LayoutInv h bs) (hb : b ∈ bs) (hfree : b.alloc = false)
    {x : Nat} (hx : b.addr ≤ x ∧ x < b.stop) : x ∈ unallocated bs := by
  intro c hc halloc
  rcases hi.tiles.disjoint hb hc with rfl | hbc
  · simp [halloc] at hfree
  · omega

theorem LayoutInv.linkBytes_subset (hi : LayoutInv h bs) (hfl : ∀ a ∈ fl, FreeAt bs a) :
    linkBytes fl ⊆ unallocated bs := by
  rintro x ⟨a, ha, hx⟩
  obtain ⟨c, hc, rfl, hfree⟩ := hfl a ha
  have := c.size_ge
  exact hi.mem_unallocated hc hfree (by unfold Block.stop; omega)

theorem LayoutInv.tagBytes_subset (hi : LayoutInv h bs) (hb : b ∈ bs) (hfree : b.alloc = false) :
    tagBytes b ⊆ unallocated bs :=
  fun _ hx => hi.mem_unallocated hb hfree (mem_tagBytes hx)

/-- The bytes of a block belong to no other block. -/
theorem LayoutInv.mem_unallocated_others (hi : LayoutInv h (L ++ b :: R)) {x : Nat}
    (hx : b.addr ≤ x ∧ x < b.stop) : x ∈ unallocated (L ++ R) := by
  have hmid := tiles_mid.mp hi.tiles
  intro c hc _
  rcases List.mem_append.mp hc with hc | hc
  · have := (hmid.1.bounds hc).2
    omega
  · have := (hmid.2.bounds hc).1
    omega

theorem pull_spec (hl : LayoutInv h bs) (hf : FreeList h fl) (hfl : ∀ c ∈ fl, FreeAt bs c)
    (ha : a ∈ fl) :
    ∃ h', pullFreeBlock h a = some h' ∧ LayoutInv h' bs ∧ FreeList h' (fl.erase a) ∧
      Keeps (unallocated bs) h h' := by
  obtain ⟨pre, post, rfl⟩ := List.append_of_mem ha
  have hpre : a ∉ pre := by
    have := List.nodup_append.mp hf.nodup
    exact fun hm => this.2.2 a hm a List.mem_cons_self rfl
  have herase : (pre ++ a :: post).erase a = pre ++ post := by
    rw [List.erase_append_right _ hpre, List.erase_cons_head]
  have hsub : ∀ c ∈ pre ++ post, FreeAt bs c := by
    intro c hc
    refine hfl c ?_
    simp only [List.mem_append, List.mem_cons] at hc ⊢
    tauto
  obtain ⟨h', hrun, hf', hk⟩ := pullFreeBlock_spec hl.placed hf
  exact ⟨h', hrun, hl.frame_links hk hsub, herase ▸ hf', hk.mono (hl.linkBytes_subset hsub)⟩

/-- The free block `s` between the others goes to the head of the free list. -/
theorem link_spec {s : Block} (hi : LayoutInv h (L ++ s :: R)) (hf : FreeList h fl)
    (hmem : ∀ a, a ∈ fl ↔ FreeAt (L ++ R) a) (hfree : s.alloc = false) :
    ∃ h', insertFreeBlock h s.addr = some h' ∧ HeapInv h' (L ++ s :: R) (s.addr :: fl) ∧
      Keeps (unallocated (L ++ s :: R)) h h' := by
  have hs : s ∈ L ++ s :: R := by simp
  have hnode : FreeNode h s.addr := by
    have hsin := (hi.inArena hs).1
    refine ⟨⟨hsin.1, le_trans (Nat.add_le_add_left s.size_ge _) hsin.2⟩, ?_⟩
    rw [(hi.tagged s hs).header, s.tag_mod, hfree]
    rfl
  have hmem' : ∀ a, a ∈ s.addr :: fl ↔ FreeAt (L ++ s :: R) a := by
    intro a
    rw [List.mem_cons, hmem, freeAt_append, freeAt_append, freeAt_cons]
    simp only [hfree, and_true]
    exact or_left_comm
  have hfl : ∀ a ∈ fl, FreeAt (L ++ s :: R) a := fun a ha =>
    (hmem' a).mp (List.mem_cons_of_mem _ ha)
  have hap : ∀ a ∈ fl, Apart a s.addr := by
    intro a ha
    obtain ⟨c, hc, rfl, -⟩ := hfl a ha
    exact hi.apart hc hs
  have hnew : s.addr ∉ fl := fun h =>
    hi.tiles.freeAt_ne (freeAt_append.mp ((hmem _).mp h)) rfl
  obtain ⟨h', hrun, hf', hk⟩ := insertFreeBlock_spec hi.placed hf hnode hap hnew
  have hall : ∀ a ∈ s.addr :: fl, FreeAt (L ++ s :: R) a := fun a ha => (hmem' a).mp ha
  exact ⟨h', hrun, ⟨hi.frame_links hk hall, hf', hmem'⟩, hk.mono (hi.linkBytes_subset hall)⟩

end CourseProjects.Malloc

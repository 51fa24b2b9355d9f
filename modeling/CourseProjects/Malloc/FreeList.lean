import CourseProjects.Lib.CyclicList
import CourseProjects.Malloc.Primitive

/-!
# The free list

`FreeList h fl` says that `flist_first` heads the ring `fl` of blocks marked
free, the links being the first two payload words. `pullFreeBlock_spec` and
`insertFreeBlock_spec` are the two edits; they change links of the blocks that
are on the list afterwards and nothing else.
-/

namespace CourseProjects.Malloc

open Bytes CyclicList

variable {h h' : Heap} {m : Memory} {a b v x fb : Nat} {S : Set Nat} {fl : List Nat}

/-- `b->payload[0]` and `b->payload[1]` of a free block. -/
def nextOf (m : Memory) (b : Nat) : Nat := readWord m (b + 8)
def prevOf (m : Memory) (b : Nat) : Nat := readWord m (b + 16)

/-- The bytes of the two links of the blocks `fl`. -/
def linkBytes (fl : List Nat) : Set Nat := {x | ∃ a ∈ fl, a + 8 ≤ x ∧ x < a + 24}

/-- The two blocks are one or do not overlap, each being 32 bytes at least. -/
def Apart (a b : Nat) : Prop := a = b ∨ a + 32 ≤ b ∨ b + 32 ≤ a

theorem Apart.symm (hab : Apart a b) : Apart b a := by
  unfold Apart at *
  omega

theorem header_writeNext (hab : Apart a b) :
    readWord (writeWord m (b + 8) v) a = readWord m a :=
  readWord_writeWord_of_disjoint (by unfold Apart at hab; omega)

theorem header_writePrev (hab : Apart a b) :
    readWord (writeWord m (b + 16) v) a = readWord m a :=
  readWord_writeWord_of_disjoint (by unfold Apart at hab; omega)

theorem nextOf_writeNext_self (hv : v < 2 ^ 64) : nextOf (writeWord m (b + 8) v) b = v :=
  readWord_writeWord_self hv

theorem nextOf_writeNext_of_ne (hab : Apart a b) (hne : a ≠ b) :
    nextOf (writeWord m (b + 8) v) a = nextOf m a :=
  readWord_writeWord_of_disjoint (by unfold Apart at hab; omega)

theorem nextOf_writePrev (hab : Apart a b) :
    nextOf (writeWord m (b + 16) v) a = nextOf m a :=
  readWord_writeWord_of_disjoint (by unfold Apart at hab; omega)

theorem prevOf_writePrev_self (hv : v < 2 ^ 64) : prevOf (writeWord m (b + 16) v) b = v :=
  readWord_writeWord_self hv

theorem prevOf_writePrev_of_ne (hab : Apart a b) (hne : a ≠ b) :
    prevOf (writeWord m (b + 16) v) a = prevOf m a :=
  readWord_writeWord_of_disjoint (by unfold Apart at hab; omega)

theorem prevOf_writeNext (hab : Apart a b) :
    prevOf (writeWord m (b + 8) v) a = prevOf m a :=
  readWord_writeWord_of_disjoint (by unfold Apart at hab; omega)

/-- A block of the arena marked free. -/
structure FreeNode (h : Heap) (a : Nat) : Prop where
  inArena : InArena h a 32
  even : readWord h.mem a % 2 = 0

theorem FreeNode.lt (ha : FreeNode h a) (hp : Placed h) : a + 2 ^ 31 < 2 ^ 64 := by
  have := ha.inArena.2
  have := hp.top
  omega

/-- What the list operations read at a free block. -/
theorem FreeNode.reads (ha : FreeNode h a) (hp : Placed h) :
    blockAllocated h a = some false ∧ payloadAt a 0 = a + 8 ∧ payloadAt a 1 = a + 16 ∧
      blockNextFree h a = some (nextOf h.mem a) ∧ blockPrevFree h a = some (prevOf h.mem a) := by
  obtain ⟨hin1, hin2⟩ := ha.inArena
  have hlt := ha.lt hp
  have halloc : blockAllocated h a = some false := by
    rw [blockAllocated_eq ⟨hin1, by omega⟩, ha.even]
    rfl
  have h0 := payloadAt_zero (b := a) (by omega)
  have h1 := payloadAt_one (b := a) (by omega)
  refine ⟨halloc, h0, h1, ?_, ?_⟩
  · simp only [blockNextFree, halloc, Option.bind_eq_bind, Option.bind_some, h0, guard,
      Bool.not_false, ↓reduceIte, Option.pure_def]
    exact load_eq ⟨by omega, by omega⟩
  · simp only [blockPrevFree, halloc, Option.bind_eq_bind, Option.bind_some, h1, guard,
      Bool.not_false, ↓reduceIte, Option.pure_def]
    exact load_eq ⟨by omega, by omega⟩

theorem blockSetNextFree_eq (ha : FreeNode h a) (hb : FreeNode h b) (hp : Placed h) :
    blockSetNextFree h a b = some (h.setMem (writeWord h.mem (a + 8) b)) := by
  obtain ⟨hin1, hin2⟩ := ha.inArena
  obtain ⟨haa, h0, -⟩ := ha.reads hp
  obtain ⟨hba, -⟩ := hb.reads hp
  simp only [blockSetNextFree, haa, hba, h0, Option.bind_eq_bind, Option.bind_some, guard,
    Bool.not_false, Bool.and_self, ↓reduceIte, Option.pure_def]
  exact store_eq ⟨by omega, by omega⟩

theorem blockSetPrevFree_eq (ha : FreeNode h a) (hb : FreeNode h b) (hp : Placed h) :
    blockSetPrevFree h a b = some (h.setMem (writeWord h.mem (a + 16) b)) := by
  obtain ⟨hin1, hin2⟩ := ha.inArena
  obtain ⟨haa, -, h1, -⟩ := ha.reads hp
  obtain ⟨hba, -⟩ := hb.reads hp
  simp only [blockSetPrevFree, haa, hba, h1, Option.bind_eq_bind, Option.bind_some, guard,
    Bool.not_false, Bool.and_self, ↓reduceIte, Option.pure_def]
  exact store_eq ⟨by omega, by omega⟩

theorem FreeNode.setMem (ha : FreeNode h a) (hm : readWord m a = readWord h.mem a) :
    FreeNode (h.setMem m) a :=
  ⟨ha.inArena, by rw [setMem_mem, hm, ha.even]⟩

theorem FreeNode.setFirst (ha : FreeNode h a) (f : Nat) : FreeNode (h.setFirst f) a :=
  ⟨ha.inArena, ha.even⟩

/-- `flist_first` heads the circular list `fl` of blocks marked free. -/
structure FreeList (h : Heap) (fl : List Nat) : Prop where
  nodup : fl.Nodup
  node : ∀ a ∈ fl, FreeNode h a
  apart : ∀ a ∈ fl, ∀ b ∈ fl, Apart a b
  ring : Ring (nextOf h.mem) (prevOf h.mem) fl
  first : h.flistFirst = fl.headD null

theorem FreeNode.ne_null (ha : FreeNode h a) (hp : Placed h) : a ≠ null := by
  have := ha.inArena.1
  have := hp.start_pos
  unfold null
  omega

theorem FreeList.first_eq_null_iff (hf : FreeList h fl) (hp : Placed h) :
    h.flistFirst = null ↔ fl = [] := by
  rw [hf.first]
  cases fl with
  | nil => exact ⟨fun _ => rfl, fun _ => rfl⟩
  | cons a fl =>
    have ha := (hf.node a List.mem_cons_self).ne_null hp
    simp only [List.headD_cons, reduceCtorEq, iff_false]
    exact ha

/-- A change outside the links and the parity of the headers keeps the list. -/
theorem FreeList.frame (hf : FreeList h fl) (hk : Keeps S h h')
    (hfirst : h'.flistFirst = h.flistFirst) (heven : ∀ a ∈ fl, readWord h'.mem a % 2 = 0)
    (hS : ∀ x ∈ S, ∀ a ∈ fl, x < a + 8 ∨ a + 24 ≤ x) : FreeList h' fl where
  nodup := hf.nodup
  node a ha := ⟨hk.inArena (hf.node a ha).inArena, heven a ha⟩
  apart := hf.apart
  ring := hf.ring.congr
    (fun a ha => hk.readWord fun x hx => by have := hS x hx a ha; omega)
    (fun a ha => hk.readWord fun x hx => by have := hS x hx a ha; omega)
  first := hfirst.trans hf.first

/-- The memory after the two link updates of `pull_free_block`. -/
def unlinkMem (m : Memory) (fb : Nat) : Memory :=
  writeWord (writeWord m (prevOf m fb + 8) (nextOf m fb)) (nextOf m fb + 16) (prevOf m fb)

theorem unlinkFree_eq (hp : Placed h) (hfb : FreeNode h fb)
    (hn : FreeNode h (nextOf h.mem fb)) (hq : FreeNode h (prevOf h.mem fb))
    (hfq : Apart fb (prevOf h.mem fb)) (hnq : Apart (nextOf h.mem fb) (prevOf h.mem fb)) :
    unlinkFree h fb = some (h.setMem (unlinkMem h.mem fb)) := by
  obtain ⟨-, -, -, hnext, hprev⟩ := hfb.reads hp
  unfold unlinkMem
  have hn64 : nextOf h.mem fb < 2 ^ 64 := readWord_lt _ _
  generalize hnn : nextOf h.mem fb = n at *
  generalize hqq : prevOf h.mem fb = q at *
  -- the first update may hit `fb` itself, whose links are read again below
  have hfb1 : FreeNode (h.setMem (writeWord h.mem (q + 8) n)) fb := hfb.setMem (header_writeNext hfq)
  have hn1 : FreeNode (h.setMem (writeWord h.mem (q + 8) n)) n := hn.setMem (header_writeNext hnq)
  have hq1 : FreeNode (h.setMem (writeWord h.mem (q + 8) n)) q :=
    hq.setMem (header_writeNext (Or.inl rfl))
  obtain ⟨-, -, -, hnext1, hprev1⟩ := hfb1.reads (hp.setMem _)
  have hn2 : nextOf (writeWord h.mem (q + 8) n) fb = n := by
    by_cases hne : fb = q
    · rw [hne]
      exact nextOf_writeNext_self hn64
    · rw [nextOf_writeNext_of_ne hfq hne, hnn]
  have hq2 : prevOf (writeWord h.mem (q + 8) n) fb = q := (prevOf_writeNext hfq).trans hqq
  simp only [unlinkFree, hnext, hprev, Option.bind_eq_bind, Option.bind_some,
    blockSetNextFree_eq hq hn hp, hnext1, hprev1, setMem_mem, hn2, hq2,
    blockSetPrevFree_eq hn1 hq1 (hp.setMem _), setMem_setMem]

theorem mem_linkBytes_next (ha : a ∈ fl) (hx : a + 8 ≤ x ∧ x < a + 16) : x ∈ linkBytes fl :=
  ⟨a, ha, hx.1, by omega⟩

theorem mem_linkBytes_prev (ha : a ∈ fl) (hx : a + 16 ≤ x ∧ x < a + 24) : x ∈ linkBytes fl :=
  ⟨a, ha, by omega, hx.2⟩

theorem writeNext_of_not_mem (ha : a ∈ fl) (hx : x ∉ linkBytes fl) :
    writeWord m (a + 8) v x = m x :=
  writeWord_of_not_mem (by
    have : ¬ (a + 8 ≤ x ∧ x < a + 16) := fun hx' => hx (mem_linkBytes_next ha hx')
    omega)

theorem writePrev_of_not_mem (ha : a ∈ fl) (hx : x ∉ linkBytes fl) :
    writeWord m (a + 16) v x = m x :=
  writeWord_of_not_mem (by
    have : ¬ (a + 16 ≤ x ∧ x < a + 24) := fun hx' => hx (mem_linkBytes_prev ha hx')
    omega)

variable {pre post : List Nat}

/-- The ring without `fb`, in the memory of `unlinkMem`. -/
theorem FreeList.unlink (hp : Placed h) (hf : FreeList h (pre ++ fb :: post))
    (hne : pre ++ post ≠ []) {f : Nat} (hfirst : f = (pre ++ post).headD null) :
    unlinkFree (h.setFirst f) fb = some ((h.setMem (unlinkMem h.mem fb)).setFirst f) ∧
      FreeList ((h.setMem (unlinkMem h.mem fb)).setFirst f) (pre ++ post) ∧
      Keeps (linkBytes (pre ++ post)) h ((h.setMem (unlinkMem h.mem fb)).setFirst f) := by
  have hsub : ∀ c ∈ pre ++ post, c ∈ pre ++ fb :: post := by
    intro c hc
    simp only [List.mem_append, List.mem_cons] at hc ⊢
    tauto
  have hfb : fb ∈ pre ++ fb :: post := by simp
  obtain ⟨hn, hq⟩ := hf.ring.neighbours_mem hne
  have hnodup : (pre ++ post).Nodup := by
    have := hf.nodup
    simp only [List.nodup_append, List.nodup_cons, List.mem_cons] at this ⊢
    exact ⟨this.1, this.2.1.2, fun c hc d hd => this.2.2 c hc d (Or.inr hd)⟩
  have hap : ∀ c ∈ pre ++ post, ∀ d ∈ pre ++ post, Apart c d :=
    fun c hc d hd => hf.apart c (hsub c hc) d (hsub d hd)
  have hrun := unlinkFree_eq (hp.setFirst f) ((hf.node fb hfb).setFirst f)
    ((hf.node _ (hsub _ hn)).setFirst f) ((hf.node _ (hsub _ hq)).setFirst f)
    (hf.apart fb hfb _ (hsub _ hq)) (hap _ hn _ hq)
  simp only [setFirst_mem, setMem_setFirst] at hrun
  refine ⟨hrun, ?_⟩
  have hn64 : nextOf h.mem fb < 2 ^ 64 := readWord_lt _ _
  have hq64 : prevOf h.mem fb < 2 ^ 64 := readWord_lt _ _
  have hring := hf.ring
  unfold unlinkMem
  generalize hnn : nextOf h.mem fb = n at *
  generalize hqq : prevOf h.mem fb = q at *
  refine ⟨⟨hnodup, ?_, hap, ?_, hfirst⟩, Keeps.of_setMem f ?_⟩
  · intro c hc
    refine ((hf.node c (hsub c hc)).setMem ?_).setFirst f
    rw [header_writePrev (hap c hc n hn), header_writeNext (hap c hc q hq)]
  · simp only [setFirst_mem, setMem_mem]
    refine hring.remove hf.nodup ?_ ?_ ?_ ?_
    · rw [hnn, hqq, nextOf_writePrev (hap q hq n hn), nextOf_writeNext_self hn64]
    · rw [hnn, hqq, prevOf_writePrev_self hq64]
    · intro c hc hcq
      rw [hqq] at hcq
      rw [nextOf_writePrev (hap c hc n hn), nextOf_writeNext_of_ne (hap c hc q hq) hcq]
    · intro c hc hcn
      rw [hnn] at hcn
      rw [prevOf_writePrev_of_ne (hap c hc n hn) hcn, prevOf_writeNext (hap c hc q hq)]
  · intro x hx
    rw [writePrev_of_not_mem hn hx, writeNext_of_not_mem hq hx]

theorem pullFreeBlock_spec (hp : Placed h) (hf : FreeList h (pre ++ fb :: post)) :
    ∃ h', pullFreeBlock h fb = some h' ∧ FreeList h' (pre ++ post) ∧
      Keeps (linkBytes (pre ++ post)) h h' := by
  have hfb : fb ∈ pre ++ fb :: post := by simp
  obtain ⟨halloc, -, -, hnext, -⟩ := (hf.node fb hfb).reads hp
  have hpull : pullFreeBlock h fb = if h.flistFirst = fb then
      (if nextOf h.mem fb = fb then some (h.setFirst null)
        else unlinkFree (h.setFirst (nextOf h.mem fb)) fb)
      else unlinkFree h fb := by
    simp only [pullFreeBlock, halloc, hnext, Option.bind_eq_bind, Option.bind_some, guard,
      Bool.not_false, ↓reduceIte, Option.pure_def, Heap.setFirst]
  rw [hpull]
  cases pre with
  | cons a pre =>
    have hne : h.flistFirst ≠ fb := by
      rw [hf.first]
      have := (List.nodup_cons.mp hf.nodup).1
      simp only [List.cons_append, List.headD_cons]
      rintro rfl
      exact this (by simp)
    have hfirst : h.flistFirst = (a :: pre ++ post).headD null := hf.first
    obtain ⟨hrun, hf', hk⟩ := hf.unlink hp (by simp) hfirst
    exact ⟨_, by rw [if_neg hne]; exact hrun, hf', hk⟩
  | nil =>
    have hfirst : h.flistFirst = fb := hf.first
    rw [if_pos hfirst]
    cases post with
    | nil =>
      rw [if_pos (ring_singleton.mp hf.ring).1]
      exact ⟨_, rfl, ⟨List.nodup_nil, by simp, by simp, ring_nil, rfl⟩,
        ⟨rfl, rfl, rfl, rfl, rfl, fun _ _ => rfl⟩⟩
    | cons z post =>
      have hz : nextOf h.mem fb = z :=
        (List.isChain_cons_cons.mp (ring_cons_iff.mp hf.ring).2).1.1
      have hne : nextOf h.mem fb ≠ fb := by
        rw [hz]
        rintro rfl
        exact (List.nodup_cons.mp hf.nodup).1 List.mem_cons_self
      rw [if_neg hne, hz]
      obtain ⟨hrun, hf', hk⟩ := hf.unlink hp (by simp) (f := z) rfl
      exact ⟨_, hrun, hf', hk⟩

/-- The memory after the stores of `insert_free_block` before `first`. -/
def insertMem (m : Memory) (fb first last : Nat) : Memory :=
  writeWord (writeWord (writeWord (writeWord m (fb + 8) first) (fb + 16) last) (last + 8) fb)
    (first + 16) fb

/-- The four stores put `fb` in front of a ring whose last block is `last`. -/
theorem insertMem_ring {m : Memory} {f last : Nat} {rest : List Nat}
    (hring : Ring (nextOf m) (prevOf m) (f :: rest)) (hnodup : (f :: rest).Nodup)
    (hlast : prevOf m f = last) (hl : last ∈ f :: rest) (hnew : fb ∉ f :: rest)
    (hap : ∀ c ∈ fb :: f :: rest, Apart c fb ∧ Apart c f ∧ Apart c last) (hf64 : f < 2 ^ 64)
    (hfb64 : fb < 2 ^ 64) (hl64 : last < 2 ^ 64) :
    Ring (nextOf (insertMem m fb f last)) (prevOf (insertMem m fb f last)) (fb :: f :: rest) := by
  have hne : ∀ c ∈ f :: rest, c ≠ fb := fun c hc hcf => hnew (hcf ▸ hc)
  have hfb : Apart fb fb ∧ Apart fb f ∧ Apart fb last := hap fb List.mem_cons_self
  have hla : Apart last fb ∧ Apart last f ∧ Apart last last := hap last (List.mem_cons_of_mem _ hl)
  unfold insertMem
  refine hring.insert hnodup ?_ ?_ ?_ ?_ ?_ ?_
  · rw [nextOf_writePrev hfb.2.1, nextOf_writeNext_of_ne hfb.2.2 (Ne.symm (hne last hl)),
      nextOf_writePrev hfb.1, nextOf_writeNext_self hf64]
  · rw [prevOf_writePrev_of_ne hfb.2.1 (Ne.symm (hne f List.mem_cons_self)),
      prevOf_writeNext hfb.2.2, prevOf_writePrev_self hl64, hlast]
  · rw [hlast, nextOf_writePrev hla.2.1, nextOf_writeNext_self hfb64]
  · rw [prevOf_writePrev_self hfb64]
  · intro c hc hcl
    obtain ⟨hcfb, hcf, hcla⟩ := hap c (List.mem_cons_of_mem fb hc)
    rw [hlast] at hcl
    rw [nextOf_writePrev hcf, nextOf_writeNext_of_ne hcla hcl, nextOf_writePrev hcfb,
      nextOf_writeNext_of_ne hcfb (hne c hc)]
  · intro c hc hcf
    obtain ⟨hcfb, hcf', hcla⟩ := hap c (List.mem_cons_of_mem fb hc)
    rw [prevOf_writePrev_of_ne hcf' hcf, prevOf_writeNext hcla,
      prevOf_writePrev_of_ne hcfb (hne c hc), prevOf_writeNext hcfb]

theorem insertFreeBlock_nil (hp : Placed h) (hf : FreeList h []) (hfb : FreeNode h fb) :
    ∃ h', insertFreeBlock h fb = some h' ∧ FreeList h' [fb] ∧ Keeps (linkBytes [fb]) h h' := by
  have hself : Apart fb fb := Or.inl rfl
  have hfb64 : fb < 2 ^ 64 := by have := hfb.lt hp; omega
  obtain ⟨halloc, -⟩ := hfb.reads hp
  have hfirst : h.flistFirst = null := hf.first
  have hfb1 : FreeNode (h.setMem (writeWord h.mem (fb + 8) fb)) fb :=
    hfb.setMem (header_writeNext hself)
  refine ⟨(h.setMem (writeWord (writeWord h.mem (fb + 8) fb) (fb + 16) fb)).setFirst fb,
    ?_, ⟨List.nodup_singleton fb, ?_, ?_, ?_, rfl⟩, Keeps.of_setMem fb ?_⟩
  · simp only [insertFreeBlock, halloc, hfirst, blockSetNextFree_eq hfb hfb hp,
      blockSetPrevFree_eq hfb1 hfb1 (hp.setMem _), Option.bind_eq_bind, Option.bind_some, guard,
      Bool.not_false, ↓reduceIte, Option.pure_def, ne_eq, not_true_eq_false, setMem_mem,
      setMem_setMem, Heap.setFirst]
  · intro c hc
    obtain rfl := List.mem_singleton.mp hc
    refine (hfb.setMem ?_).setFirst c
    rw [header_writePrev hself, header_writeNext hself]
  · intro c hc d hd
    rw [List.mem_singleton.mp hc, List.mem_singleton.mp hd]
    exact hself
  · refine ring_singleton.mpr ⟨?_, prevOf_writePrev_self hfb64⟩
    rw [setFirst_mem, setMem_mem, nextOf_writePrev hself, nextOf_writeNext_self hfb64]
  · intro x hx
    rw [writePrev_of_not_mem List.mem_cons_self hx, writeNext_of_not_mem List.mem_cons_self hx]

theorem insertFreeBlock_cons {f : Nat} {rest : List Nat} (hp : Placed h)
    (hf : FreeList h (f :: rest)) (hfb : FreeNode h fb) (hap : ∀ a ∈ f :: rest, Apart a fb)
    (hnew : fb ∉ f :: rest) :
    ∃ h', insertFreeBlock h fb = some h' ∧ FreeList h' (fb :: f :: rest) ∧
      Keeps (linkBytes (fb :: f :: rest)) h h' := by
  have hself : Apart fb fb := Or.inl rfl
  have hfb64 : fb < 2 ^ 64 := by have := hfb.lt hp; omega
  obtain ⟨halloc, -⟩ := hfb.reads hp
  have hfirst : h.flistFirst = f := hf.first
  have hff : f ∈ f :: rest := List.mem_cons_self
  have hl := (hf.ring.neighbours hff).2.1
  obtain ⟨-, -, -, -, hprev⟩ := (hf.node f hff).reads hp
  have hl64 : prevOf h.mem f < 2 ^ 64 := readWord_lt _ _
  generalize hlast : prevOf h.mem f = last at hl hprev hl64
  have hf64 : f < 2 ^ 64 := by have := (hf.node f hff).lt hp; omega
  have hnode : ∀ c ∈ fb :: f :: rest, FreeNode h c := by
    intro c hc
    rcases List.mem_cons.mp hc with rfl | hc
    · exact hfb
    · exact hf.node c hc
  have hall : ∀ c ∈ fb :: f :: rest, Apart c fb ∧ Apart c f ∧ Apart c last := by
    intro c hc
    rcases List.mem_cons.mp hc with rfl | hc
    · exact ⟨hself, (hap f hff).symm, (hap last hl).symm⟩
    · exact ⟨hap c hc, hf.apart c hc f hff, hf.apart c hc last hl⟩
  have hfbm : fb ∈ fb :: f :: rest := List.mem_cons_self
  have hfm : f ∈ fb :: f :: rest := List.mem_cons_of_mem _ hff
  have hlm : last ∈ fb :: f :: rest := List.mem_cons_of_mem _ hl
  -- after each of the four stores every block of the list is still marked free
  have node1 : ∀ c ∈ fb :: f :: rest, FreeNode (h.setMem (writeWord h.mem (fb + 8) f)) c :=
    fun c hc => (hnode c hc).setMem (header_writeNext (hall c hc).1)
  have node2 : ∀ c ∈ fb :: f :: rest,
      FreeNode (h.setMem (writeWord (writeWord h.mem (fb + 8) f) (fb + 16) last)) c :=
    fun c hc => (node1 c hc).setMem (header_writePrev (hall c hc).1)
  have node3 : ∀ c ∈ fb :: f :: rest, FreeNode
      (h.setMem (writeWord (writeWord (writeWord h.mem (fb + 8) f) (fb + 16) last)
        (last + 8) fb)) c :=
    fun c hc => (node2 c hc).setMem (header_writeNext (hall c hc).2.2)
  have node4 : ∀ c ∈ fb :: f :: rest, FreeNode (h.setMem (insertMem h.mem fb f last)) c :=
    fun c hc => (node3 c hc).setMem (header_writePrev (hall c hc).2.1)
  have hset1 := blockSetNextFree_eq hfb (hnode f hfm) hp
  have hset2 := blockSetPrevFree_eq (node1 fb hfbm) (node1 last hlm) (hp.setMem _)
  have hset3 := blockSetNextFree_eq (node2 last hlm) (node2 fb hfbm) (hp.setMem _)
  have hset4 := blockSetPrevFree_eq (node3 f hfm) (node3 fb hfbm) (hp.setMem _)
  have hnn : f ≠ null := (hnode f hfm).ne_null hp
  refine ⟨(h.setMem (insertMem h.mem fb f last)).setFirst fb, ?_,
    ⟨List.nodup_cons.mpr ⟨hnew, hf.nodup⟩, fun c hc => (node4 c hc).setFirst fb, ?_,
      insertMem_ring hf.ring hf.nodup hlast hl hnew hall hf64 hfb64 hl64, rfl⟩,
    Keeps.of_setMem fb ?_⟩
  · simp only [insertFreeBlock, halloc, hfirst, hprev, hset1, hset2, hset3, hset4, setMem_first,
      Option.bind_eq_bind, Option.bind_some, guard, Bool.not_false, ↓reduceIte, Option.pure_def,
      ne_eq, hnn, not_false_eq_true, setMem_mem, setMem_setMem]
    rfl
  · intro c hc d hd
    rcases List.mem_cons.mp hd with rfl | hd'
    · exact (hall c hc).1
    · rcases List.mem_cons.mp hc with rfl | hc'
      · exact (hap d hd').symm
      · exact hf.apart c hc' d hd'
  · intro x hx
    unfold insertMem
    rw [writePrev_of_not_mem hfm hx, writeNext_of_not_mem hlm hx, writePrev_of_not_mem hfbm hx,
      writeNext_of_not_mem hfbm hx]

/-- The block `fb` becomes the head of the list. -/
theorem insertFreeBlock_spec (hp : Placed h) (hf : FreeList h fl) (hfb : FreeNode h fb)
    (hap : ∀ a ∈ fl, Apart a fb) (hnew : fb ∉ fl) :
    ∃ h', insertFreeBlock h fb = some h' ∧ FreeList h' (fb :: fl) ∧
      Keeps (linkBytes (fb :: fl)) h h' := by
  cases fl with
  | nil => exact insertFreeBlock_nil hp hf hfb
  | cons f rest => exact insertFreeBlock_cons hp hf hfb hap hnew

end CourseProjects.Malloc

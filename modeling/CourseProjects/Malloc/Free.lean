import CourseProjects.Malloc.Layout
import CourseProjects.Malloc.Mm

/-!
# `mm_free` and `coalesce`

`mm_free` marks the block free and puts it at the head of the list
(`markFree_spec`); `coalesce` then joins it with the free ones among its two
neighbours (`coalesce_spec`). `mmFree_spec` is their composition.
-/

namespace CourseProjects.Malloc

variable {h h' : Heap} {a e : Nat} {b c p n : Block} {bs L R : List Block} {fl : List Nat}

/-- What `coalesce` leaves of the free block `b` and its neighbours. -/
def merged (p b n : Block) : List Block :=
  match p.alloc, n.alloc with
  | true, true => [p, b, n]
  | false, true => [p.join b, n]
  | true, false => [p, b.join n]
  | false, false => [(p.join b).join n]

/-- The free list after `coalesce`, where `b` was put at the head of `fl` before. -/
def mergedFree (p b n : Block) (fl : List Nat) : List Nat :=
  match p.alloc, n.alloc with
  | true, true => b.addr :: fl
  | false, true => fl
  | true, false => (b.addr :: fl).erase n.addr
  | false, false => fl.erase n.addr

theorem payloadToBlock_eq (hp : Placed h) (hb : InArena h a 16) :
    payloadToBlock (a + 8) = a := by
  have := hp.top
  have := hb.2
  unfold payloadToBlock wordSize
  rw [wsub_eq (by omega) (by omega), Nat.add_sub_cancel]

theorem HeapInv.freeNode (hi : HeapInv h bs fl) (hb : b ∈ bs) (hfree : b.alloc = false) :
    FreeNode h b.addr :=
  hi.free.node _ ((hi.mem_free _).mpr ⟨b, hb, rfl, hfree⟩)

theorem markFree_spec (hi : HeapInv h (L ++ b :: R) fl) (hL : L ≠ []) (hR : R ≠ [])
    (halloc : b.alloc = true) :
    ∃ h1 h2, blockSetSizeAndAllocated h b.addr b.size false = some h1 ∧
      insertFreeBlock h1 b.addr = some h2 ∧
      HeapInv h2 (L ++ b.setAlloc false :: R) (b.addr :: fl) ∧
      Keeps (unallocated (L ++ b.setAlloc false :: R)) h h2 := by
  have hbs : L ++ b :: R = L ++ [b] ++ R := by simp
  have hmid := tiles_mid.mp hi.tiles
  obtain ⟨h1, hrun1, hl1, hk1, hfirst⟩ := (hbs ▸ hi.toLayoutInv).setTags (b := b.setAlloc false)
    hL hR hmid.1 hmid.2
  have hb1 : b.setAlloc false ∈ L ++ b.setAlloc false :: R := by simp
  have hmem : ∀ a, a ∈ fl ↔ FreeAt (L ++ R) a := by
    intro a
    rw [hi.mem_free, freeAt_allocated halloc]
  have hfl : ∀ a ∈ fl, FreeAt (L ++ b.setAlloc false :: R) a := by
    intro a ha
    have hothers := freeAt_append.mp ((hmem a).mp ha)
    exact freeAt_append.mpr (hothers.imp_right fun hr => freeAt_cons.mpr (Or.inr hr))
  have hf1 := hi.free.retag hl1 hb1 hk1 hfirst hfl
  obtain ⟨h2, hrun2, hi2, hk2⟩ := link_spec hl1 hf1 hmem rfl
  exact ⟨h1, h2, hrun1, hrun2, hi2, (hk1.mono (hl1.tagBytes_subset hb1 rfl)).trans hk2⟩

/-! ## Joining neighbours -/

theorem coalesceHelper_head (hfirst : h.flistFirst = a) : coalesceHelper h a = some true := by
  unfold coalesceHelper
  rw [if_pos hfirst]

/-- A block taken off the free list, and the tags of a wider free block written:
the blocks `M` of a region become the free block `b`. -/
theorem joined_spec {M : List Block} {fl' : List Nat} (hi : LayoutInv h (L ++ M ++ R))
    (hf : FreeList h fl') (hL0 : L ≠ []) (hR0 : R ≠ []) (hL : Tiles h.memStartBrk L b.addr)
    (hR : Tiles b.stop R h.memBrk) (hfree : b.alloc = false)
    (hfl : ∀ a, a ∈ fl' ↔ FreeAt (L ++ b :: R) a) :
    ∃ h', blockSetSizeAndAllocated h b.addr b.size false = some h' ∧
      HeapInv h' (L ++ b :: R) fl' ∧ Keeps (unallocated (L ++ b :: R)) h h' := by
  obtain ⟨h', hrun, hl', hk, hfirst⟩ := hi.setTags hL0 hR0 hL hR
  have hb : b ∈ L ++ b :: R := by simp
  exact ⟨h', hfree ▸ hrun, ⟨hl', hf.retag hl' hb hk hfirst fun a ha => (hfl a).mp ha, hfl⟩,
    hk.mono (hl'.tagBytes_subset hb hfree)⟩

/-- What `coalesce` reads at the block it is given and at its neighbours. -/
theorem coalesce_reads (hi : HeapInv h (L ++ p :: b :: n :: R) (b.addr :: fl)) :
    coalesceHelper h b.addr = some true ∧ blockPrev h b.addr = some p.addr ∧
      blockNext h b.addr = some n.addr ∧ blockSize h b.addr = some b.size ∧
      blockAllocated h p.addr = some p.alloc ∧ blockAllocated h n.addr = some n.alloc := by
  have hbs : L ++ p :: b :: n :: R = (L ++ [p]) ++ b :: n :: R := by simp
  exact ⟨coalesceHelper_head hi.free.first, hi.blockPrev, (hbs ▸ hi.toLayoutInv).blockNextAddr,
    hi.blockSize (by simp), hi.blockAllocated (by simp), hi.blockAllocated (by simp)⟩

theorem wadd_comm (x y : Nat) : wadd x y = wadd y x := by
  unfold wadd
  rw [Nat.add_comm]

/-- The size of a block of the heap is computed without overflow. -/
theorem wadd_sizes {x y : Nat} (hl : LayoutInv h bs) (hb : b ∈ bs) (hs : b.size = x + y) :
    wadd x y = b.size := by
  have := hl.tiles.size_le hb
  have := hl.placed.brk_le
  have := hl.placed.top
  rw [wadd_eq (by omega), hs]

/-- The three addresses are those of no other block. -/
theorem coalesce_addrs (ht : Tiles a (L ++ p :: b :: n :: R) e) :
    p.addr ≠ b.addr ∧ p.addr ≠ n.addr ∧ b.addr ≠ n.addr ∧
      ∀ c, FreeAt L c ∨ FreeAt R c → c ≠ p.addr ∧ c ≠ b.addr ∧ c ≠ n.addr := by
  have hb : L ++ p :: b :: n :: R = (L ++ [p]) ++ b :: n :: R := by simp
  have hn : L ++ p :: b :: n :: R = (L ++ [p, b]) ++ n :: R := by simp
  have hp' := fun c => ht.freeAt_ne (a := c)
  have hb' := fun c => (hb ▸ ht : Tiles a ((L ++ [p]) ++ b :: n :: R) e).freeAt_ne (a := c)
  have hn' := fun c => (hn ▸ ht : Tiles a ((L ++ [p, b]) ++ n :: R) e).freeAt_ne (a := c)
  obtain ⟨-, hadj1, hadj2, -⟩ := tiles_mid.mp ht
  have := p.size_ge
  have := b.size_ge
  unfold Block.stop at hadj1 hadj2
  refine ⟨by omega, by omega, by omega, fun c hc => ?_⟩
  simp only [freeAt_append, freeAt_cons] at hp' hb' hn'
  exact ⟨hp' c (by tauto), hb' c (by tauto), hn' c (by tauto)⟩

section Cases

variable (hi : HeapInv h (L ++ p :: b :: n :: R) (b.addr :: fl)) (hb : b.alloc = false)
include hi hb

/-- The previous block is free, the next one allocated. -/
theorem coalesce_left (hp : p.alloc = false) (hn : n.alloc = true) :
    ∃ h', coalesce h b.addr = some (p.addr, h') ∧ HeapInv h' (L ++ p.join b :: n :: R) fl ∧
      Keeps (unallocated (L ++ p :: b :: n :: R)) h h' := by
  obtain ⟨hhelp, hprev, hnext, hsize, hpa, hna⟩ := coalesce_reads hi
  obtain ⟨hpb, hpn, hbn, hother⟩ := coalesce_addrs hi.tiles
  have hmem := hi.mem_free
  obtain ⟨h1, hrun1, hl1, hf1, hk1⟩ := pull_spec hi.toLayoutInv hi.free
    (fun c hc => (hmem c).mp hc) List.mem_cons_self
  rw [List.erase_cons_head] at hf1
  have hbs : L ++ p :: b :: n :: R = L ++ [p, b] ++ n :: R := by simp
  obtain ⟨hL, hadj1, hadj2, hR⟩ := tiles_mid.mp hl1.tiles
  have hstop : (p.join b).stop = n.addr := by
    unfold Block.stop at *
    simp only [Block.join]
    omega
  have hfl : ∀ a, a ∈ fl ↔ FreeAt (L ++ p.join b :: n :: R) a := by
    intro c
    have hm := hmem c
    have hnb : c ∈ fl → c ≠ b.addr :=
      fun hc hcb => (List.nodup_cons.mp hi.free.nodup).1 (hcb ▸ hc)
    have hoc := hother c
    simp only [List.mem_cons, freeAt_append, freeAt_cons, hp, hb, hn, Block.join] at hm hoc ⊢
    grind
  obtain ⟨h2, hrun2, hi2, hk2⟩ := joined_spec (b := p.join b) (hbs ▸ hl1) hf1
    (hi.left_ne_nil hp) (by simp) hL (hstop ▸ ⟨rfl, hR⟩) rfl hfl
  have hsize1 : wadd b.size p.size = (p.join b).size :=
    (wadd_comm _ _).trans (wadd_sizes (b := p.join b) hi2.toLayoutInv (by simp) rfl)
  have hset : blockSetSizeAndAllocated h1 p.addr (p.join b).size false = some h2 := hrun2
  have hcoalesce : coalesce h b.addr = some (p.addr, h2) := by
    simp only [coalesce, hhelp, hprev, hnext, hsize, hpa, hna, hp, hn, hrun1, hsize1, hset,
      hl1.blockSize (show p ∈ L ++ p :: b :: n :: R by simp), Option.bind_eq_bind,
      Option.bind_some, Option.pure_def, Bool.not_true, Bool.not_false, Bool.and_self,
      Bool.false_eq_true, ↓reduceIte]
  have hun : unallocated (L ++ p.join b :: n :: R) = unallocated (L ++ p :: b :: n :: R) := by
    rw [unallocated_of_free hp, unallocated_of_free hb, unallocated_of_free rfl]
  exact ⟨h2, hcoalesce, hi2, hk1.trans (hun ▸ hk2)⟩

/-- The previous block is allocated, the next one free. -/
theorem coalesce_right (hp : p.alloc = true) (hn : n.alloc = false) :
    ∃ h', coalesce h b.addr = some (b.addr, h') ∧
      HeapInv h' (L ++ p :: b.join n :: R) ((b.addr :: fl).erase n.addr) ∧
      Keeps (unallocated (L ++ p :: b :: n :: R)) h h' := by
  obtain ⟨hhelp, hprev, hnext, hsize, hpa, hna⟩ := coalesce_reads hi
  obtain ⟨hpb, hpn, hbn, hother⟩ := coalesce_addrs hi.tiles
  have hmem := hi.mem_free
  have hnm : n.addr ∈ b.addr :: fl := (hmem _).mpr ⟨n, by simp, rfl, hn⟩
  obtain ⟨h1, hrun1, hl1, hf1, hk1⟩ := pull_spec hi.toLayoutInv hi.free
    (fun c hc => (hmem c).mp hc) hnm
  have hbs : L ++ p :: b :: n :: R = (L ++ [p]) ++ [b, n] ++ R := by simp
  have hL : Tiles h1.memStartBrk (L ++ [p]) b.addr :=
    ((tiles_mid (L := L ++ [p])).mp (by simpa using hl1.tiles)).1
  obtain ⟨-, hadj1, hadj2, hR⟩ := tiles_mid.mp hl1.tiles
  have hstop : (b.join n).stop = n.stop := by
    unfold Block.stop at *
    simp only [Block.join]
    omega
  have hfl : ∀ a, a ∈ (b.addr :: fl).erase n.addr ↔ FreeAt ((L ++ [p]) ++ b.join n :: R) a := by
    intro c
    have hm := hmem c
    have hoc := hother c
    rw [hi.free.nodup.mem_erase_iff]
    simp only [List.mem_cons, freeAt_append, freeAt_cons, freeAt_nil, hp, hb, hn, Block.join] at hm hoc ⊢
    grind
  have hR0 : R ≠ [] := LayoutInv.right_ne_nil (L := L ++ [p, b]) (b := n) (h := h)
    (by simpa using hi.toLayoutInv) hn
  obtain ⟨h2, hrun2, hi2, hk2⟩ := joined_spec (b := b.join n) (hbs ▸ hl1) hf1
    (by simp) hR0 hL (hstop ▸ hR) rfl hfl
  have hsize1 : wadd b.size n.size = (b.join n).size :=
    wadd_sizes (b := b.join n) hi2.toLayoutInv (by simp) rfl
  have hset : blockSetSizeAndAllocated h1 b.addr (b.join n).size false = some h2 := hrun2
  have hcoalesce : coalesce h b.addr = some (b.addr, h2) := by
    simp only [coalesce, hhelp, hprev, hnext, hsize, hpa, hna, hp, hn, hrun1, hsize1, hset,
      hl1.blockSize (show n ∈ L ++ p :: b :: n :: R by simp), Option.bind_eq_bind,
      Option.bind_some, Option.pure_def, Bool.not_true, Bool.not_false, Bool.and_self,
      Bool.and_false, Bool.false_eq_true, ↓reduceIte]
  have hun : unallocated ((L ++ [p]) ++ b.join n :: R) =
      unallocated (L ++ p :: b :: n :: R) := by
    rw [show L ++ p :: b :: n :: R = (L ++ [p]) ++ b :: n :: R by simp, unallocated_of_free hb,
      unallocated_of_free hn, unallocated_of_free rfl]
  have hi2' : HeapInv h2 (L ++ p :: b.join n :: R) ((b.addr :: fl).erase n.addr) := by
    simpa only [List.append_assoc, List.cons_append, List.nil_append] using hi2
  exact ⟨h2, hcoalesce, hi2', hk1.trans (hun ▸ hk2)⟩

/-- Both neighbours are free. -/
theorem coalesce_both (hp : p.alloc = false) (hn : n.alloc = false) :
    ∃ h', coalesce h b.addr = some (p.addr, h') ∧
      HeapInv h' (L ++ (p.join b).join n :: R) (fl.erase n.addr) ∧
      Keeps (unallocated (L ++ p :: b :: n :: R)) h h' := by
  obtain ⟨hhelp, hprev, hnext, hsize, hpa, hna⟩ := coalesce_reads hi
  obtain ⟨hpb, hpn, hbn, hother⟩ := coalesce_addrs hi.tiles
  have hmem := hi.mem_free
  obtain ⟨h1, hrun1, hl1, hf1, hk1⟩ := pull_spec hi.toLayoutInv hi.free
    (fun c hc => (hmem c).mp hc) List.mem_cons_self
  rw [List.erase_cons_head] at hf1
  have hnm : n.addr ∈ fl := by
    have : n.addr ∈ b.addr :: fl := (hmem _).mpr ⟨n, by simp, rfl, hn⟩
    exact (List.mem_cons.mp this).resolve_left (Ne.symm hbn)
  obtain ⟨h2, hrun2, hl2, hf2, hk2⟩ := pull_spec hl1 hf1
    (fun c hc => (hmem c).mp (List.mem_cons_of_mem _ hc)) hnm
  have hbs : L ++ p :: b :: n :: R = L ++ [p, b, n] ++ R := by simp
  obtain ⟨hL, hadj1, hadj2, hR⟩ := tiles_mid.mp hl2.tiles
  have hstop : ((p.join b).join n).stop = n.stop := by
    unfold Block.stop at *
    simp only [Block.join]
    omega
  have hfl : ∀ a, a ∈ fl.erase n.addr ↔ FreeAt (L ++ (p.join b).join n :: R) a := by
    intro c
    have hm := hmem c
    have hnb : c ∈ fl → c ≠ b.addr :=
      fun hc hcb => (List.nodup_cons.mp hi.free.nodup).1 (hcb ▸ hc)
    have hoc := hother c
    rw [(List.nodup_cons.mp hi.free.nodup).2.mem_erase_iff]
    simp only [List.mem_cons, freeAt_append, freeAt_cons, hp, hb, hn, Block.join] at hm hoc ⊢
    grind
  have hR0 : R ≠ [] := LayoutInv.right_ne_nil (L := L ++ [p, b]) (b := n) (h := h)
    (by simpa using hi.toLayoutInv) hn
  obtain ⟨h3, hrun3, hi3, hk3⟩ := joined_spec (b := (p.join b).join n) (hbs ▸ hl2) hf2
    (hi.left_ne_nil hp) hR0 hL (hstop ▸ hR) rfl hfl
  have hmem3 : (p.join b).join n ∈ L ++ (p.join b).join n :: R := by simp
  have hsize1 : wadd (wadd b.size p.size) n.size = ((p.join b).join n).size := by
    have hle := hi3.tiles.size_le hmem3
    have := hi3.placed.brk_le
    have := hi3.placed.top
    simp only [Block.join] at hle ⊢
    rw [wadd_eq (a := b.size) (by omega), wadd_eq (by omega), Nat.add_comm b.size]
  have hset : blockSetSizeAndAllocated h2 p.addr ((p.join b).join n).size false = some h3 := hrun3
  have hcoalesce : coalesce h b.addr = some (p.addr, h3) := by
    simp only [coalesce, hhelp, hprev, hnext, hsize, hpa, hna, hp, hn, hrun1, hrun2, hsize1, hset,
      hl2.blockSize (show p ∈ L ++ p :: b :: n :: R by simp),
      hl2.blockSize (show n ∈ L ++ p :: b :: n :: R by simp), Option.bind_eq_bind,
      Option.bind_some, Option.pure_def, Bool.not_true, Bool.not_false, Bool.and_false,
      Bool.and_true, Bool.false_eq_true, ↓reduceIte]
  have hun : unallocated (L ++ (p.join b).join n :: R) =
      unallocated (L ++ p :: b :: n :: R) := by
    rw [unallocated_of_free hp, unallocated_of_free hb, unallocated_of_free hn,
      unallocated_of_free rfl]
  exact ⟨h3, hcoalesce, hi3, (hk1.trans hk2).trans (hun ▸ hk3)⟩

/-- **Coalescing** joins `b` with its free neighbours and changes no allocated block. -/
theorem coalesce_spec :
    ∃ r h', coalesce h b.addr = some (r, h') ∧
      HeapInv h' (L ++ merged p b n ++ R) (mergedFree p b n fl) ∧
      Keeps (unallocated (L ++ p :: b :: n :: R)) h h' := by
  cases hp : p.alloc <;> cases hn : n.alloc
  · obtain ⟨h', hrun, hi', hk⟩ := coalesce_both hi hb hp hn
    exact ⟨_, h', hrun, by simpa only [merged, mergedFree, hp, hn, List.append_assoc,
      List.cons_append, List.nil_append] using hi', hk⟩
  · obtain ⟨h', hrun, hi', hk⟩ := coalesce_left hi hb hp hn
    exact ⟨_, h', hrun, by simpa only [merged, mergedFree, hp, hn, List.append_assoc,
      List.cons_append, List.nil_append] using hi', hk⟩
  · obtain ⟨h', hrun, hi', hk⟩ := coalesce_right hi hb hp hn
    exact ⟨_, h', hrun, by simpa only [merged, mergedFree, hp, hn, List.append_assoc,
      List.cons_append, List.nil_append] using hi', hk⟩
  · obtain ⟨hhelp, hprev, hnext, hsize, hpa, hna⟩ := coalesce_reads hi
    refine ⟨b.addr, h, ?_, by simpa [merged, mergedFree, hp, hn] using hi, Keeps.refl _ _⟩
    simp only [coalesce, hhelp, hprev, hnext, hsize, hpa, hna, hp, hn, Option.bind_eq_bind,
      Option.bind_some, Option.pure_def, Bool.not_true, Bool.and_false, Bool.false_and,
      Bool.false_eq_true, ↓reduceIte]

end Cases

/-- **`mm_free` of an allocated block** between the neighbours `p` and `n`. -/
theorem mmFree_spec (hi : HeapInv h (L ++ p :: b :: n :: R) fl) (hb : b.alloc = true) :
    ∃ h', mmFree h (b.addr + 8) = some h' ∧
      HeapInv h' (L ++ merged p (b.setAlloc false) n ++ R) (mergedFree p (b.setAlloc false) n fl) ∧
      Keeps (unallocated (L ++ p :: b.setAlloc false :: n :: R)) h h' := by
  have hbs : L ++ p :: b :: n :: R = (L ++ [p]) ++ b :: n :: R := by simp
  have hbm : b ∈ L ++ p :: b :: n :: R := by simp
  obtain ⟨h1, h2, hrun1, hrun2, hi2, hk2⟩ := markFree_spec (hbs ▸ hi) (by simp) (by simp) hb
  have hbs' : (L ++ [p]) ++ b.setAlloc false :: n :: R = L ++ p :: b.setAlloc false :: n :: R := by
    simp
  rw [hbs'] at hi2 hk2
  obtain ⟨r, h', hrun3, hi3, hk3⟩ := coalesce_spec hi2 rfl
  have hin := (hi.inArena hbm).1
  have hsz := b.size_ge
  have hblock : payloadToBlock (b.addr + 8) = b.addr :=
    payloadToBlock_eq hi.placed ⟨hin.1, le_trans (by omega) hin.2⟩
  have hne : b.addr + 8 ≠ null := Nat.succ_ne_zero _
  have hrun3' : coalesce h2 b.addr = some (r, h') := hrun3
  refine ⟨h', ?_, hi3, hk2.trans hk3⟩
  simp only [mmFree, hne, ↓reduceIte, hblock, hi.blockSize hbm, hrun1, hrun2, hrun3',
    Option.bind_eq_bind, Option.bind_some, Option.pure_def]

end CourseProjects.Malloc

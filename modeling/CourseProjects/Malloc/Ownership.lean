import CourseProjects.Malloc.Free
import CourseProjects.Malloc.Request

/-!
# Who owns the blocks

The blocks a client owns are the allocated ones between prologue and epilogue.
`mm_malloc` adds at most one of them and `mm_free` takes one away; both leave no
two free blocks side by side (`Coalesced`).
-/

namespace CourseProjects.Malloc

variable {h h' : Heap} {nsize size q : Nat} {b c e p n : Block} {bs bs' L M R : List Block}
  {fl fl' : List Nat}

/-- An allocated block that is neither prologue nor epilogue. -/
def Owned (h : Heap) (bs : List Block) (c : Block) : Prop :=
  c ∈ bs ∧ c.alloc = true ∧ c.addr ≠ h.prologue ∧ c.addr ≠ h.epilogue

/-- No two neighbours are free. -/
def Coalesced (bs : List Block) : Prop :=
  List.IsChain (fun b c : Block => b.alloc = true ∨ c.alloc = true) bs

/-! ## Places in a layout -/

theorem LayoutInv.prologue_start (hi : LayoutInv h bs) : h.prologue = h.memStartBrk := by
  cases bs with
  | nil => exact absurd hi.two (by simp)
  | cons b bs =>
    have hb : b = prologueBlock h := by simpa using hi.head
    rw [← hi.tiles.1, hb]
    rfl

theorem LayoutInv.epilogue_end (hi : LayoutInv h bs) : h.epilogue + 32 = h.memBrk := by
  obtain ⟨L, rfl⟩ := hi.eq_append
  exact hi.last_bounds.2

theorem LayoutInv.prologue_mem (hi : LayoutInv h bs) : prologueBlock h ∈ bs :=
  List.mem_of_head? hi.head

theorem LayoutInv.epilogue_mem (hi : LayoutInv h bs) : epilogueBlock h ∈ bs := by
  obtain ⟨L, rfl⟩ := hi.eq_append
  simp

/-- The prologue and the epilogue are two blocks. -/
theorem LayoutInv.prologue_ne (hi : LayoutInv h bs) : h.prologue ≠ h.epilogue := by
  have h2 := hi.two
  have hhead := hi.head
  obtain ⟨L, rfl⟩ := hi.eq_append
  cases L with
  | nil => simp at h2
  | cons b L =>
    have hb : b = prologueBlock h := by simpa using hhead
    have := hi.last_bounds.1.bounds (List.mem_cons_self)
    have := b.size_ge
    have hba : b.addr = h.prologue := by rw [hb]; rfl
    have hea : (epilogueBlock h).addr = h.epilogue := rfl
    unfold Block.stop at *
    omega

/-- A block that is no end of the layout has blocks on both sides. -/
theorem LayoutInv.interior (hi : LayoutInv h bs) (hb : b ∈ bs) (hp : b.addr ≠ h.prologue)
    (he : b.addr ≠ h.epilogue) : ∃ L p n R, bs = L ++ p :: b :: n :: R := by
  obtain ⟨pre, post, rfl⟩ := List.append_of_mem hb
  have hpre : pre ≠ [] := by
    rintro rfl
    have hb : b = prologueBlock h := by simpa using hi.head
    exact hp (congrArg Block.addr hb)
  have hpost : post ≠ [] := by
    rintro rfl
    have hb : b = epilogueBlock h := by simpa using hi.last
    exact he (congrArg Block.addr hb)
  obtain ⟨n, R, rfl⟩ := List.exists_cons_of_ne_nil hpost
  refine ⟨pre.dropLast, pre.getLast hpre, n, R, ?_⟩
  conv_lhs => rw [← List.dropLast_append_getLast hpre]
  simp

/-- A free block lies between prologue and epilogue. -/
theorem LayoutInv.free_interior (hi : LayoutInv h bs) (hb : b ∈ bs) (hfree : b.alloc = false) :
    b.addr ≠ h.prologue ∧ b.addr ≠ h.epilogue := by
  constructor
  · intro heq
    have := hi.tiles.eq_of_addr hb hi.prologue_mem heq
    rw [this] at hfree
    cases hfree
  · intro heq
    have := hi.tiles.eq_of_addr hb hi.epilogue_mem heq
    rw [this] at hfree
    cases hfree

/-! ## mm_malloc -/

theorem SplitOf.head (hs : SplitOf b nsize M) (hn : nsize ≤ b.size) (halloc : b.alloc = true) :
    ∃ r S, M = r :: S ∧ r.addr = b.addr ∧ r.alloc = true ∧ nsize ≤ r.size ∧ r.size ≤ b.size ∧
      ∀ c ∈ S, c.alloc = false := by
  rcases hs with ⟨-, rfl⟩ | ⟨-, r, s, rfl, hra, hrs, hrb, -, -, hsb⟩
  · exact ⟨b, [], rfl, rfl, halloc, hn, le_refl _, by simp⟩
  · exact ⟨r, [s], rfl, hra, hrb, hrs.ge, hrs.trans_le hn, by simpa using hsb⟩

/-- The old epilogue `e` has become the block `r`. -/
theorem owned_extend {r : Block} (hi : LayoutInv h (L ++ [e])) (hi' : LayoutInv h' (L ++ [r, n]))
    (hext : ExtendOf e r n nsize) (hpro : h'.prologue = h.prologue) :
    Owned h' (L ++ [r, n]) c ↔ Owned h (L ++ [e]) c ∨ c = r := by
  obtain ⟨hepi, -, -⟩ := hi.last_fields
  have hepi' : h'.epilogue = n.addr :=
    (LayoutInv.last_fields (L := L ++ [r]) (by simpa using hi')).1
  have hL := hi.last_bounds.1
  have hne := hi.prologue_ne
  have hra := hext.addr
  have hna := hext.next
  have hrs := hext.size
  have hr := r.size_ge
  have hbefore : c ∈ L → c.addr < e.addr := by
    intro hc
    have := (hL.bounds hc).2
    have := c.size_ge
    unfold Block.stop at *
    omega
  unfold Owned
  rw [hpro, hepi, hepi']
  simp only [List.mem_append, List.mem_cons, List.not_mem_nil, or_false]
  constructor
  · rintro ⟨hc | rfl | rfl, halloc, hcp, hce⟩
    · exact Or.inl ⟨Or.inl hc, halloc, hcp, by have := hbefore hc; omega⟩
    · exact Or.inr rfl
    · exact absurd rfl hce
  · rintro (⟨hc | rfl, halloc, hcp, hce⟩ | rfl)
    · exact ⟨Or.inl hc, halloc, hcp, by have := hbefore hc; omega⟩
    · exact absurd rfl hce
    · exact ⟨Or.inr (Or.inl rfl), hext.alloc, by omega, by omega⟩

/-- The two layouts end with the same block. -/
theorem LayoutInv.epilogue_eq (hi : LayoutInv h (L ++ R)) (hi' : LayoutInv h' (M ++ R))
    (hR : R ≠ []) : h'.epilogue = h.epilogue := by
  have hlast := hi.last
  have hlast' := hi'.last
  rw [List.getLast?_append_of_ne_nil _ hR] at hlast hlast'
  exact congrArg Block.addr (Option.some.inj (hlast'.symm.trans hlast))

/-- The free block `b` has become `M`. -/
theorem owned_carve (hi : LayoutInv h (L ++ b :: R)) (hi' : LayoutInv h' (L ++ M ++ R))
    (hfree : b.alloc = false) (hM : SplitOf (b.setAlloc true) nsize M) (hn : nsize ≤ b.size)
    (hpro : h'.prologue = h.prologue) :
    ∃ r, r.addr = b.addr ∧ nsize ≤ r.size ∧
      ∀ c, Owned h' (L ++ M ++ R) c ↔ Owned h (L ++ b :: R) c ∨ c = r := by
  obtain ⟨r, S, rfl, hra, hrb, hrs, -, hS⟩ := hM.head hn rfl
  have hra' : r.addr = b.addr := hra
  have hR := hi.right_ne_nil hfree
  have hepi : h'.epilogue = h.epilogue :=
    LayoutInv.epilogue_eq (L := L ++ [b]) (by simpa using hi) hi' hR
  obtain ⟨hbp, hbe⟩ := hi.free_interior (b := b) (by simp) hfree
  refine ⟨r, hra', hrs, fun c => ?_⟩
  unfold Owned
  rw [hpro, hepi]
  simp only [List.mem_append, List.mem_cons]
  constructor
  · rintro ⟨(hc | rfl | hc) | hc, halloc, hcp, hce⟩
    · exact Or.inl ⟨Or.inl hc, halloc, hcp, hce⟩
    · exact Or.inr rfl
    · simp [hS c hc] at halloc
    · exact Or.inl ⟨Or.inr (Or.inr hc), halloc, hcp, hce⟩
  · rintro (⟨hc | rfl | hc, halloc, hcp, hce⟩ | rfl)
    · exact ⟨Or.inl (Or.inl hc), halloc, hcp, hce⟩
    · simp [hfree] at halloc
    · exact ⟨Or.inr hc, halloc, hcp, hce⟩
    · exact ⟨Or.inl (Or.inr (Or.inl rfl)), hrb, hra' ▸ hbp, hra' ▸ hbe⟩

/-- What the owner of the blocks sees of a request that succeeds. -/
theorem Allocated.owned (ha : Allocated h nsize bs q bs') (hi : LayoutInv h bs)
    (hi' : LayoutInv h' bs') (hpro : h'.prologue = h.prologue) (hq : q ≠ null) :
    ∃ r, r.addr + 8 = q ∧ nsize ≤ r.size ∧ (∀ c, Owned h bs c → c.addr ≠ r.addr) ∧
      ∀ c, Owned h' bs' c ↔ Owned h bs c ∨ c = r := by
  cases ha with
  | fail => exact absurd rfl hq
  | extend L e r n hext none room =>
    refine ⟨r, by rw [hext.addr], hext.size.ge, fun c hc heq => ?_,
      fun c => owned_extend hi hi' hext hpro⟩
    have := hc.2.2.2
    rw [hi.last_fields.1] at this
    exact this (heq.trans hext.addr)
  | carve L R M b free fits split best =>
    obtain ⟨r, hra, hrs, hown⟩ := owned_carve hi hi' free split fits hpro
    refine ⟨r, by rw [hra], hrs, fun c hc heq => ?_, hown⟩
    have hcb : c = b := hi.tiles.eq_of_addr hc.1 (by simp) (heq.trans hra)
    have := hc.2.1
    rw [hcb, free] at this
    cases this

theorem coalesced_append : Coalesced (L ++ R) ↔ Coalesced L ∧ Coalesced R ∧
    ∀ b ∈ L.getLast?, ∀ c ∈ R.head?, b.alloc = true ∨ c.alloc = true :=
  List.isChain_append

theorem Allocated.coalesced (ha : Allocated h nsize bs q bs') (hi : LayoutInv h bs)
    (hc : Coalesced bs) : Coalesced bs' := by
  cases ha with
  | fail => exact hc
  | extend L e r n hext none room =>
    obtain ⟨hL, -, -⟩ := coalesced_append.mp hc
    refine coalesced_append.mpr ⟨hL, List.isChain_pair.mpr (Or.inl hext.alloc), fun b _ c hc => ?_⟩
    rw [List.head?_cons, Option.mem_some_iff] at hc
    exact Or.inr (hc ▸ hext.alloc)
  | carve L R M b free fits split best =>
    obtain ⟨hL, hbR, -⟩ := coalesced_append.mp hc
    obtain ⟨hnext, hR⟩ := List.isChain_cons.mp hbR
    have hright : ∀ c ∈ R.head?, c.alloc = true := by
      intro c hc
      simpa [free] using hnext c hc
    have hM : Coalesced M ∧ ∀ c ∈ M.head?, c.alloc = true := by
      rcases split with ⟨-, rfl⟩ | ⟨-, r, s, rfl, -, -, hrb, -⟩
      · exact ⟨List.isChain_singleton _, by simp [Block.setAlloc]⟩
      · exact ⟨List.isChain_pair.mpr (Or.inl hrb), by simpa using hrb⟩
    exact coalesced_append.mpr
      ⟨coalesced_append.mpr ⟨hL, hM.1, fun _ _ c hc => Or.inr (hM.2 c hc)⟩, hR,
        fun _ _ c hc => Or.inr (hright c hc)⟩

/-! ## mm_free -/

/-- The ends of `merged` are free exactly when the two neighbours were. -/
theorem merged_ends (p b n : Block) :
    Coalesced (merged p b n) ∧ (∀ c ∈ (merged p b n).head?, c.alloc = p.alloc) ∧
      ∀ c ∈ (merged p b n).getLast?, c.alloc = n.alloc := by
  cases hp : p.alloc <;> cases hn : n.alloc <;>
    simp [merged, Coalesced, Block.join, hp, hn]

theorem merged_coalesced (hc : Coalesced (L ++ p :: b :: n :: R)) :
    Coalesced (L ++ merged p c n ++ R) := by
  obtain ⟨hM, hhead, hlast⟩ := merged_ends p c n
  obtain ⟨hL, hpR, hleft⟩ := coalesced_append.mp hc
  obtain ⟨hright, hR⟩ := List.isChain_cons.mp (List.isChain_cons_cons.mp (List.isChain_cons_cons.mp hpR).2).2
  refine coalesced_append.mpr ⟨coalesced_append.mpr ⟨hL, hM, fun x hx y hy => ?_⟩, hR,
    fun x hx y hy => ?_⟩
  · rw [hhead y hy]
    exact hleft x hx p (by simp)
  · have hne : merged p c n ≠ [] := by
      cases hp : p.alloc <;> cases hn : n.alloc <;> simp [merged, hp, hn]
    rw [List.getLast?_append_of_ne_nil _ hne] at hx
    rw [hlast x hx]
    exact hright y hy

/-- Apart from `b` the allocated blocks are the same. -/
theorem mem_merged (hfree : b.alloc = false) :
    c ∈ merged p b n ∧ c.alloc = true ↔ (c = p ∨ c = n) ∧ c.alloc = true := by
  have hjoin : ∀ x y : Block, (x.join y).alloc = false := fun _ _ => rfl
  cases hp : p.alloc <;> cases hn : n.alloc <;>
    simp only [merged, hp, hn, List.mem_cons, List.not_mem_nil, or_false] <;> grind

/-- What the owner of the blocks sees of `mm_free`. -/
theorem merged_owned (hi : LayoutInv h (L ++ p :: b :: n :: R))
    (hi' : LayoutInv h' (L ++ merged p (b.setAlloc false) n ++ R))
    (hk : h'.prologue = h.prologue) (hk' : h'.epilogue = h.epilogue) :
    Owned h' (L ++ merged p (b.setAlloc false) n ++ R) c ↔
      Owned h (L ++ p :: b :: n :: R) c ∧ c ≠ b := by
  have hmem := mem_merged (p := p) (b := b.setAlloc false) (n := n) (c := c) rfl
  have hne : ∀ c ∈ L ++ p :: n :: R, c ≠ b := by
    rintro c hc rfl
    have ht : Tiles h.memStartBrk ((L ++ [p]) ++ c :: n :: R) h.memBrk := by simpa using hi.tiles
    exact ht.addr_ne (by simpa using hc) rfl
  unfold Owned
  rw [hk, hk']
  simp only [List.mem_append, List.mem_cons] at hne ⊢
  constructor
  · rintro ⟨(hc | hc) | hc, halloc, hcp, hce⟩
    · exact ⟨⟨Or.inl hc, halloc, hcp, hce⟩, hne c (Or.inl hc)⟩
    · rcases (hmem.mp ⟨hc, halloc⟩).1 with rfl | rfl
      · exact ⟨⟨Or.inr (Or.inl rfl), halloc, hcp, hce⟩, hne c (Or.inr (Or.inl rfl))⟩
      · exact ⟨⟨Or.inr (Or.inr (Or.inr (Or.inl rfl))), halloc, hcp, hce⟩,
          hne c (Or.inr (Or.inr (Or.inl rfl)))⟩
    · exact ⟨⟨Or.inr (Or.inr (Or.inr (Or.inr hc))), halloc, hcp, hce⟩,
        hne c (Or.inr (Or.inr (Or.inr hc)))⟩
  · rintro ⟨⟨hc | rfl | rfl | rfl | hc, halloc, hcp, hce⟩, hcb⟩
    · exact ⟨Or.inl (Or.inl hc), halloc, hcp, hce⟩
    · exact ⟨Or.inl (Or.inr (hmem.mpr ⟨Or.inl rfl, halloc⟩).1), halloc, hcp, hce⟩
    · exact absurd rfl hcb
    · exact ⟨Or.inl (Or.inr (hmem.mpr ⟨Or.inr rfl, halloc⟩).1), halloc, hcp, hce⟩
    · exact ⟨Or.inr hc, halloc, hcp, hce⟩

end CourseProjects.Malloc

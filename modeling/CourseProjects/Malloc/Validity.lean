import Mathlib.Data.List.Pairwise
import CourseProjects.Malloc.Bump

/-!
# The driver against a correct allocator

The range list, the two arrays and the fill bytes agree with the ledger of the payloads
as long as the answers are correct. The one complaint that is left is about the fill bytes
that are negative as `char`s.
-/

namespace CourseProjects.Malloc

open Bytes

variable {al : Allocator} {d d' : Driver} {g : Ledger} {op : TraceOp} {ops : List TraceOp}
  {live : List Live} {a b : Live} {m : Memory} {ids : Nat → Bool} {i n p index : Nat}
  {size : Int}

/-! ## Bytes -/

theorem fillByte_toNat (index : Nat) : (fillByte index).toNat = index % 256 := by
  rw [fillByte, lowByte_eq, UInt8.toNat_ofNat']
  omega

/-- The fill byte is read back as the number that was written if it is not negative. -/
theorem charValue_fillByte :
    charValue (fillByte index) = (lowByte index : Int) ↔ index % 256 < 128 := by
  have hlt : index % 256 < 256 := Nat.mod_lt index (by decide)
  have hbyte : (fillByte index).toBitVec.toNat = index % 256 := fillByte_toNat index
  rw [charValue, BitVec.toInt_eq_toNat_cond, hbyte, lowByte_eq]
  by_cases hsmall : index % 256 < 128
  · rw [if_pos (by omega)]
    exact iff_of_true rfl hsmall
  · rw [if_neg (by omega)]
    refine iff_of_false ?_ hsmall
    intro heq
    omega

/-! ## Payloads -/

def Live.range (b : Live) : Range := ⟨b.ptr, b.ptr + b.size - 1⟩

def Live.Apart (a b : Live) : Prop :=
  a.ptr + a.size ≤ b.ptr ∨ b.ptr + b.size ≤ a.ptr

instance instSymmApart : Std.Symm Live.Apart :=
  ⟨fun _ _ h => h.elim Or.inr Or.inl⟩

theorem Live.Apart.ne (h : a.Apart b) (ha : 0 < a.size) (hb : 0 < b.size) : a.ptr ≠ b.ptr := by
  unfold Live.Apart at h
  omega

/-- Payloads that are apart start at different places, so one record is removed. -/
theorem removeRange_map (hpos : ∀ b ∈ live, 0 < b.size) (hap : live.Pairwise Live.Apart) (x : Nat) :
    removeRange (live.map Live.range) x = (Session.drop live x).map Live.range := by
  induction live with
  | nil => rfl
  | cons b live ih =>
    obtain ⟨hb, hrest⟩ := List.pairwise_cons.mp hap
    have hposb := hpos b List.mem_cons_self
    have hposr : ∀ a ∈ live, 0 < a.size := fun a ha => hpos a (List.mem_cons_of_mem b ha)
    rw [List.map_cons]
    by_cases hx : b.ptr = x
    · subst hx
      have hall : ∀ a ∈ live, decide (a.ptr ≠ b.ptr) = true := fun a ha =>
        decide_eq_true (Ne.symm ((hb a ha).ne hposb (hposr a ha)))
      have hfilter : Session.drop (b :: live) b.ptr = live := by
        rw [Session.drop, List.filter_cons_of_neg (by simp), List.filter_eq_self.mpr hall]
      rw [hfilter]
      exact removeRange_self b.range _
    · have hfilter : Session.drop (b :: live) x = b :: Session.drop live x :=
        List.filter_cons_of_pos (decide_eq_true hx)
      have hfirst : b.range.lo ≠ x := hx
      rw [hfilter, List.map_cons, removeRange_ne hfirst, ih hposr hrest]

/-! ## The records and the ledger -/

/-- The records of the driver are those of the ledger, and the fill bytes are stored in the
payloads of the ids. -/
structure Agrees (d : Driver) (g : Ledger) : Prop where
  ranges : d.ranges = g.live.map Live.range
  pos : ∀ b ∈ g.live, 0 < b.size
  apart : g.live.Pairwise Live.Apart
  mem : ∀ i b, g.ids i = some b → b ∈ g.live
  own : ∀ i j b, g.ids i = some b → g.ids j = some b → i = j
  block : ∀ i b, g.ids i = some b → d.blocks i = b.ptr ∧ d.blockSizes i = b.size
  filled : ∀ i b, g.ids i = some b → ∀ j < b.size, g.stored i j = fillByte i

theorem agrees_empty (d : Driver) (hd : d.ranges = []) : Agrees d Ledger.empty := by
  refine ⟨hd, ?_, List.Pairwise.nil, ?_, ?_, ?_, ?_⟩
  · intro b hb
    cases hb
  all_goals
    intros
    contradiction

theorem Agrees.ptr_inj (ha : Agrees d g) (hmem : a ∈ g.live) (hmem' : b ∈ g.live)
    (hp : a.ptr = b.ptr) : a = b := by
  by_contra hne
  have hapart : a.Apart b := ha.apart.forall hmem hmem' hne
  exact hapart.ne (ha.pos a hmem) (ha.pos b hmem') hp

theorem Agrees.heap (ha : Agrees d g) (h : Heap) : Agrees { d with heap := h } g :=
  ⟨ha.ranges, ha.pos, ha.apart, ha.mem, ha.own, ha.block, ha.filled⟩

/-- The payload of an id is given back. -/
theorem Agrees.release (ha : Agrees d g) (hb : g.ids i = some b) :
    Agrees { d with ranges := removeRange d.ranges b.ptr } (g.release i b) := by
  refine ⟨?_, ?_, ha.apart.filter _, ?_, ?_, ?_, ?_⟩
  · rw [ha.ranges]
    exact removeRange_map ha.pos ha.apart b.ptr
  · intro a hm
    exact ha.pos a (live_release hm)
  · intro j c hc
    obtain ⟨hji, hj⟩ := ids_release hc
    refine List.mem_filter.mpr ⟨ha.mem j c hj, decide_eq_true ?_⟩
    intro hptr
    have hcb := ha.ptr_inj (ha.mem j c hj) (ha.mem i b hb) hptr
    subst hcb
    exact hji (ha.own j i c hj hb)
  · intro j k c hj hk
    exact ha.own j k c (ids_release hj).2 (ids_release hk).2
  · intro j c hc
    exact ha.block j c (ids_release hc).2
  · intro j c hc
    exact ha.filled j c (ids_release hc).2

/-- `add_range` has nothing to say against a payload in its place. -/
theorem Agrees.addRange (ha : Agrees d g) (hp : InPlace d.heap g.live p size) (hsize : 0 < size)
    (tracenum opnum : Nat) : d.addRange p size tracenum opnum =
      some (true, { d with ranges := ⟨p, p + size.toNat - 1⟩ :: d.ranges }) := by
  have hends : ∀ r ∈ d.ranges, endIn p (p + size.toNat - 1) r = false := by
    intro r hr
    rw [ha.ranges] at hr
    obtain ⟨b, hb, rfl⟩ := List.mem_map.mp hr
    have hapart := hp.apart b hb
    have hpos := ha.pos b hb
    simp only [endIn, Live.range, ge_iff_le, decide_eq_false_iff_not]
    omega
  have hok : Malloc.addRange d.heap d.ranges p size =
      some (.ok (⟨p, p + size.toNat - 1⟩ :: d.ranges)) :=
    (addRange_ok hsize).mpr ⟨hp.aligned, hp.inside, hends, rfl⟩
  rw [Driver.addRange, hok]
  rfl

/-- The new payload is filled and remembered. -/
theorem Agrees.hold (ha : Agrees d g) (hp : InPlace d.heap g.live p op.size) (hsize : 0 < op.size)
    (hd : d' = Driver.remember { d with ranges := ⟨p, p + op.size.toNat - 1⟩ :: d.ranges } op p) :
    Agrees d' (g.hold op.index ⟨p, op.size.toNat⟩ fun j => d'.heap.mem (p + j)) := by
  subst hd
  have hnew : ∀ b ∈ g.live, b ≠ ⟨p, op.size.toNat⟩ := by
    rintro b hb rfl
    have hapart := hp.apart _ hb
    have hpos : 0 < op.size.toNat := ha.pos _ hb
    simp only at hapart
    omega
  refine ⟨?_, ?_, ?_, ?_, ?_, ?_, ?_⟩
  · change _ = (_ :: g.live).map Live.range
    rw [List.map_cons, ← ha.ranges]
    rfl
  · intro b hb
    rcases List.mem_cons.mp hb with rfl | hb
    · change 0 < op.size.toNat
      omega
    · exact ha.pos b hb
  · exact List.pairwise_cons.mpr ⟨hp.apart, ha.apart⟩
  · intro i b hb
    rcases ids_hold hb with ⟨-, rfl⟩ | ⟨-, hb⟩
    · exact List.mem_cons_self
    · exact List.mem_cons_of_mem _ (ha.mem i b hb)
  · intro i j b hi hj
    rcases ids_hold hi with ⟨rfl, rfl⟩ | ⟨-, hi⟩
    · rcases ids_hold hj with ⟨rfl, -⟩ | ⟨-, hj⟩
      · rfl
      · exact absurd rfl (hnew _ (ha.mem j _ hj))
    · rcases ids_hold hj with ⟨rfl, rfl⟩ | ⟨-, hj⟩
      · exact absurd rfl (hnew _ (ha.mem i _ hi))
      · exact ha.own i j b hi hj
  · intro i b hb
    rcases ids_hold hb with ⟨rfl, rfl⟩ | ⟨hi, hb⟩
    · exact ⟨Function.update_self .., Function.update_self ..⟩
    · have hblock := ha.block i b hb
      exact ⟨(Function.update_of_ne hi ..).trans hblock.1,
        (Function.update_of_ne hi ..).trans hblock.2⟩
  · intro i b hb j hj
    rcases ids_hold hb with ⟨rfl, rfl⟩ | ⟨hi, hb⟩
    · rw [stored_self]
      exact memset_of_mem hj
    · rw [stored_of_ne hi]
      exact ha.filled i b hb j hj

/-! ## One request -/

theorem Agrees.alloc (ha : Agrees d g) (htype : op.type = .alloc) (hsize : 0 < op.size)
    (hc : Correct al i d.heap g op) (tracenum : Nat) :
    ∃ d', d.step al tracenum i op = some (true, d') ∧
      Agrees d' (g.next op (d'.blocks op.index) d'.heap.mem) := by
  unfold Correct at hc
  unfold Driver.step
  rw [htype] at hc ⊢
  cases hans : al.mmMalloc i d.heap op.size with
  | mk p h =>
    simp only [hans] at hc ⊢
    have ha' := ha.heap h
    have hadd := ha'.addRange hc hsize tracenum i
    rw [if_neg hc.nonNull, hadd]
    refine ⟨_, rfl, ?_⟩
    rw [blocks_remember, Ledger.next, htype]
    exact ha'.hold hc hsize rfl

/-- The comparison succeeds exactly when the fill byte is read back. -/
theorem preserved_iff (hn : 0 < n) (hm : ∀ j < n, m (p + j) = fillByte index) :
    Driver.preserved m p n index = true ↔ index % 256 < 128 := by
  rw [Driver.preserved, List.all_eq_true, ← charValue_fillByte]
  constructor
  · intro hall
    have hfirst := of_decide_eq_true (hall 0 (List.mem_range.mpr hn))
    rwa [hm 0 hn] at hfirst
  · intro hbyte j hj
    rw [hm j (List.mem_range.mp hj)]
    exact decide_eq_true hbyte

theorem Agrees.realloc (ha : Agrees d g) (htype : op.type = .realloc) (hsize : 0 < op.size)
    (hb : g.ids op.index = some b) (hc : Correct al i d.heap g op) (tracenum : Nat) :
    ∃ d', d.step al tracenum i op = some (decide (op.index % 256 < 128), d') ∧
      (op.index % 256 < 128 → Agrees d' (g.next op (d'.blocks op.index) d'.heap.mem)) := by
  obtain ⟨hptr, hold⟩ := ha.block op.index b hb
  unfold Correct at hc
  unfold Driver.step
  rw [htype, hb] at hc
  rw [htype, hptr]
  cases hans : al.mmRealloc i d.heap b.ptr op.size with
  | mk p h =>
    simp only [hans] at hc ⊢
    obtain ⟨hp, hdata⟩ := hc
    have ha' := (ha.release hb).heap h
    have hadd := ha'.addRange hp hsize tracenum i
    rw [if_neg hp.nonNull, hadd]
    have hmin : (if op.size < (d.blockSizes op.index : Int) then op.size.toNat
        else d.blockSizes op.index) = min b.size op.size.toNat := by
      rw [hold]
      split_ifs <;> omega
    have hpos : 0 < min b.size op.size.toNat := by
      have := ha.pos b (ha.mem _ b hb)
      omega
    have hbytes : ∀ j < min b.size op.size.toNat, h.mem (p + j) = fillByte op.index := by
      intro j hj
      rw [hdata j hj]
      exact ha.filled op.index b hb j (Nat.lt_of_lt_of_le hj (Nat.min_le_left ..))
    have hcheck := preserved_iff hpos hbytes
    simp only [Option.bind_eq_bind, Option.bind_some, Bool.true_eq_false, if_false, hmin]
    by_cases hplain : op.index % 256 < 128
    · rw [hcheck.mpr hplain, decide_eq_true hplain]
      refine ⟨_, rfl, fun _ => ?_⟩
      rw [blocks_remember, Ledger.next, htype, hb]
      exact ha'.hold hp hsize rfl
    · rw [Bool.eq_false_iff.mpr fun h => hplain (hcheck.mp h), decide_eq_false hplain]
      exact ⟨_, rfl, fun h => absurd h hplain⟩

theorem Agrees.free (ha : Agrees d g) (htype : op.type = .free) (hb : g.ids op.index = some b)
    (al : Allocator) (tracenum i : Nat) :
    ∃ d', d.step al tracenum i op = some (true, d') ∧
      Agrees d' (g.next op (d'.blocks op.index) d'.heap.mem) := by
  have hptr := (ha.block op.index b hb).1
  unfold Driver.step
  rw [htype, hptr]
  refine ⟨_, rfl, ?_⟩
  rw [Ledger.next, htype, hb]
  exact (ha.release hb).heap _

/-! ## The whole trace -/

theorem plainByte_of_ne (h : op.type ≠ .realloc) : PlainByte op :=
  fun h' => absurd h' h

theorem plainByte_realloc (h : op.type = .realloc) : PlainByte op ↔ op.index % 256 < 128 :=
  ⟨fun hp => hp h, fun hlt _ => hlt⟩

/-- One request: the driver goes on, but for a reallocation with a negative fill byte. -/
theorem Agrees.step (ha : Agrees d g) (ht : Tracks g ids) (hv : ValidTrace ids (op :: ops))
    (hc : Correct al i d.heap g op) (tracenum : Nat) :
    ∃ d', d.step al tracenum i op = some (decide (PlainByte op), d') ∧
      (PlainByte op → Agrees d' (g.next op (d'.blocks op.index) d'.heap.mem)) := by
  obtain ⟨-, -, ⟨htype, hsize⟩ | ⟨b, htype, hsize, hb⟩ | ⟨b, htype, hb⟩⟩ := hv.cases ht 0 d.heap.mem
  · have hplain : PlainByte op := plainByte_of_ne (by simp [htype])
    obtain ⟨d', hstep, ha'⟩ := ha.alloc htype hsize hc tracenum
    rw [decide_eq_true hplain]
    exact ⟨d', hstep, fun _ => ha'⟩
  · have hplain := plainByte_realloc htype
    obtain ⟨d', hstep, ha'⟩ := ha.realloc htype hsize hb hc tracenum
    rw [decide_eq_decide.mpr hplain]
    exact ⟨d', hstep, fun h => ha' (hplain.mp h)⟩
  · have hplain : PlainByte op := plainByte_of_ne (by simp [htype])
    obtain ⟨d', hstep, ha'⟩ := ha.free htype hb al tracenum i
    rw [decide_eq_true hplain]
    exact ⟨d', hstep, fun _ => ha'⟩

theorem Agrees.evalOps {tracenum : Nat} (ha : Agrees d g) (ht : Tracks g ids)
    (hv : ValidTrace ids ops) (hc : CorrectRun al tracenum i d g ops) :
    ∃ r d', Driver.evalOps al tracenum i d ops = some (r, d') ∧
      (r = 1 ↔ ∀ op ∈ ops, PlainByte op) := by
  induction ops generalizing i d g ids with
  | nil => exact ⟨1, d, rfl, by simp⟩
  | cons op ops ih =>
    obtain ⟨hcorrect, hrest⟩ := hc
    obtain ⟨d', hstep, hnext⟩ := ha.step ht hv hcorrect tracenum
    obtain ⟨hv', ht', -⟩ := hv.cases ht (d'.blocks op.index) d'.heap.mem
    rw [Driver.evalOps, hstep, List.forall_mem_cons]
    by_cases hplain : PlainByte op
    · have hgo : d.step al tracenum i op = some (true, d') := by
        rw [hstep, decide_eq_true hplain]
      obtain ⟨r, d2, hrun, hiff⟩ := ih (hnext hplain) ht' hv' (hrest d' hgo)
      refine ⟨r, d2, ?_, ?_⟩
      · rw [decide_eq_true hplain]
        exact hrun
      · rw [hiff]
        exact ⟨fun h => ⟨hplain, h⟩, fun h => h.2⟩
    · refine ⟨0, d', ?_, ?_⟩
      · rw [decide_eq_false hplain]
        rfl
      · refine iff_of_false (by decide) ?_
        intro h
        exact hplain h.1

/-- **A correct allocator is accepted** if and only if no id whose low byte is 128 or more is
reallocated. -/
theorem evalMmValid_iff (al : Allocator) (tracenum : Nat) (d : Driver)
    (hv : ValidTrace (fun _ => false) ops) (hinit : 0 ≤ (d.started al).1)
    (hc : CorrectRun al tracenum 0 (d.started al).2 Ledger.empty ops) :
    ∃ r d', evalMmValid al tracenum d ops = some (r, d') ∧
      (r = 1 ↔ ∀ op ∈ ops, op.type = .realloc → op.index % 256 < 128) := by
  have ha : Agrees (d.started al).2 Ledger.empty := agrees_empty _ (clearRanges_eq d.ranges)
  have ht : Tracks Ledger.empty fun _ => false := fun i => rfl
  obtain ⟨r, d', hrun, hiff⟩ := ha.evalOps ht hv hc
  refine ⟨r, d', ?_, hiff⟩
  rw [evalMmValid]
  simp only [if_neg (not_lt_of_ge hinit)]
  exact hrun

def freshDriver : Driver := ⟨smallHeap, [], fun _ => 0, fun _ => 0, []⟩

/-- The block of the given id is allocated with 8 bytes and reallocated with 16. -/
def growTrace (index : Nat) : List TraceOp :=
  [⟨.alloc, index, 8⟩, ⟨.realloc, index, 16⟩]

theorem growTrace_valid (index : Nat) : ValidTrace (fun _ => false) (growTrace index) :=
  ⟨(by decide : (0 : Int) < 8), (by decide : (0 : Int) < 16), Function.update_self .., trivial⟩

theorem grow_iff : ∃ r d', evalMmValid bump 0 freshDriver (growTrace 127) = some (r, d') ∧
    (r = 1 ↔ ∀ op ∈ growTrace 127, op.type = .realloc → op.index % 256 < 128) :=
  evalMmValid_iff bump 0 freshDriver (growTrace_valid 127) (by decide)
    (bump_correct (by decide) (growTrace_valid 127) 0)

/-- The block with id 128 has kept its bytes, and the driver complains. -/
theorem grow_rejected : ValidTrace (fun _ => false) (growTrace 128) ∧
    0 ≤ (freshDriver.started bump).1 ∧
    CorrectRun bump 0 0 (freshDriver.started bump).2 Ledger.empty (growTrace 128) ∧
    ((evalMmValid bump 0 freshDriver (growTrace 128)).map fun r => (r.1, r.2.errors)) = some (0,
      ["ERROR [trace 0, line 6]: mm_realloc did not preserve the data from old block\n"]) :=
  ⟨growTrace_valid 128, by decide, bump_correct (by decide) (growTrace_valid 128) 0,
    by decide +kernel⟩

end CourseProjects.Malloc

import ObjectSpace.Proofs.Arena.Scanning
import Mathlib.Algebra.Order.BigOperators.Group.Finset
import Mathlib.Algebra.Order.Floor.Div

/-!
# Growth

**Theorem (`growth_tight`).** In every run, a class has exactly the blocks that the largest number
of its slots ever live at one moment needs, and each slab class its first block; the live count is
the number of slots handed out or marked since the marks were last cleared, and counting the packed
bits gives it without taking off more bits than were counted; and there are exactly the chunks that
the slab blocks need.

A block is added only when every slot of the class is live, so after a step a class has
the larger number of the blocks it had and the blocks its live slots need (`blocks_occupy_ready`).
Chunks are drawn one at a time, when the newest has no block left (`Budgeted`).
-/

namespace ObjectSpace

variable {α : Type}

namespace Pool

variable {p q : Pool α}

/-! ## Live slots -/

/-- The live slots, by block and place in the block. -/
def liveSlots (p : Pool α) : Finset (Nat × Nat) :=
  ((Finset.range p.cells.size).filter fun i => p.liveAt i = true).image fun i =>
    (i / p.slots, i % p.slots)

theorem mem_liveSlots (hs : 0 < p.slots) {b s : Nat} :
    (b, s) ∈ p.liveSlots ↔ s < p.slots ∧ p.liveAt (b * p.slots + s) = true := by
  simp only [liveSlots, Finset.mem_image, Finset.mem_filter, Finset.mem_range, Prod.mk.injEq]
  constructor
  · rintro ⟨i, ⟨-, hi⟩, rfl, rfl⟩
    exact ⟨Nat.mod_lt i hs, by rwa [Nat.div_add_mod']⟩
  · rintro ⟨hlt, hlive⟩
    obtain ⟨hb, hm⟩ := (block_mul_add_eq_iff hlt).1 rfl
    exact ⟨_, ⟨lt_size_of_liveAt hlive, hlive⟩, hb.symm, hm.symm⟩

/-- Making the cell at `i` live adds its slot. -/
theorem liveSlots_of_update (hp : 0 < p.slots) {i : Nat} (hs : q.slots = p.slots)
    (hq : q.liveAt = Function.update p.liveAt i true) :
    q.liveSlots = insert (i / p.slots, i % p.slots) p.liveSlots := by
  ext ⟨b, s⟩
  rw [Finset.mem_insert, mem_liveSlots (hs ▸ hp), mem_liveSlots hp, hq, hs, Function.update_apply,
    Prod.mk.injEq]
  constructor
  · rintro ⟨hlt, hlive⟩
    split at hlive
    · exact .inl ((block_mul_add_eq_iff hlt).1 ‹_›)
    · exact .inr ⟨hlt, hlive⟩
  · rintro (⟨rfl, rfl⟩ | ⟨hlt, hlive⟩)
    · exact ⟨Nat.mod_lt i hp, if_pos (Nat.div_add_mod' i _)⟩
    · refine ⟨hlt, ?_⟩
      split
      · rfl
      · exact hlive

theorem liveSlots_congr (hp : 0 < p.slots) (hs : q.slots = p.slots) (hq : q.liveAt = p.liveAt) :
    q.liveSlots = p.liveSlots := by
  ext ⟨b, s⟩
  rw [mem_liveSlots (hs ▸ hp), mem_liveSlots hp, hq, hs]

theorem countP_eq_count (l : List (Cell α)) :
    l.countP (·.live) = Nat.count (fun i => l[i]?.any (·.live) = true) l.length := by
  induction l with
  | nil => rfl
  | cons x l ih =>
    rw [List.countP_cons, List.length_cons, Nat.count_succ', ih]
    rfl

theorem liveCount_eq_count (p : Pool α) :
    p.liveCount = Nat.count (fun i => p.liveAt i = true) p.cells.size := by
  rw [liveCount, ← Array.countP_toList, countP_eq_count]
  simp only [Array.getElem?_toList]
  rfl

theorem card_liveSlots (p : Pool α) : p.liveSlots.card = p.liveCount := by
  rw [liveCount_eq_count, Nat.count_eq_card_filter_range, liveSlots]
  refine Finset.card_image_of_injOn fun i _ j _ hij => ?_
  obtain ⟨hdiv, hmod⟩ := Prod.mk.inj hij
  rw [← Nat.div_add_mod' i p.slots, ← Nat.div_add_mod' j p.slots, hdiv, hmod]

/-- Counting the packed bits block by block counts the live cells. -/
theorem liveCount_pack (w : p.Swept) :
    p.pack.liveCount = p.liveCount ∧ ∀ b ∈ p.pack.blocks, b.padding ≤ b.ones := by
  have hcount : ∀ (n : Nat) (live : Nat → Bool),
      (List.ofFn fun b : Fin n => Bitmap.ofBits p.slots fun i => live (b * p.slots + i)).foldr
        (fun b m => b.liveCount + m) 0 = Nat.count (fun i => live i = true) (n * p.slots) := by
    intro n
    induction n with
    | zero => intro live; simp
    | succ n ih =>
      intro live
      have htail := ih fun i => live (p.slots + i)
      rw [List.ofFn_succ, List.foldr_cons, Bitmap.liveCount_ofBits.2, Nat.add_one_mul,
        Nat.add_comm (n * p.slots), Nat.count_add, ← htail]
      simp [Nat.add_one_mul, Nat.add_comm, Nat.add_left_comm]
  refine ⟨?_, fun b hb => ?_⟩
  · rw [PackedPool.liveCount, pack, Array.toList_ofFn]
    exact (hcount p.blocks p.liveAt).trans (by rw [liveCount_eq_count, w.size_eq])
  · obtain ⟨i, -, rfl⟩ := Array.mem_ofFn.1 hb
    exact Bitmap.liveCount_ofBits.1

/-! ## Blocks -/

/-- The live cells fit in the blocks. -/
theorem Swept.ceilDiv_liveCount_le (w : p.Swept) : p.liveCount ⌈/⌉ p.slots ≤ p.blocks := by
  rw [ceilDiv_le_iff_le_mul w.slots_pos, Nat.mul_comm, ← w.size_eq]
  exact Array.countP_le_size

/-- Without a new block, there are the larger number of the blocks there were and the blocks that
the live cells need. -/
theorem Swept.blocks_eq_max (w : q.Swept) (hs : q.slots = p.slots) (hb : q.blocks = p.blocks) :
    q.blocks = max p.blocks (q.liveCount ⌈/⌉ p.slots) := by
  rw [← hb, ← hs, max_eq_left w.ceilDiv_liveCount_le]

/-- Taking a cell adds a block only if the live cells need one more. -/
theorem blocks_occupy_ready (w : p.Swept) (v : α) :
    (p.ready.occupy p.ready.cursor v).blocks =
      max p.blocks ((p.ready.occupy p.ready.cursor v).liveCount ⌈/⌉ p.slots) := by
  have wq := w.ready.occupy v w.cursor_ready_lt.1
  have hq := liveAt_occupy v w.cursor_ready_lt.1
  obtain ⟨q, hdef⟩ : ∃ q, p.ready.occupy p.ready.cursor v = q := ⟨_, rfl⟩
  have hslots : q.slots = p.slots := by rw [← hdef, slots_occupy, slots_ready]
  have hready : q.blocks = p.ready.blocks := by
    rw [← hdef]
    exact blocks_of_size rfl (size_occupy ..)
  rw [liveAt_ready] at hq
  rw [hdef] at wq hq ⊢
  obtain ⟨hlive, ⟨-, -, he⟩ | ⟨hend, he⟩⟩ := ready_cases w
  · exact wq.blocks_eq_max hslots (by rw [hready, he]; rfl)
  · have hblocks : q.blocks = p.blocks + 1 := by
      rw [hready, he]
      exact blocks_grow w.slots_pos
    have hall : Nat.count (fun i => q.liveAt i = true) (p.cells.size + 1) = p.cells.size + 1 := by
      refine Nat.count_iff_forall.2 fun i hi => ?_
      rw [hq, hend, Function.update_apply]
      split
      · rfl
      · exact hlive i (by omega)
    have hsize : p.cells.size + 1 ≤ q.cells.size := by
      rw [w.size_eq, wq.size_eq, hblocks, hslots, Nat.add_one_mul]
      have := w.slots_pos
      omega
    have hmore : p.cells.size < q.liveCount := by
      rw [liveCount_eq_count]
      have := Nat.count_monotone (fun i => q.liveAt i = true) hsize
      omega
    have hneed : p.blocks < q.liveCount ⌈/⌉ p.slots := by
      rw [← Nat.not_le, ceilDiv_le_iff_le_mul w.slots_pos, Nat.mul_comm, ← w.size_eq]
      omega
    have hfit := wq.ceilDiv_liveCount_le
    rw [hslots, hblocks] at hfit
    omega

end Pool

namespace Arena

/-! ## Slots in use -/

/-- The slots of class `c` handed out or marked since the marks were last cleared. -/
def usedSlots (c : SizeClass) (t : List (Event α)) : Finset (Nat × Nat) :=
  (((inUse t).filter (·.sizeClass = c)).map fun h => (h.block, h.slot)).toFinset

/-- The largest number of slots of class `c` in use at one moment. -/
def peak (c : SizeClass) : List (Event α) → Nat
  | [] => 0
  | e :: t => max (peak c t) (usedSlots c (e :: t)).card

theorem liveAt_empty (layout : Layout) (c : SizeClass) (i : Nat) :
    ((empty layout : Arena α).pool c).liveAt i = false := by
  rw [pool_empty]
  split
  · rfl
  · rw [Pool.liveAt_grow]
    rfl

/-- One more handle in use. -/
theorem usedSlots_cons {c : SizeClass} {s t : List (Event α)} {h : Handle}
    (he : inUse s = h :: inUse t) :
    usedSlots c s =
      if h.sizeClass = c then insert (h.block, h.slot) (usedSlots c t) else usedSlots c t := by
  unfold usedSlots
  rw [he]
  by_cases hc : h.sizeClass = c <;> simp [hc]

/-- The live slots of a class are those in use. -/
theorem liveSlots_of_ran {layout : Layout} {t : List (Event α)} {a : Arena α} (r : Ran layout t a)
    (c : SizeClass) : (a.pool c).liveSlots = usedSlots c t := by
  induction r with
  | start h =>
    obtain ⟨hc, rfl⟩ := create_eq_ok h
    have w := swept_empty (α := α) hc c
    refine Finset.eq_empty_of_forall_notMem ?_
    rintro ⟨b, s⟩ hmem
    have hlive := ((Pool.mem_liveSlots w.slots_pos).1 hmem).2
    rw [liveAt_empty] at hlive
    cases hlive
  | @allocate t a b h size v r hb ih =>
    obtain ⟨d, -, rfl, rfl⟩ := allocate_eq_ok hb
    have w := swept_of_ran r c
    obtain ⟨hclass, hblock, hslot⟩ := allocateIn_fst a d v
    rw [usedSlots_cons (t := t) rfl, pool_allocateIn, hclass, ← ih, hblock, hslot]
    split
    · rename_i hdc
      subst hdc
      refine Pool.liveSlots_of_update w.slots_pos (Pool.slots_ready _) ?_
      rw [Pool.liveAt_occupy v w.cursor_ready_lt.1, Pool.liveAt_ready]
    · rfl
  | @store t a b h v f r _ _ hb ih =>
    obtain ⟨-, rfl⟩ := update?_eq_some hb
    rw [show usedSlots c (.stored h (f v) :: t) = usedSlots c t from rfl, ← ih, modify,
      pool_modifyPool]
    split
    · exact Pool.liveSlots_congr (swept_of_ran r c).slots_pos rfl (Pool.liveAt_update _ _ _)
    · rfl
  | @mark t a b h wasLive r _ hb ih =>
    obtain ⟨x, hx, -, rfl⟩ := mark?_eq_some hb
    rw [usedSlots_cons (t := t) rfl, ← ih, setMark, pool_modifyPool]
    split
    · rename_i hc
      subst hc
      obtain ⟨hblock, hslot⟩ :=
        (Pool.block_mul_add_eq_iff (slot_lt_of_cell? hx)).1 (rfl : _ = a.position h)
      rw [hblock, hslot]
      exact Pool.liveSlots_of_update (swept_of_ran r _).slots_pos rfl
        (Pool.liveAt_mark (position_lt_of_cell? hx))
    · rfl
  | @clear t a r ih =>
    refine Finset.eq_empty_of_forall_notMem ?_
    rintro ⟨b, s⟩ hmem
    rw [pool_clearMarks, Pool.mem_liveSlots (p := (a.pool c).clearMarks)
      (swept_of_ran r c).slots_pos, Pool.liveAt_clearMarks] at hmem
    cases hmem.2

theorem liveCount_of_ran {layout : Layout} {t : List (Event α)} {a : Arena α}
    (r : Ran layout t a) (c : SizeClass) : (a.pool c).liveCount = (usedSlots c t).card := by
  rw [← Pool.card_liveSlots, liveSlots_of_ran r]

/-! ## Blocks of a run -/

/-- The blocks of a class as the run accounts for them: its first one, if it has one, and those that
the largest number of its slots in use at one moment needs. -/
def blocksFor (layout : Layout) (c : SizeClass) (t : List (Event α)) : Nat :=
  max (if c = SizeClass.large then 0 else 1) (peak c t ⌈/⌉ layout.slots c)

@[simp] theorem blocks_modify (a : Arena α) (h : Handle) (f : α → α) (c : SizeClass) :
    ((a.modify h f).pool c).blocks = (a.pool c).blocks := by
  rw [modify, pool_modifyPool]
  split
  · exact Pool.blocks_of_size rfl (Pool.size_update ..)
  · rfl

@[simp] theorem blocks_setMark (a : Arena α) (h : Handle) (c : SizeClass) :
    ((a.setMark h).pool c).blocks = (a.pool c).blocks := by
  rw [setMark, pool_modifyPool]
  split
  · exact Pool.blocks_of_size rfl (Pool.size_mark ..)
  · rfl

@[simp] theorem blocks_clearMarks (a : Arena α) (c : SizeClass) :
    (a.clearMarks.pool c).blocks = (a.pool c).blocks := by
  rw [pool_clearMarks]
  exact Pool.blocks_of_size rfl (Pool.size_clearMarks _)

section Step

variable {layout : Layout} {t : List (Event α)} {e : Event α} {a b : Arena α} {c : SizeClass}

/-- A step after which a class has the larger number of the blocks it had and the blocks its live
slots need. -/
theorem blocks_of_step (r : Ran layout t a) (r' : Ran layout (e :: t) b)
    (h : (a.pool c).blocks = blocksFor layout c t)
    (hb : (b.pool c).blocks =
      max (a.pool c).blocks ((b.pool c).liveCount ⌈/⌉ (a.pool c).slots)) :
    (b.pool c).blocks = blocksFor layout c (e :: t) := by
  have hn : 0 < layout.slots c := slots_of_ran r c ▸ (swept_of_ran r c).slots_pos
  have hsup : peak c (e :: t) ⌈/⌉ layout.slots c =
      max (peak c t ⌈/⌉ layout.slots c) ((usedSlots c (e :: t)).card ⌈/⌉ layout.slots c) :=
    (gc_smul_ceilDiv hn).l_sup
  rw [hb, h, liveCount_of_ran r', slots_of_ran r, blocksFor, blocksFor, hsup, max_assoc]

/-- A step that adds no block. -/
theorem blocks_of_kept (r : Ran layout t a) (r' : Ran layout (e :: t) b)
    (h : (a.pool c).blocks = blocksFor layout c t)
    (hb : (b.pool c).blocks = (a.pool c).blocks) :
    (b.pool c).blocks = blocksFor layout c (e :: t) :=
  blocks_of_step r r' h <|
    (swept_of_ran r' c).blocks_eq_max ((slots_of_ran r' c).trans (slots_of_ran r c).symm) hb

end Step

theorem blocks_of_ran {layout : Layout} {t : List (Event α)} {a : Arena α} (r : Ran layout t a)
    (c : SizeClass) : (a.pool c).blocks = blocksFor layout c t := by
  induction r with
  | start h =>
    obtain ⟨hc, rfl⟩ := create_eq_ok h
    have hnone : ({ slots := layout.slots c } : Pool α).blocks = 0 := Nat.zero_div _
    rw [blocksFor, peak, zero_ceilDiv, Nat.max_zero, pool_empty]
    split
    · exact hnone
    · rw [Pool.blocks_grow (slots_pos_of_check hc c), hnone]
  | allocate size v r hb ih =>
    have r' := Ran.allocate size v r hb
    obtain ⟨d, -, rfl, rfl⟩ := allocate_eq_ok hb
    by_cases hdc : d = c
    · refine blocks_of_step r r' ih ?_
      rw [pool_allocateIn, if_pos hdc, Pool.blocks_occupy_ready (swept_of_ran r c)]
    · exact blocks_of_kept r r' ih (by rw [pool_allocateIn, if_neg hdc])
  | store f r hi hv hb ih =>
    refine blocks_of_kept r (.store f r hi hv hb) ih ?_
    obtain ⟨-, rfl⟩ := update?_eq_some hb
    exact blocks_modify ..
  | mark r hi hb ih =>
    refine blocks_of_kept r (.mark r hi hb) ih ?_
    obtain ⟨x, -, -, rfl⟩ := mark?_eq_some hb
    exact blocks_setMark ..
  | clear r ih => exact blocks_of_kept r (.clear r) ih (blocks_clearMarks ..)

/-! ## Chunks -/

/-- Blocks of the slab classes together. -/
def slabBlocks (a : Arena α) : Nat := ∑ c with c ≠ SizeClass.large, (a.pool c).blocks

/-- The chunks taken are the slab blocks and the spare ones, and no chunk was taken early. -/
structure Budgeted (a : Arena α) : Prop where
  split : a.chunks * a.layout.blocksPerChunk = a.slabBlocks + a.spareBlocks
  tight : a.chunks = max 1 (a.slabBlocks ⌈/⌉ a.layout.blocksPerChunk)

theorem blocksPerChunk_pos (layout : Layout) : 0 < layout.blocksPerChunk := Nat.le_max_left ..

namespace Budgeted

variable {a b : Arena α}

/-- The budget depends on the numbers of blocks alone. -/
theorem congr (h : a.Budgeted) (hl : b.layout = a.layout) (hc : b.chunks = a.chunks)
    (hs : b.spareBlocks = a.spareBlocks) (hb : ∀ c, (b.pool c).blocks = (a.pool c).blocks) :
    b.Budgeted := by
  have hslab : b.slabBlocks = a.slabBlocks := Finset.sum_congr rfl fun c _ => hb c
  exact ⟨by rw [hc, hl, hslab, hs, h.split], by rw [hc, hl, hslab, h.tight]⟩

/-- Drawing a block for one more slab block. -/
theorem draw (h : a.Budgeted) (hl : b.layout = a.layout) (hc : b.chunks = a.drawBlock.chunks)
    (hs : b.spareBlocks = a.drawBlock.spareBlocks) (hb : b.slabBlocks = a.slabBlocks + 1) :
    b.Budgeted := by
  have hpos := blocksPerChunk_pos a.layout
  have hsplit := h.split
  have htight := h.tight
  have hle : ∀ m k, m ⌈/⌉ a.layout.blocksPerChunk ≤ k ↔ m ≤ k * a.layout.blocksPerChunk :=
    fun m k => by rw [ceilDiv_le_iff_le_mul hpos, Nat.mul_comm]
  have hmono : a.slabBlocks ⌈/⌉ a.layout.blocksPerChunk ≤
      (a.slabBlocks + 1) ⌈/⌉ a.layout.blocksPerChunk :=
    (gc_smul_ceilDiv hpos).monotone_l (Nat.le_succ _)
  unfold drawBlock at hc hs
  by_cases hspare : a.spareBlocks = 0
  · rw [if_pos hspare] at hc hs
    have hmore := (hle (a.slabBlocks + 1) (a.chunks + 1)).2 (by rw [Nat.add_one_mul]; omega)
    have hless := mt (hle (a.slabBlocks + 1) a.chunks).1 (by omega)
    refine ⟨?_, ?_⟩
    · rw [hl, hc, hs, hb, Nat.add_one_mul]
      change _ = a.slabBlocks + 1 + (a.layout.blocksPerChunk - 1)
      omega
    · rw [hl, hc, hb]
      change a.chunks + 1 = _
      omega
  · rw [if_neg hspare] at hc hs
    have hfit := (hle (a.slabBlocks + 1) a.chunks).2 (by omega)
    refine ⟨?_, ?_⟩
    · rw [hl, hc, hs, hb]
      change a.chunks * _ = a.slabBlocks + 1 + (a.spareBlocks - 1)
      omega
    · rw [hl, hc, hb]
      change a.chunks = _
      omega

end Budgeted

theorem layout_drawBlock (a : Arena α) : a.drawBlock.layout = a.layout := by
  unfold drawBlock
  split <;> rfl

/-- One block more for a slab class is one slab block more. -/
theorem slabBlocks_grow {a : Arena α} (ha : a.Roomy) {c : SizeClass} (hc : c ≠ SizeClass.large) :
    (a.grow c).slabBlocks = a.slabBlocks + 1 := by
  have hblocks : ∀ d, ((a.grow c).pool d).blocks = (a.pool d).blocks + if c = d then 1 else 0 := by
    intro d
    rw [pool_grow]
    split
    · exact Pool.blocks_grow (ha d)
    · rfl
  simp only [slabBlocks, hblocks, Finset.sum_add_distrib, Finset.sum_ite_eq]
  rw [if_pos (by simpa using hc)]

theorem Roomy.grow {a : Arena α} (ha : a.Roomy) (c : SizeClass) : (a.grow c).Roomy := by
  intro d
  rw [pool_grow]
  split <;> exact ha d

theorem Budgeted.grow {a : Arena α} (h : a.Budgeted) (ha : a.Roomy) (c : SizeClass) :
    (a.grow c).Budgeted := by
  by_cases hc : c = SizeClass.large
  · have hslab : (a.grow c).slabBlocks = a.slabBlocks := by
      refine Finset.sum_congr rfl fun d hd => ?_
      have hcd : c ≠ d := by rintro rfl; exact (Finset.mem_filter.1 hd).2 hc
      rw [pool_grow, if_neg hcd]
    refine ⟨?_, ?_⟩ <;> rw [hslab, Arena.grow, if_pos hc]
    exacts [h.split, h.tight]
  · refine h.draw ?_ ?_ ?_ (slabBlocks_grow ha hc) <;> rw [Arena.grow, if_neg hc]
    exacts [layout_drawBlock a, rfl, rfl]

theorem layout_grow (a : Arena α) (c : SizeClass) : (a.grow c).layout = a.layout := by
  unfold Arena.grow
  by_cases hc : c = SizeClass.large
  · rw [if_pos hc]
    rfl
  · rw [if_neg hc]
    exact layout_drawBlock a

theorem foldl_grow_budgeted {a : Arena α} (h : a.Budgeted) (ha : a.Roomy) (l : List SizeClass) :
    (l.foldl Arena.grow a).layout = a.layout ∧ (l.foldl Arena.grow a).Budgeted := by
  induction l generalizing a with
  | nil => exact ⟨rfl, h⟩
  | cons c l ih =>
    rw [← layout_grow a c]
    exact ih (h.grow ha c) (ha.grow c)

theorem empty_budgeted {layout : Layout} (h : layout.check = .ok ()) :
    (empty layout : Arena α).layout = layout ∧ (empty layout : Arena α).Budgeted := by
  obtain ⟨start, hstart⟩ : ∃ start : Arena α, start =
      { layout
        pools := Vector.ofFn fun c => { slots := layout.slots c }
        chunks := 1
        spareBlocks := layout.blocksPerChunk } := ⟨_, rfl⟩
  have hpool : ∀ c, start.pool c = { slots := layout.slots c } := fun c => by
    rw [hstart]
    exact Vector.getElem_ofFn c.isLt
  have hnone : start.slabBlocks = 0 := Finset.sum_eq_zero fun c _ => by
    rw [hpool]
    exact Nat.zero_div _
  have hroomy : start.Roomy := fun c => by
    rw [hpool]
    exact slots_pos_of_check h c
  have hbudget : start.Budgeted := by
    refine ⟨?_, ?_⟩
    · rw [hnone, hstart, Nat.one_mul, Nat.zero_add]
    · rw [hnone, zero_ceilDiv, hstart]
      rfl
  have hl : start.layout = layout := by rw [hstart]
  rw [empty, ← hstart]
  exact hl ▸ foldl_grow_budgeted hbudget hroomy slabs

/-- Making a class ready keeps the budget. -/
theorem Budgeted.reserve {a : Arena α} (h : a.Budgeted) (ha : a.Roomy) (c : SizeClass) :
    (a.reserve c).layout = a.layout ∧ (a.reserve c).Budgeted := by
  have hseek : (a.modifyPool c Pool.seek).Budgeted := h.congr rfl rfl rfl fun d => by
    rw [pool_modifyPool]
    split <;> rfl
  have hroomy : (a.modifyPool c Pool.seek).Roomy := fun d => by
    rw [pool_modifyPool]
    split <;> exact ha d
  by_cases hfull : ((a.modifyPool c Pool.seek).pool c).isFull = true
  · rw [Arena.reserve, if_pos hfull]
    exact ⟨layout_grow _ c, hseek.grow hroomy c⟩
  · rw [Arena.reserve, if_neg hfull]
    exact ⟨rfl, hseek⟩

theorem budgeted_of_ran {layout : Layout} {t : List (Event α)} {a : Arena α}
    (r : Ran layout t a) : a.layout = layout ∧ a.Budgeted := by
  induction r with
  | start h =>
    obtain ⟨hc, rfl⟩ := create_eq_ok h
    exact empty_budgeted hc
  | allocate size v r hb ih =>
    obtain ⟨c, -, -, rfl⟩ := allocate_eq_ok hb
    obtain ⟨hl, h⟩ := ih.2.reserve (traced_of_ran r).roomy c
    rw [allocateIn_eq]
    refine ⟨hl.trans ih.1, h.congr rfl rfl rfl fun d => ?_⟩
    rw [pool_modifyPool]
    split
    · exact Pool.blocks_of_size rfl (Pool.size_occupy ..)
    · rfl
  | store f r hi hv hb ih =>
    obtain ⟨-, rfl⟩ := update?_eq_some hb
    exact ⟨ih.1, ih.2.congr rfl rfl rfl (blocks_modify _ _ f)⟩
  | mark r hi hb ih =>
    obtain ⟨x, -, -, rfl⟩ := mark?_eq_some hb
    exact ⟨ih.1, ih.2.congr rfl rfl rfl (blocks_setMark _ _)⟩
  | clear r ih => exact ⟨ih.1, ih.2.congr rfl rfl rfl (blocks_clearMarks _)⟩

/-- **Tight growth.** A class has the blocks that the largest number of its slots in use at one
moment needs, and each slab class its first one; the live count is the number of slots in use, also
counted over the packed bits, where no block has fewer set bits than are taken off; and the chunks
are those the slab blocks need. -/
theorem growth_tight {layout : Layout} {t : List (Event α)} {a : Arena α} (r : Ran layout t a) :
    (∀ c, (a.occupancy c).blocks =
        max (if c = SizeClass.large then 0 else 1) (peak c t ⌈/⌉ layout.slots c)) ∧
      (∀ c, (a.occupancy c).live = (usedSlots c t).card ∧
        (replay layout c t).liveCount = (usedSlots c t).card ∧
        ∀ b ∈ (replay layout c t).blocks, b.padding ≤ b.ones) ∧
      a.chunks = a.slabBlocks ⌈/⌉ layout.blocksPerChunk := by
  refine ⟨fun c => blocks_of_ran r c, fun c => ?_, ?_⟩
  · obtain ⟨hcount, hones⟩ := Pool.liveCount_pack (swept_of_ran r c)
    rw [replay_eq_pack r, hcount]
    exact ⟨liveCount_of_ran r c, liveCount_of_ran r c, hones⟩
  · obtain ⟨hl, h⟩ := budgeted_of_ran r
    have hfirst : 1 ≤ (a.pool 0).blocks := by
      rw [blocks_of_ran r]
      exact Nat.le_max_left ..
    have hslab : 1 ≤ a.slabBlocks := hfirst.trans <|
      Finset.single_le_sum (f := fun c => (a.pool c).blocks) (fun _ _ => Nat.zero_le _)
        (Finset.mem_filter.2 ⟨Finset.mem_univ 0, by decide⟩)
    have hneed : 0 < a.slabBlocks ⌈/⌉ a.layout.blocksPerChunk := by
      rw [← Nat.not_le, ceilDiv_le_iff_le_mul (blocksPerChunk_pos _)]
      omega
    rw [← hl, h.tight, max_eq_right hneed]

/-- Four objects of the largest slab class, with three slots in a block: after a clearing two blocks
are kept although one slot is in use, and the eight slab blocks take four chunks. -/
theorem growth_tight_cleared :
    ∃ (t : List (Event Nat)) (a : Arena Nat), Ran narrow t a ∧
      (∃ c, (a.occupancy c).blocks = 2 ∧ (a.occupancy c).live = 1) ∧ a.chunks = 4 := by
  obtain ⟨c, hc⟩ : ∃ c, (SizeClass.ofSize? 72).getD SizeClass.large = c := ⟨_, rfl⟩
  have hsize : SizeClass.ofSize? 72 = some c := by rw [← hc]; decide
  have r₁ : Ran narrow _ _ := .allocate 72 6 (.start rfl) (allocate_eq hsize 6)
  have r₂ : Ran narrow _ _ := .allocate 72 7 r₁ (allocate_eq hsize 7)
  have r₃ : Ran narrow _ _ := .allocate 72 8 r₂ (allocate_eq hsize 8)
  have r₄ : Ran narrow _ _ := .allocate 72 9 r₃ (allocate_eq hsize 9)
  have r₅ : Ran narrow _ _ := .allocate 72 9 (.clear r₄) (allocate_eq hsize 9)
  obtain ⟨hblocks, hlive, hchunks⟩ := growth_tight r₅
  refine ⟨_, _, r₅, ⟨c, ?_, ?_⟩, ?_⟩
  · rw [hblocks, ← hc]
    decide +kernel
  · rw [(hlive c).1, ← hc]
    decide +kernel
  · rw [hchunks, ← hc]
    decide +kernel

end Arena

end ObjectSpace

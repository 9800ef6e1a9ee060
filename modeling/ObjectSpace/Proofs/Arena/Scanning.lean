import ObjectSpace.Proofs.Arena.Bitmaps
import ObjectSpace.Proofs.Arena.Sweeping
import Mathlib.Data.Prod.Lex
import Mathlib.Order.Bounds.Basic

/-!
# The first free slot

**Theorem (`allocate_least`).** In every run, allocating within the size limit succeeds in the
smallest class that fits and takes the least free slot of that class, by block and then by slot. A
block is added only when no slot of the class is free, and then its slot 0 is taken. The search
through the packed liveness bits, word by word from the cursor's block on, gives this slot, never a
bit past the last slot of a block, and the same as a search from the first block.

The packed form of a pool is a function of its cells, `Pool.pack`, and every step of the pool is the
step on the packed form: `pack_grow`, `pack_mark`, `pack_clearMarks`, `reserve_pack`. A search on
the packed form is followed block by block (`scan_found`, `scan_full`); as no cell before the
cursor is dead, it does not matter from which block up to the cursor's it begins.
-/

namespace ObjectSpace

variable {α : Type}

theorem SizeClass.ofSize?_eq_some {size : Nat} {c : SizeClass}
    (h : SizeClass.ofSize? size = some c) :
    size ≤ c.bytes ∧ ∀ d : SizeClass, size ≤ d.bytes → c ≤ d := by
  obtain ⟨hc, before, after, hl, hbefore⟩ := List.find?_eq_some_iff_append.1 h
  refine ⟨of_decide_eq_true hc, fun d hd => ?_⟩
  have hmem := List.mem_finRange d
  have hsorted := List.pairwise_lt_finRange 8
  rw [hl] at hmem hsorted
  rcases List.mem_append.1 hmem with hm | hm
  · simpa [hd] using hbefore d hm
  · rcases List.mem_cons.1 hm with rfl | hm
    · exact Fin.le_refl _
    · exact Fin.le_of_lt ((List.pairwise_cons.1 (List.pairwise_append.1 hsorted).2.1).1 d hm)

theorem SizeClass.exists_ofSize? {size : Nat} (h : size ≤ large.bytes) :
    ∃ c, ofSize? size = some c :=
  Option.isSome_iff_exists.1 (List.find?_isSome.2 ⟨_, List.mem_finRange _, decide_eq_true h⟩)

namespace Pool

/-- The liveness bits of block `b`, packed. -/
def blockBits (p : Pool α) (b : Nat) : Bitmap :=
  .ofBits p.slots fun i => p.liveAt (b * p.slots + i)

/-- The liveness bits of a pool, packed. -/
def pack (p : Pool α) : PackedPool where
  slots := p.slots
  blocks := Array.ofFn fun b : Fin p.blocks => p.blockBits b
  cursor := p.cursor / p.slots

variable {p : Pool α}

theorem getElem?_pack (p : Pool α) (b : Nat) :
    p.pack.blocks[b]? = if b < p.blocks then some (p.blockBits b) else none := by
  simp [pack, Array.getElem?_ofFn]

@[simp] theorem size_pack (p : Pool α) : p.pack.blocks.size = p.blocks := by simp [pack]

theorem getElem_pack {b : Nat} (hb : b < p.pack.blocks.size) :
    p.pack.blocks[b] = p.blockBits b := by
  simp [pack]

theorem eq_pack {q : PackedPool} (hs : q.slots = p.slots) (hc : q.cursor = p.cursor / p.slots)
    (hb : ∀ b, q.blocks[b]? = if b < p.blocks then some (p.blockBits b) else none) :
    q = p.pack := by
  have hblocks : q.blocks = p.pack.blocks :=
    Array.ext_getElem? fun b => (hb b).trans (getElem?_pack p b).symm
  cases q
  simp_all [pack]

/-- Position `i` is slot `i % slots` of block `i / slots` and of no other. -/
theorem block_mul_add_eq_iff {n b j i : Nat} (hj : j < n) :
    b * n + j = i ↔ b = i / n ∧ j = i % n := by
  constructor
  · rintro rfl
    have hn : 0 < n := Nat.lt_of_le_of_lt (Nat.zero_le j) hj
    rw [Nat.mul_comm, Nat.mul_add_div hn, Nat.mul_add_mod, Nat.div_eq_of_lt hj,
      Nat.mod_eq_of_lt hj]
    exact ⟨rfl, rfl⟩
  · rintro ⟨rfl, rfl⟩
    exact Nat.div_add_mod' i n

/-- Making the cell at `i` live sets its bit in its block and leaves the other blocks alone. -/
theorem blockBits_update {q : Pool α} (w : p.Swept) {i : Nat} (hs : q.slots = p.slots)
    (hq : q.liveAt = Function.update p.liveAt i true) (b : Nat) :
    q.blockBits b = if b = i / p.slots then (p.blockBits b).set (i % p.slots) else
      p.blockBits b := by
  unfold blockBits
  rw [hs, Bitmap.set_ofBits (Nat.mod_lt i w.slots_pos)]
  split
  · rename_i hb
    refine Bitmap.ofBits_congr fun j hj => ?_
    simp only [hq, Function.update_apply, block_mul_add_eq_iff hj, hb, true_and]
  · rename_i hb
    refine Bitmap.ofBits_congr fun j hj => ?_
    simp only [hq, Function.update_apply, block_mul_add_eq_iff hj, hb, false_and, if_false]

/-! ## Steps of a pool and of its packed form -/

theorem blocks_of_size {q : Pool α} (hs : q.slots = p.slots) (hq : q.cells.size = p.cells.size) :
    q.blocks = p.blocks := by
  rw [blocks, hs, hq, blocks]

theorem blocks_grow (hs : 0 < p.slots) : p.grow.blocks = p.blocks + 1 := by
  rw [blocks, size_grow, blocks]
  exact Nat.add_div_right _ hs

theorem block_lt_iff (w : p.Swept) {i : Nat} : i / p.slots < p.blocks ↔ i < p.cells.size := by
  rw [Nat.div_lt_iff_lt_mul w.slots_pos, w.size_eq]

theorem liveAt_beyond {b j : Nat} (w : p.Swept) (hb : p.blocks ≤ b) :
    p.liveAt (b * p.slots + j) = false := by
  rw [← Bool.not_eq_true]
  intro hlive
  have hlt := lt_size_of_liveAt hlive
  rw [w.size_eq] at hlt
  have := Nat.mul_le_mul_right p.slots hb
  omega

theorem pack_grow (w : p.Swept) : p.grow.pack = p.pack.grow := by
  refine (eq_pack (p := p.grow) rfl rfl fun b => ?_).symm
  have hfresh : p.grow.blockBits p.blocks = .cleared p.slots := by
    rw [Bitmap.cleared_eq w.slots_pos, blockBits, liveAt_grow]
    exact Bitmap.ofBits_congr fun j _ => liveAt_beyond w (Nat.le_refl _)
  have hkept : p.grow.blockBits b = p.blockBits b := by
    rw [blockBits, liveAt_grow]
    rfl
  rw [PackedPool.grow, Array.getElem?_push, size_pack, getElem?_pack, blocks_grow w.slots_pos]
  by_cases hb : b = p.blocks
  · rw [if_pos hb, if_pos (by omega), hb, hfresh]
    rfl
  · rw [if_neg hb, hkept]
    exact ite_congr (propext (by omega)) (fun _ => rfl) fun _ => rfl

theorem pack_clearMarks (w : p.Swept) : p.clearMarks.pack = p.pack.clear := by
  refine (eq_pack (p := p.clearMarks) rfl (Nat.zero_div _).symm fun b => ?_).symm
  rw [PackedPool.clear, Array.getElem?_map, getElem?_pack,
    blocks_of_size (p := p) (q := p.clearMarks) rfl p.size_clearMarks, blockBits, blockBits,
    liveAt_clearMarks]
  split
  · rw [Option.map_some]
    exact congrArg some (Bitmap.cleared_eq w.slots_pos)
  · rfl

theorem pack_of_update {q : Pool α} (w : p.Swept) {i : Nat} (hs : q.slots = p.slots)
    (hsize : q.cells.size = p.cells.size) (hq : q.liveAt = Function.update p.liveAt i true) :
    q.pack =
      { p.pack.mark (i / p.slots) (i % p.slots) with cursor := q.cursor / p.slots } := by
  refine (eq_pack (p := q) hs.symm (by rw [hs]) fun b => ?_).symm
  rw [blockBits_update w hs hq, blocks_of_size hs hsize]
  simp only [PackedPool.mark, Array.getElem?_modify, getElem?_pack]
  by_cases hb : b = i / p.slots
  · subst hb
    rw [if_pos rfl, if_pos rfl]
    split <;> rfl
  · rw [if_neg hb, if_neg (Ne.symm hb)]

theorem pack_mark (w : p.Swept) {i : Nat} (hi : i < p.cells.size) :
    (p.mark i).pack = p.pack.mark (i / p.slots) (i % p.slots) :=
  pack_of_update w rfl (p.size_mark i) (liveAt_mark hi)

/-- Taking a cell sets the bit of its slot and moves the cursor to its block. -/
theorem pack_occupy (w : p.Swept) {i : Nat} (v : α) (hi : i < p.cells.size) :
    (p.occupy i v).pack =
      { p.pack.mark (i / p.slots) (i % p.slots) with cursor := i / p.slots } :=
  pack_of_update w rfl (p.size_occupy i v) (liveAt_occupy v hi)

theorem pack_update (p : Pool α) (i : Nat) (f : α → α) : (p.update i f).pack = p.pack := by
  refine eq_pack rfl rfl fun b => ?_
  rw [getElem?_pack, blocks_of_size (p := p) (q := p.update i f) rfl (p.size_update i f),
    blockBits, liveAt_update]
  rfl

/-! ## Searching -/

/-- A search up to the block of the first dead cell finds the slot of that cell. -/
theorem scan_found (w : p.Swept) {i : Nat} (hi : i < p.cells.size)
    (hdead : p.liveAt i = false) (hlive : ∀ j < i, p.liveAt j = true) {b : Nat}
    (hb : b ≤ i / p.slots) :
    { p.pack with cursor := b }.scan =
      (some (i / p.slots, i % p.slots),
        { p.pack.mark (i / p.slots) (i % p.slots) with cursor := i / p.slots }) := by
  have hblock := (block_lt_iff w).2 hi
  obtain ⟨n, hn⟩ := Nat.exists_eq_add_of_le hb
  induction n generalizing b with
  | zero =>
    obtain rfl : b = i / p.slots := hn.symm
    have hmod : i % p.slots < p.slots := Nat.mod_lt i w.slots_pos
    have hsplit := Nat.div_add_mod' i p.slots
    have htake : (p.blockBits (i / p.slots)).takeFree? =
        some (i % p.slots, (p.blockBits (i / p.slots)).set (i % p.slots)) := by
      rw [blockBits, Bitmap.set_ofBits hmod]
      exact Bitmap.takeFree?_ofBits hmod (by rw [hsplit, hdead]) fun j hj => hlive _ (by omega)
    have hset : p.pack.blocks.setIfInBounds (i / p.slots)
          ((p.blockBits (i / p.slots)).set (i % p.slots)) =
        (p.pack.mark (i / p.slots) (i % p.slots)).blocks := by
      refine Array.ext_getElem? fun b => ?_
      rw [Array.getElem?_setIfInBounds, PackedPool.mark, Array.getElem?_modify, size_pack,
        if_pos hblock, getElem?_pack]
      split
      · rename_i hb
        rw [← hb, if_pos hblock]
        rfl
      · rfl
    rw [PackedPool.scan, dif_pos (by simpa using hblock)]
    simp only [getElem_pack, htake, hset]
    rfl
  | succ n ih =>
    have hfull : (p.blockBits b).takeFree? = none := by
      refine Bitmap.takeFree?_full fun j hj => hlive _ ?_
      have := Nat.mul_le_mul_right p.slots (show b + 1 ≤ i / p.slots by omega)
      have := Nat.div_mul_le_self i p.slots
      rw [Nat.add_one_mul] at *
      omega
    rw [PackedPool.scan, dif_pos (by simp only [size_pack]; omega)]
    simp only [getElem_pack, hfull]
    exact ih (by omega) (by omega)

/-- A search through blocks without a dead cell finds nothing and ends behind the last block. -/
theorem scan_full (hlive : ∀ i < p.cells.size, p.liveAt i = true) (w : p.Swept) {b : Nat}
    (hb : b ≤ p.blocks) :
    { p.pack with cursor := b }.scan = (none, { p.pack with cursor := p.blocks }) := by
  obtain ⟨n, hn⟩ := Nat.exists_eq_add_of_le hb
  induction n generalizing b with
  | zero =>
    obtain rfl : b = p.blocks := hn.symm
    rw [PackedPool.scan, dif_neg (by simp)]
  | succ n ih =>
    have hfull : (p.blockBits b).takeFree? = none := by
      refine Bitmap.takeFree?_full fun j hj => hlive _ ?_
      have := Nat.mul_le_mul_right p.slots (show b + 1 ≤ p.blocks by omega)
      rw [Nat.add_one_mul, ← w.size_eq] at this
      omega
    rw [PackedPool.scan, dif_pos (by simp only [size_pack]; omega)]
    simp only [getElem_pack, hfull]
    exact ih (by omega) (by omega)

theorem Swept.cursor_le_of_dead (w : p.Swept) {i : Nat} (hdead : p.liveAt i = false) :
    p.cursor ≤ i := by
  by_contra hlt
  rw [w.before i (Nat.lt_of_not_le hlt)] at hdead
  cases hdead

/-- The search on the packed form takes the slot of the cell that a ready pool gives. -/
theorem reserve_pack (w : p.Swept) (v : α) :
    p.pack.reserve =
      (some (p.ready.cursor / p.slots, p.ready.cursor % p.slots),
        (p.ready.occupy p.ready.cursor v).pack) := by
  obtain ⟨hlive, hcases⟩ := ready_cases w
  obtain ⟨i, hi⟩ : ∃ i, p.ready.cursor = i := ⟨_, rfl⟩
  rw [hi] at hlive hcases ⊢
  rcases hcases with ⟨hlt, hdead, hready⟩ | ⟨rfl, hready⟩
  · have hscan : p.pack.scan = _ :=
      scan_found w hlt hdead hlive (Nat.div_le_div_right (w.cursor_le_of_dead hdead))
    rw [PackedPool.reserve, hscan, ← pack_occupy w v hlt, hready]
    rfl
  · have hscan : p.pack.scan = _ :=
      scan_full hlive w (Nat.div_le_div_right (c := p.slots) w.cursor_le)
    have hgrow : { p.pack with cursor := p.blocks }.grow =
        { p.grow.pack with cursor := p.blocks } := by
      rw [pack_grow w]
      rfl
    have hlt : p.cells.size < p.grow.cells.size := by simp [w.slots_pos]
    have hdead : p.grow.liveAt p.cells.size = false := by
      rw [liveAt_grow, liveAt, Array.getElem?_eq_none (Nat.le_refl _), Option.any_none]
    have hfound := scan_found w.grow hlt hdead (by rwa [liveAt_grow]) (b := p.blocks)
      (Nat.le_refl (p.cells.size / p.slots))
    rw [PackedPool.reserve, hscan]
    change PackedPool.scan (PackedPool.grow _) = _
    rw [hgrow, hready, hfound, ← pack_occupy w.grow v hlt]
    rfl

/-- A search from the cursor on is a search from the first block on. -/
theorem scan_pack (w : p.Swept) : p.pack.rewind.scan = p.pack.scan := by
  obtain ⟨hlive, ⟨hlt, hdead, -⟩ | ⟨hend, -⟩⟩ := ready_cases w
  · exact (scan_found w hlt hdead hlive (Nat.zero_le _)).trans
      (scan_found w hlt hdead hlive (Nat.div_le_div_right (w.cursor_le_of_dead hdead))).symm
  · rw [hend] at hlive
    exact (scan_full hlive w (Nat.zero_le _)).trans
      (scan_full hlive w (Nat.div_le_div_right (c := p.slots) w.cursor_le)).symm

end Pool

namespace Arena

/-! ## Runs on the packed form -/

/-- The packed liveness bits of class `c` after the events of a run, by steps on the packed form
alone: a handle issued takes the slot that a search gives. -/
def replay (layout : Layout) (c : SizeClass) : List (Event α) → PackedPool
  | [] =>
    let none : PackedPool := { slots := layout.slots c, blocks := #[], cursor := 0 }
    if c = SizeClass.large then none else none.grow
  | .issued h _ :: t => if h.sizeClass = c then (replay layout c t).reserve.2 else replay layout c t
  | .stored _ _ :: t => replay layout c t
  | .marked h :: t =>
    if h.sizeClass = c then (replay layout c t).mark h.block h.slot else replay layout c t
  | .cleared :: t => (replay layout c t).clear

theorem replay_start {layout : Layout} (h : layout.check = .ok ()) (c : SizeClass) :
    replay layout c ([] : List (Event α)) = ((empty layout : Arena α).pool c).pack := by
  have w : ({ slots := layout.slots c } : Pool α).Swept :=
    ⟨slots_pos_of_check h c, ⟨0, rfl⟩, fun i hi => absurd hi (Nat.not_lt_zero _)⟩
  have hnone : ({ slots := layout.slots c } : Pool α).pack =
      { slots := layout.slots c, blocks := #[], cursor := 0 } :=
    (Pool.eq_pack rfl (Nat.zero_div _).symm fun b => by simp [Pool.blocks]).symm
  rw [pool_empty]
  unfold replay
  split
  · exact hnone.symm
  · rw [Pool.pack_grow w, hnone]

theorem allocateIn_fst (a : Arena α) (c : SizeClass) (v : α) :
    (a.allocateIn c v).1.sizeClass = c ∧
      (a.allocateIn c v).1.block = (a.pool c).ready.cursor / (a.pool c).slots ∧
      (a.allocateIn c v).1.slot = (a.pool c).ready.cursor % (a.pool c).slots := by
  have hpool : (a.reserve c).pool c = (a.pool c).ready := by rw [pool_reserve, if_pos rfl]
  rw [allocateIn_eq, handleAt, hpool, Pool.slots_ready]
  exact ⟨rfl, rfl, rfl⟩

/-- The packed form of a pool is what the steps on the packed form lead to. -/
theorem replay_eq_pack {layout : Layout} {t : List (Event α)} {a : Arena α} (r : Ran layout t a)
    (c : SizeClass) : replay layout c t = (a.pool c).pack := by
  induction r with
  | start h =>
    obtain ⟨hc, rfl⟩ := create_eq_ok h
    exact replay_start hc c
  | @allocate t a b h size v r hb ih =>
    obtain ⟨d, -, rfl, rfl⟩ := allocate_eq_ok hb
    rw [replay, pool_allocateIn, (allocateIn_fst a d v).1, ih]
    split
    · rw [Pool.reserve_pack (swept_of_ran r c) v]
    · rfl
  | store f _ _ _ hb ih =>
    obtain ⟨-, rfl⟩ := update?_eq_some hb
    rw [replay, ih, modify, pool_modifyPool]
    split
    · rw [Pool.pack_update]
    · rfl
  | @mark t a b h wasLive r _ hb ih =>
    obtain ⟨x, hx, -, rfl⟩ := mark?_eq_some hb
    rw [replay, ih, setMark, pool_modifyPool]
    split
    · rename_i hc
      subst hc
      obtain ⟨hblock, hslot⟩ :=
        (Pool.block_mul_add_eq_iff (slot_lt_of_cell? hx)).1 (rfl : _ = a.position h)
      rw [Pool.pack_mark (swept_of_ran r _) (position_lt_of_cell? hx), ← hblock, ← hslot]
    · rfl
  | @clear t a r ih =>
    rw [replay, ih, pool_clearMarks, Pool.pack_clearMarks (swept_of_ran r c)]

theorem slot_allocateIn_lt {layout : Layout} {t : List (Event α)} {a : Arena α}
    (r : Ran layout t a) (c : SizeClass) (v : α) : (a.allocateIn c v).1.slot < layout.slots c := by
  rw [(allocateIn_fst a c v).2.2, ← slots_of_ran r]
  exact Nat.mod_lt _ (swept_of_ran r c).slots_pos

theorem reserve_replay {layout : Layout} {t : List (Event α)} {a : Arena α} (r : Ran layout t a)
    (c : SizeClass) (v : α) :
    (replay layout c t).reserve =
      (some ((a.allocateIn c v).1.block, (a.allocateIn c v).1.slot),
        replay layout c (.issued (a.allocateIn c v).1 v :: t)) := by
  obtain ⟨hclass, hblock, hslot⟩ := allocateIn_fst a c v
  rw [replay, if_pos hclass, hblock, hslot, replay_eq_pack r,
    Pool.reserve_pack (swept_of_ran r c) v]

/-! ## Free slots -/

/-- The liveness bit of a slot of class `c`; none where there is no such slot. -/
def bit? (a : Arena α) (c : SizeClass) (block slot : Nat) : Option Bool :=
  if slot < (a.pool c).slots then
    (a.cellAt? c (block * (a.pool c).slots + slot)).map (·.live)
  else none

/-- The slots of class `c` whose bit is clear, ordered by block and then by slot. -/
def freeSlots (a : Arena α) (c : SizeClass) : Set (ℕ ×ₗ ℕ) :=
  {q | a.bit? c (ofLex q).1 (ofLex q).2 = some false}

theorem mem_freeSlots {a : Arena α} {c : SizeClass} {q : ℕ ×ₗ ℕ} :
    q ∈ a.freeSlots c ↔ (ofLex q).2 < (a.pool c).slots ∧
      (ofLex q).1 * (a.pool c).slots + (ofLex q).2 < (a.pool c).cells.size ∧
      (a.pool c).liveAt ((ofLex q).1 * (a.pool c).slots + (ofLex q).2) = false := by
  change a.bit? c (ofLex q).1 (ofLex q).2 = some false ↔ _
  rw [bit?, Option.ite_none_right_eq_some, Option.map_eq_some_iff]
  refine and_congr_right fun _ => ⟨fun ⟨x, hx, hl⟩ => ?_, fun ⟨hlt, hl⟩ => ?_⟩
  · exact ⟨(Array.getElem?_eq_some_iff.1 hx).1, by rw [Pool.liveAt, ← cellAt?, hx]; exact hl⟩
  · refine ⟨_, Array.getElem?_eq_getElem hlt, ?_⟩
    rwa [Pool.liveAt, Array.getElem?_eq_getElem hlt, Option.any_some] at hl

/-- A free slot stands at a position behind all live cells before the first dead one. -/
theorem le_of_mem_freeSlots {a : Arena α} {c : SizeClass} {q : ℕ ×ₗ ℕ} {i : Nat}
    (hlive : ∀ j < i, (a.pool c).liveAt j = true) (hq : q ∈ a.freeSlots c) :
    toLex (i / (a.pool c).slots, i % (a.pool c).slots) ≤ q := by
  obtain ⟨hslot, -, hdead⟩ := mem_freeSlots.1 hq
  obtain ⟨hblock, hmod⟩ := (Pool.block_mul_add_eq_iff hslot).1 rfl
  have hle : i ≤ (ofLex q).1 * (a.pool c).slots + (ofLex q).2 := by
    by_contra hlt
    rw [hlive _ (Nat.lt_of_not_le hlt)] at hdead
    cases hdead
  rw [Prod.Lex.le_iff]
  have hdiv := Nat.div_le_div_right (c := (a.pool c).slots) hle
  rw [← hblock] at hdiv
  rcases Nat.lt_or_eq_of_le hdiv with hlt | heq
  · exact .inl hlt
  · refine .inr ⟨heq, ?_⟩
    have hsplit := Nat.div_add_mod' i (a.pool c).slots
    rw [heq] at hsplit
    change i % (a.pool c).slots ≤ (ofLex q).2
    omega

/-- **The first free slot.** Allocating within the limit takes the least free slot of the smallest
class that fits, or slot 0 of a new block when the class has none; the search through the packed
bits gives that slot, and it does not matter whether it begins at the cursor or at block 0. -/
theorem allocate_least {layout : Layout} {t : List (Event α)} {a : Arena α} (r : Ran layout t a)
    {size : Nat} (hsize : size ≤ SizeClass.large.bytes) (v : α) :
    ∃ h b, a.allocate size v = .ok (h, b) ∧
      (size ≤ h.sizeClass.bytes ∧ ∀ d : SizeClass, size ≤ d.bytes → h.sizeClass ≤ d) ∧
      h.slot < layout.slots h.sizeClass ∧
      (IsLeast (a.freeSlots h.sizeClass) (toLex (h.block, h.slot)) ∧
          (b.pool h.sizeClass).blocks = (a.pool h.sizeClass).blocks ∨
        a.freeSlots h.sizeClass = ∅ ∧ h.block = (a.pool h.sizeClass).blocks ∧ h.slot = 0 ∧
          (b.pool h.sizeClass).blocks = (a.pool h.sizeClass).blocks + 1) ∧
      (replay layout h.sizeClass t).reserve =
        (some (h.block, h.slot), replay layout h.sizeClass (.issued h v :: t)) ∧
      (replay layout h.sizeClass t).rewind.scan = (replay layout h.sizeClass t).scan := by
  obtain ⟨c, hc⟩ := SizeClass.exists_ofSize? hsize
  obtain ⟨hclass, hblock, hslot⟩ := allocateIn_fst a c v
  have w := swept_of_ran r c
  refine ⟨_, _, allocate_eq hc v, ?_⟩
  rw [hclass]
  refine ⟨SizeClass.ofSize?_eq_some hc, slot_allocateIn_lt r c v, ?_, reserve_replay r c v, ?_⟩
  · rw [hblock, hslot, pool_allocateIn, if_pos rfl]
    obtain ⟨hlive, hcases⟩ := Pool.ready_cases w
    obtain ⟨i, hi⟩ : ∃ i, (a.pool c).ready.cursor = i := ⟨_, rfl⟩
    rw [hi] at hlive hcases ⊢
    rcases hcases with ⟨hlt, hdead, hready⟩ | ⟨rfl, hready⟩
    · have hblocks : ((a.pool c).ready.occupy i v).blocks = (a.pool c).blocks := by
        rw [hready]
        exact Pool.blocks_of_size rfl ((a.pool c).size_occupy i v)
      refine .inl ⟨⟨mem_freeSlots.2 ?_, fun q hq => le_of_mem_freeSlots hlive hq⟩, hblocks⟩
      exact ⟨Nat.mod_lt i w.slots_pos, by simpa [Nat.div_add_mod'] using ⟨hlt, hdead⟩⟩
    · have hblocks : ((a.pool c).ready.occupy (a.pool c).cells.size v).blocks =
          (a.pool c).blocks + 1 := by
        rw [hready, ← Pool.blocks_grow w.slots_pos]
        exact Pool.blocks_of_size rfl ((a.pool c).grow.size_occupy _ v)
      refine .inr ⟨Set.eq_empty_of_forall_notMem fun q hq => ?_, rfl, ?_, hblocks⟩
      · obtain ⟨-, hlt, hdead⟩ := mem_freeSlots.1 hq
        rw [hlive _ hlt] at hdead
        cases hdead
      · exact Nat.mod_eq_zero_of_dvd w.whole
  · rw [replay_eq_pack r, Pool.scan_pack w]

theorem sizeClass_of_allocate {a b : Arena α} {size : Nat} {c : SizeClass} {v : α} {h : Handle}
    (hc : SizeClass.ofSize? size = some c) (hb : a.allocate size v = .ok (h, b)) :
    h.sizeClass = c := by
  rw [allocate_eq hc] at hb
  rw [← (Prod.mk.inj (Except.ok.inj hb)).1]
  rfl

theorem ran_full :
    ∃ (c : SizeClass) (t : List (Event Nat)) (a : Arena Nat), SizeClass.ofSize? 72 = some c ∧
      Ran narrow t a ∧ (replay narrow c t).scan.1 = none ∧
      (replay narrow c t).reserve.1 = some (1, 0) := by
  obtain ⟨c, hc⟩ : ∃ c, (SizeClass.ofSize? 72).getD SizeClass.large = c := ⟨_, rfl⟩
  have hsize : SizeClass.ofSize? 72 = some c := by rw [← hc]; decide
  have r₁ : Ran narrow _ _ := .allocate 72 6 (.start rfl) (allocate_eq hsize 6)
  have r₂ : Ran narrow _ _ := .allocate 72 7 r₁ (allocate_eq hsize 7)
  have r₃ : Ran narrow _ _ := .allocate 72 8 r₂ (allocate_eq hsize 8)
  refine ⟨c, _, _, hsize, r₃, ?_, ?_⟩
  all_goals
    rw [← hc]
    decide +kernel

/-- A block of three slots that are all live: the other bits of its word are never given, and the
next object goes to slot 0 of a new block. -/
theorem allocate_least_full :
    ∃ (t : List (Event Nat)) (a : Arena Nat) (h : Handle) (b : Arena Nat), Ran narrow t a ∧
      72 ≤ SizeClass.large.bytes ∧ a.allocate 72 9 = .ok (h, b) ∧ h.block = 1 ∧ h.slot = 0 := by
  obtain ⟨c, t, a, hsize, r, -, hplace⟩ := ran_full
  obtain ⟨h, b, hb, -, -, -, hreserve, -⟩ := allocate_least r (by decide : 72 ≤ _) 9
  have hgiven := congrArg Prod.fst hreserve
  rw [sizeClass_of_allocate hsize hb, hplace] at hgiven
  obtain ⟨hblock, hslot⟩ := Prod.mk.inj (Option.some.inj hgiven)
  exact ⟨t, a, h, b, r, by decide, hb, hblock.symm, hslot.symm⟩

end Arena

end ObjectSpace

import ObjectSpace.Proofs.Arena.Cells

/-!
# Placing objects

Placing takes a dead cell, or the first cell of a new block when no dead one is left, and gives it
the next generation. Nothing else changes but for the fresh cells of that block (`Placed`), so a
live object keeps its cell and every other handle names what it named before.

An arena whose blocks have a slot each, which is what a checked layout guarantees, always finds
such a cell (`allocateIn_placed`).
-/

namespace ObjectSpace

variable {α : Type}

namespace Pool

/-- The pool with its cursor at a dead cell, which may be the first one of a new block. -/
def ready (p : Pool α) : Pool α := if p.seek.isFull then p.seek.grow else p.seek

theorem firstDead_le (cells : Array (Cell α)) (i : Nat) : firstDead cells i ≤ cells.size := by
  fun_induction firstDead cells i with
  | case1 i h hl ih => exact ih
  | case2 i h hl => exact Nat.le_of_lt h
  | case3 i h => exact Nat.le_refl _

/-- The search stops at a dead cell unless it reaches the end. -/
theorem live_firstDead {cells : Array (Cell α)} {i : Nat} {x : Cell α}
    (hx : cells[firstDead cells i]? = some x) : x.live = false := by
  fun_induction firstDead cells i with
  | case1 i h hl ih => exact ih hx
  | case2 i h hl =>
    rw [Array.getElem?_eq_getElem h, Option.some.injEq] at hx
    simpa [hx] using hl
  | case3 i h => simp at hx

@[simp] theorem slots_occupy (p : Pool α) (i : Nat) (v : α) : (p.occupy i v).slots = p.slots :=
  rfl

@[simp] theorem slots_ready (p : Pool α) : p.ready.slots = p.slots := by
  unfold ready
  split <;> rfl

/-- Making a pool ready keeps its cells and adds none but fresh ones. -/
theorem getElem?_ready (p : Pool α) (i : Nat) :
    p.ready.cells[i]? = p.cells[i]? ∨ p.cells[i]? = none ∧ p.ready.cells[i]? = some {} := by
  unfold ready
  split
  · simp only [grow, seek]
    by_cases hi : i < p.cells.size
    · exact .inl (Array.getElem?_append_left hi)
    · rw [Array.getElem?_append_right (Nat.le_of_not_lt hi), Array.getElem?_replicate,
        Array.getElem?_eq_none (Nat.le_of_not_lt hi)]
      split
      · exact .inr ⟨rfl, rfl⟩
      · exact .inl rfl
  · exact .inl rfl

/-- The cursor of a ready pool is at a dead cell: one the pool had, or a fresh one. -/
theorem cursor_ready {p : Pool α} (hs : 0 < p.slots) :
    ∃ x, p.ready.cells[p.ready.cursor]? = some x ∧ x.live = false ∧
      (p.cells[p.ready.cursor]? = some x ∨ p.cells[p.ready.cursor]? = none ∧ x = {}) := by
  have hle := firstDead_le p.cells p.cursor
  unfold ready
  split
  · rename_i hfull
    have hend : firstDead p.cells p.cursor = p.cells.size :=
      Nat.le_antisymm hle (of_decide_eq_true hfull)
    refine ⟨{}, ?_, rfl, .inr ⟨?_, rfl⟩⟩
    · simp only [grow, seek, hend]
      rw [Array.getElem?_append_right (Nat.le_refl _), Array.getElem?_replicate, Nat.sub_self,
        if_pos hs]
    · simp [grow, seek, hend]
  · rename_i hfull
    have hlt : firstDead p.cells p.cursor < p.cells.size :=
      Nat.lt_of_not_le fun hge => hfull (decide_eq_true hge)
    exact ⟨_, Array.getElem?_eq_getElem hlt, live_firstDead (Array.getElem?_eq_getElem hlt),
      .inl (Array.getElem?_eq_getElem hlt)⟩

end Pool

/-! ## Layouts -/

/-- The slab classes are for 16 to 72 bytes. -/
theorem SizeClass.bytes_slab (c : SizeClass) (hc : c ≠ large) : 16 ≤ c.bytes ∧ c.bytes ≤ 72 := by
  revert c
  decide

namespace Layout

/-- Of larger objects no more fit in a block. -/
theorem slotsOfSize_anti (l : Layout) {m n : Nat} (h : m ≤ n) :
    l.slotsOfSize n ≤ l.slotsOfSize m :=
  Nat.div_le_div_left (Nat.succ_le_succ (Nat.mul_le_mul_right 8 h)) (Nat.succ_pos _)

/-- The rules that an accepted layout keeps. -/
theorem check_eq_ok {l : Layout} :
    l.check = .ok () ↔ (l.blockSize ≠ 0 ∧ Nat.pow 2 l.blockSize.log2 = l.blockSize) ∧
      l.blockSize ≤ l.chunkSize ∧ 0 < l.slotsOfSize 72 ∧ l.slotsOfSize 16 ≤ maxSlots := by
  simp only [check, bind, Except.bind, pure, Except.pure, throw, throwThe, MonadExceptOf.throw]
  split_ifs with hpower hchunk hnone hmany
  · exact iff_of_false nofun fun h => Nat.not_le_of_lt hchunk h.2.1
  · exact iff_of_false nofun fun h => Nat.ne_of_gt h.2.2.1 hnone
  · exact iff_of_false nofun fun h => Nat.not_le_of_lt hmany h.2.2.2
  · exact iff_of_true rfl
      ⟨hpower, Nat.le_of_not_lt hchunk, Nat.pos_of_ne_zero hnone, Nat.le_of_not_lt hmany⟩
  · exact iff_of_false nofun fun h => hpower h.1

end Layout

namespace Arena

/-- Every block has a slot, which is what a checked layout guarantees. -/
def Roomy (a : Arena α) : Prop := ∀ c, 0 < (a.pool c).slots

theorem pool_reserve (a : Arena α) (c d : SizeClass) :
    (a.reserve c).pool d = if c = d then (a.pool d).ready else a.pool d := by
  unfold reserve Pool.ready
  simp only [pool_modifyPool, if_true]
  by_cases hcd : c = d
  · subst hcd
    by_cases hfull : (a.pool c).seek.isFull = true
    · simp [hfull, pool_grow]
    · simp [hfull]
  · by_cases hfull : (a.pool c).seek.isFull = true
    · simp [hfull, hcd, pool_grow]
    · simp [hfull, hcd]

/-- What placing `v` in class `c` does: `h` is the new handle, `old` what its slot held before. The
slot was dead, or it is the first one of a new block; every other cell stays, and the cells that a
new block adds are fresh. -/
structure Placed (a : Arena α) (c : SizeClass) (v : α) (h : Handle) (old : Option α)
    (b : Arena α) : Prop where
  sizeClass_eq : h.sizeClass = c
  slots_eq : ∀ d, (b.pool d).slots = (a.pool d).slots
  slot_lt : h.slot < (a.pool c).slots
  here : b.cellAt? c (a.position h) = some ⟨true, h.generation, some v⟩
  elsewhere : ∀ d i, ¬ (d = c ∧ i = a.position h) →
    b.cellAt? d i = a.cellAt? d i ∨ a.cellAt? d i = none ∧ b.cellAt? d i = some {}
  dead : ((a.cellAt? c (a.position h)).getD {}).live = false
  generation_eq : h.generation = ((a.cellAt? c (a.position h)).getD {}).generation + 1
  dropped : old = ((a.cellAt? c (a.position h)).getD {}).value

@[simp] theorem slots_reserve (a : Arena α) (c d : SizeClass) :
    ((a.reserve c).pool d).slots = (a.pool d).slots := by
  rw [pool_reserve]
  split <;> simp

theorem cellAt?_reserve (a : Arena α) (c d : SizeClass) (i : Nat) :
    (a.reserve c).cellAt? d i = a.cellAt? d i ∨
      a.cellAt? d i = none ∧ (a.reserve c).cellAt? d i = some {} := by
  simp only [cellAt?, pool_reserve]
  split
  · exact Pool.getElem?_ready _ i
  · exact .inl rfl

theorem cellAt?_occupy (a : Arena α) (c : SizeClass) (i : Nat) (v : α) (d : SizeClass)
    (j : Nat) : (a.modifyPool c (·.occupy i v)).cellAt? d j =
      if c = d ∧ i = j then
        (a.cellAt? d j).map fun x => ⟨true, x.generation + 1, some v⟩
      else a.cellAt? d j := by
  by_cases hc : c = d
  · by_cases hi : i = j <;> simp [cellAt?, Pool.occupy, hc, hi, Array.getElem?_modify]
  · simp [cellAt?, hc]

theorem position_handleAt (a : Arena α) (c : SizeClass) (i : Nat) :
    a.position (a.handleAt c i) = i :=
  Nat.div_add_mod' i _

theorem slot_handleAt_lt {a : Arena α} (hr : a.Roomy) (c : SizeClass) (i : Nat) :
    (a.handleAt c i).slot < (a.pool c).slots :=
  Nat.mod_lt i (hr c)

theorem Roomy.modify {a : Arena α} (hr : a.Roomy) (h : Handle) (f : α → α) :
    (a.modify h f).Roomy := fun c => by
  rw [slots_modify]
  exact hr c

theorem Roomy.reserve {a : Arena α} (hr : a.Roomy) (c : SizeClass) : (a.reserve c).Roomy :=
  fun d => by rw [slots_reserve]; exact hr d

theorem allocateIn_eq (a : Arena α) (c : SizeClass) (v : α) :
    a.allocateIn c v =
      ((a.reserve c).handleAt c ((a.reserve c).pool c).cursor,
        (a.reserve c).contentAt c ((a.reserve c).pool c).cursor,
        (a.reserve c).modifyPool c (·.occupy ((a.reserve c).pool c).cursor v)) := rfl

/-- What can be read after placing an object is that object, or it could be read before. -/
theorem get?_allocateIn {a : Arena α} {c : SizeClass} {v w : α} {g : Handle}
    (h : (a.allocateIn c v).2.2.get? g = some w) : w = v ∨ a.get? g = some w := by
  obtain ⟨y, hy, hval⟩ := get?_eq_some.1 h
  obtain ⟨hslot, hat, hgen⟩ := cell?_eq_some.1 hy
  rw [allocateIn_eq] at hslot hat
  have hs (d : SizeClass) : (((a.reserve c).modifyPool c
      (·.occupy ((a.reserve c).pool c).cursor v)).pool d).slots = (a.pool d).slots := by
    rw [pool_modifyPool, ← slots_reserve a c]
    split <;> rfl
  rw [hs] at hslot
  rw [position_congr g hs, cellAt?_occupy] at hat
  split at hat
  · obtain ⟨x, -, rfl⟩ := Option.map_eq_some_iff.1 hat
    exact .inl (Option.some.inj hval).symm
  · rcases cellAt?_reserve a c g.sizeClass (a.position g) with he | ⟨-, he⟩
    · exact .inr (get?_eq_some.2 ⟨y, cell?_eq_some.2 ⟨hslot, he ▸ hat, hgen⟩, hval⟩)
    · rw [he, Option.some.injEq] at hat
      rw [← hat] at hval
      cases hval

theorem allocateIn_placed {a : Arena α} (hr : a.Roomy) (c : SizeClass) (v : α) :
    Placed a c v (a.allocateIn c v).1 (a.allocateIn c v).2.1 (a.allocateIn c v).2.2 := by
  obtain ⟨x, hx, hlive, hold⟩ := Pool.cursor_ready (hr c)
  have hpos : a.position ((a.reserve c).handleAt c ((a.reserve c).pool c).cursor) =
      ((a.reserve c).pool c).cursor := by
    rw [← position_congr _ (slots_reserve a c), position_handleAt]
  have hcursor : ((a.reserve c).pool c).cursor = (a.pool c).ready.cursor := by
    rw [pool_reserve, if_pos rfl]
  have hcell : (a.reserve c).cellAt? c ((a.reserve c).pool c).cursor = some x := by
    rw [hcursor, cellAt?, pool_reserve, if_pos rfl, hx]
  have hbefore : (a.cellAt? c ((a.reserve c).pool c).cursor).getD {} = x := by
    rw [hcursor, cellAt?]
    rcases hold with hold | ⟨hold, rfl⟩ <;> rw [hold] <;> rfl
  have hgen : ((a.reserve c).pool c).nextGeneration ((a.reserve c).pool c).cursor =
      x.generation + 1 := by
    rw [cellAt?] at hcell
    rw [Pool.nextGeneration, hcell]
    rfl
  have hdropped : (a.reserve c).contentAt c ((a.reserve c).pool c).cursor = x.value := by
    rw [cellAt?] at hcell
    rw [contentAt, hcell, Option.bind_some]
  rw [allocateIn_eq]
  refine
    { sizeClass_eq := rfl
      slots_eq := fun d => ?_
      slot_lt := ?_
      here := ?_
      elsewhere := fun d i hne => ?_
      dead := ?_
      generation_eq := ?_
      dropped := ?_ }
  · rw [pool_modifyPool, ← slots_reserve a c d]
    split
    · rw [Pool.slots_occupy]
    · rfl
  · rw [← slots_reserve a c c]
    exact slot_handleAt_lt (hr.reserve c) c _
  · rw [hpos, cellAt?_occupy, if_pos ⟨rfl, rfl⟩, hcell]
    simp [handleAt, hgen]
  · rw [hpos] at hne
    rw [cellAt?_occupy, if_neg fun h => hne ⟨h.1.symm, h.2.symm⟩]
    exact cellAt?_reserve a c d i
  · rw [hpos, hbefore, hlive]
  · rw [hpos, hbefore, ← hgen, handleAt]
  · rw [hpos, hbefore, hdropped]

namespace Placed

variable {a b : Arena α} {c : SizeClass} {v : α} {h g : Handle} {old : Option α}

theorem position_eq (p : Placed a c v h old b) (g : Handle) : b.position g = a.position g :=
  position_congr g p.slots_eq

theorem roomy (p : Placed a c v h old b) (hr : a.Roomy) : b.Roomy := fun d => by
  rw [p.slots_eq]
  exact hr d

/-- The new handle names the cell with the new object. -/
theorem cell?_self (p : Placed a c v h old b) : b.cell? h = some ⟨true, h.generation, some v⟩ := by
  refine cell?_eq_some.2 ⟨?_, ?_, rfl⟩
  · rw [p.slots_eq, p.sizeClass_eq]
    exact p.slot_lt
  · rw [p.position_eq, p.sizeClass_eq]
    exact p.here

theorem get?_self (p : Placed a c v h old b) : b.get? h = some v :=
  get?_eq_some.2 ⟨_, p.cell?_self, rfl⟩

theorem isLive_self (p : Placed a c v h old b) : b.isLive h = true :=
  isLive_iff.2 ⟨_, p.cell?_self, rfl⟩

/-- Any other handle names the cell it named before, unless that cell is fresh. -/
theorem cell?_of_ne (p : Placed a c v h old b) {y : Cell α} (hy : b.cell? g = some y)
    (hg : g ≠ h) : a.cell? g = some y ∨ a.cell? g = none ∧ y = {} := by
  obtain ⟨hslot, hat, hgen⟩ := cell?_eq_some.1 hy
  rw [p.position_eq] at hat
  rw [p.slots_eq] at hslot
  by_cases hp : g.sizeClass = c ∧ a.position g = a.position h
  · refine absurd (eq_of_cell? hy p.cell?_self (hp.1.trans p.sizeClass_eq.symm) ?_) hg
    rw [p.position_eq, p.position_eq, hp.2]
  · rcases p.elsewhere _ _ hp with he | ⟨hnone, he⟩
    · exact .inl (cell?_eq_some.2 ⟨hslot, he ▸ hat, hgen⟩)
    · refine .inr ⟨?_, Option.some.inj (hat.symm.trans he)⟩
      rcases hcell : a.cell? g with _ | x
      · rfl
      · rw [cellAt?_of_cell? hcell] at hnone
        cases hnone

/-- A handle of another position keeps its cell. -/
theorem cell?_of_position_ne (p : Placed a c v h old b) {x : Cell α} (hx : a.cell? g = some x)
    (hp : ¬ (g.sizeClass = c ∧ a.position g = a.position h)) : b.cell? g = some x := by
  obtain ⟨hslot, hat, hgen⟩ := cell?_eq_some.1 hx
  refine cell?_eq_some.2 ⟨?_, ?_, hgen⟩
  · rw [p.slots_eq]
    exact hslot
  · rw [p.position_eq]
    rcases p.elsewhere _ _ hp with he | ⟨hnone, -⟩
    · exact he.trans hat
    · rw [hat] at hnone
      cases hnone

/-- The slot of a live object is not the one that is taken. -/
theorem slot_ne_of_live (p : Placed a c v h old b) (hg : a.isLive g = true) :
    ¬ (g.sizeClass = c ∧ a.position g = a.position h) := by
  rintro ⟨hclass, hposition⟩
  obtain ⟨x, hx, hl⟩ := Arena.isLive_iff.1 hg
  have hat := cellAt?_of_cell? hx
  have hdead := p.dead
  rw [hclass, hposition] at hat
  rw [hat, Option.getD_some, hl] at hdead
  cases hdead

/-- A live cell stays. -/
theorem cell?_of_live (p : Placed a c v h old b) {x : Cell α} (hx : a.cell? g = some x)
    (hl : x.live = true) : b.cell? g = some x :=
  p.cell?_of_position_ne hx (p.slot_ne_of_live (Arena.isLive_iff.2 ⟨x, hx, hl⟩))

theorem isLive_iff (p : Placed a c v h old b) : b.isLive g = true ↔ g = h ∨ a.isLive g = true := by
  constructor
  · intro hg
    obtain ⟨y, hy, hl⟩ := Arena.isLive_iff.1 hg
    by_cases hgh : g = h
    · exact .inl hgh
    · rcases p.cell?_of_ne hy hgh with hx | ⟨-, rfl⟩
      · exact .inr (Arena.isLive_iff.2 ⟨y, hx, hl⟩)
      · cases hl
  · rintro (rfl | hg)
    · exact p.isLive_self
    · obtain ⟨x, hx, hl⟩ := Arena.isLive_iff.1 hg
      exact Arena.isLive_iff.2 ⟨x, p.cell?_of_live hx hl, hl⟩

/-- A live cell after placing has the new object, or it is as before. -/
theorem cellAt?_live (p : Placed a c v h old b) {d : SizeClass} {i : Nat} {x : Cell α}
    (hx : b.cellAt? d i = some x) (hl : x.live = true) :
    x.value = some v ∨ a.cellAt? d i = some x := by
  by_cases hp : d = c ∧ i = a.position h
  · obtain ⟨rfl, rfl⟩ := hp
    rw [p.here, Option.some.injEq] at hx
    exact .inl (hx ▸ rfl)
  · rcases p.elsewhere d i hp with he | ⟨-, he⟩
    · exact .inr (he ▸ hx)
    · rw [he, Option.some.injEq] at hx
      rw [← hx] at hl
      cases hl

/-- What a handle reads after placing is the new object or what it read before. -/
theorem get?_eq (p : Placed a c v h old b) {w : α} (hw : b.get? g = some w) :
    g = h ∧ w = v ∨ g ≠ h ∧ a.get? g = some w := by
  obtain ⟨y, hy, hval⟩ := get?_eq_some.1 hw
  by_cases hgh : g = h
  · subst hgh
    have := p.get?_self
    exact .inl ⟨rfl, Option.some.inj (hw.symm.trans this)⟩
  · rcases p.cell?_of_ne hy hgh with hx | ⟨-, rfl⟩
    · exact .inr ⟨hgh, get?_eq_some.2 ⟨y, hx, hval⟩⟩
    · cases hval

/-- The new handle named nothing before. -/
theorem get?_new (p : Placed a c v h old b) : a.get? h = none := by
  rcases hcell : a.cell? h with _ | x
  · rw [get?, hcell, Option.bind_none]
  · have hat := cellAt?_of_cell? hcell
    have hgen := p.generation_eq
    rw [← p.sizeClass_eq, hat, Option.getD_some, generation_of_cell? hcell] at hgen
    simp at hgen

/-- Of two objects placed one after the other, the second takes a handle that named nothing before
the first either. -/
theorem get?_new_before {d : Arena α} {e : SizeClass} {w : α} {old' : Option α}
    (p : Placed a c v h old b) (q : Placed b e w g old' d) : a.get? g = none := by
  rcases hu : a.get? g with _ | u
  · rfl
  exfalso
  obtain ⟨x, hx, hxu⟩ := get?_eq_some.1 hu
  by_cases hp : g.sizeClass = c ∧ a.position g = a.position h
  · have hh := q.cell?_of_live p.cell?_self rfl
    obtain rfl := eq_of_cell? q.cell?_self hh (hp.1.trans p.sizeClass_eq.symm)
      (by rw [q.position_eq, q.position_eq, p.position_eq, p.position_eq, hp.2])
    rw [p.get?_new] at hu
    cases hu
  · have hb := get?_eq_some.2 ⟨x, p.cell?_of_position_ne hx hp, hxu⟩
    rw [q.get?_new] at hb
    cases hb

/-- A live object is still there after placing. -/
theorem get?_of_live (p : Placed a c v h old b) (hl : a.isLive g = true) :
    b.get? g = a.get? g := by
  obtain ⟨x, hx, hlive⟩ := Arena.isLive_iff.1 hl
  rw [get?, get?, p.cell?_of_live hx hlive, hx]

theorem has_self (p : Placed a c v h old b) : b.Has h v := ⟨p.isLive_self, p.get?_self⟩

theorem has (p : Placed a c v h old b) {w : α} (hw : a.Has g w) : b.Has g w :=
  ⟨p.isLive_iff.2 (.inr hw.1), (p.get?_of_live hw.1).trans hw.2⟩

/-- A live object is the new one, or it was there before. -/
theorem of_has (p : Placed a c v h old b) {w : α} (hw : b.Has g w) : g = h ∧ w = v ∨ a.Has g w := by
  rcases p.isLive_iff.1 hw.1 with rfl | hl
  · exact .inl ⟨rfl, hw.unique p.has_self⟩
  · exact .inr ⟨hl, (p.get?_of_live hl).symm.trans hw.2⟩

end Placed

/-! ## A new arena -/

/-- Every cell is as it was when its block was added. -/
def AllFresh (a : Arena α) : Prop := ∀ c i x, a.cellAt? c i = some x → x = {}

theorem AllFresh.grow {a : Arena α} (hf : a.AllFresh) (c : SizeClass) : (a.grow c).AllFresh := by
  intro d i x hx
  rw [cellAt?, pool_grow] at hx
  split at hx
  · rw [Pool.grow] at hx
    rcases Nat.lt_or_ge i (a.pool d).cells.size with hi | hi
    · rw [Array.getElem?_append_left hi] at hx
      exact hf d i x hx
    · rw [Array.getElem?_append_right hi, Array.getElem?_replicate] at hx
      split at hx
      · exact (Option.some.inj hx).symm
      · cases hx
  · exact hf d i x hx

@[simp] theorem slots_grow (a : Arena α) (c d : SizeClass) :
    ((a.grow c).pool d).slots = (a.pool d).slots := by
  rw [pool_grow]
  split <;> rfl

theorem grow_foldl (l : List SizeClass) {a : Arena α} (hf : a.AllFresh) :
    (l.foldl grow a).AllFresh ∧ ∀ d, ((l.foldl grow a).pool d).slots = (a.pool d).slots := by
  induction l generalizing a with
  | nil => exact ⟨hf, fun _ => rfl⟩
  | cons c l ih =>
    obtain ⟨h₁, h₂⟩ := ih (hf.grow c)
    exact ⟨h₁, fun d => (h₂ d).trans (slots_grow a c d)⟩

theorem empty_start (layout : Layout) :
    (empty layout : Arena α).AllFresh ∧
      ∀ d, ((empty layout : Arena α).pool d).slots = layout.slots d := by
  obtain ⟨h₁, h₂⟩ := grow_foldl (α := α) slabs
    (a := { layout
            pools := Vector.ofFn fun c => { slots := layout.slots c }
            chunks := 1
            spareBlocks := layout.blocksPerChunk })
    (fun c i x hx => by simp [cellAt?, pool, Vector.get] at hx)
  exact ⟨h₁, fun d => (h₂ d).trans (congrArg Pool.slots (Vector.getElem_ofFn d.isLt))⟩

/-- A checked layout has a slot for every class in a block. -/
theorem slots_pos_of_check {layout : Layout} (h : layout.check = .ok ()) (c : SizeClass) :
    0 < layout.slots c := by
  obtain ⟨-, -, hroom, -⟩ := Layout.check_eq_ok.1 h
  unfold Layout.slots
  split
  · decide
  · exact Nat.lt_of_lt_of_le hroom (layout.slotsOfSize_anti (c.bytes_slab ‹_›).2)

/-- A new arena has room and nothing in it. -/
theorem create_start {layout : Layout} {a : Arena α} (h : create layout = .ok a) :
    a.Roomy ∧ a.AllFresh := by
  unfold create at h
  cases hc : layout.check with
  | error e =>
    rw [hc] at h
    cases h
  | ok u =>
    rw [hc] at h
    obtain rfl : empty layout = a := Except.ok.inj h
    obtain ⟨hf, hs⟩ := empty_start (α := α) layout
    exact ⟨fun c => hs c ▸ slots_pos_of_check hc c, hf⟩

end Arena

end ObjectSpace

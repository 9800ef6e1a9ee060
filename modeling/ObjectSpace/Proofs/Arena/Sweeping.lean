import ObjectSpace.Proofs.Arena.History
import Mathlib.Logic.Function.Basic

/-!
# Swept pools

The cursor of a pool says where the search for a dead cell resumes. A pool is `Pool.Swept` when its
blocks are whole and no cell before the cursor is dead. Only clearing the marks makes live cells
dead, and it resets the cursor, so every pool of every run is swept (`swept_of_ran`).

What a step does to a pool is said by which cells are live after it (`Pool.liveAt`). A swept pool
that is made ready has its cursor at the first dead cell, or at the first cell of a new block when
it had none (`Pool.ready_cases`).
-/

namespace ObjectSpace

variable {α : Type}

namespace Pool

/-- Whether there is a live cell at `i`. -/
def liveAt (p : Pool α) (i : Nat) : Bool := (p.cells[i]?).any (·.live)

theorem liveAt_iff {p : Pool α} {i : Nat} :
    p.liveAt i = true ↔ ∃ x, p.cells[i]? = some x ∧ x.live = true := by
  rw [liveAt, Option.any_eq_true]

theorem lt_size_of_liveAt {p : Pool α} {i : Nat} (h : p.liveAt i = true) : i < p.cells.size := by
  obtain ⟨x, hx, -⟩ := liveAt_iff.1 h
  exact (Array.getElem?_eq_some_iff.1 hx).1

/-- Every block is whole, and no cell before the cursor is dead. -/
structure Swept (p : Pool α) : Prop where
  slots_pos : 0 < p.slots
  whole : p.slots ∣ p.cells.size
  before : ∀ i < p.cursor, p.liveAt i = true

namespace Swept

variable {p : Pool α}

theorem size_eq (w : p.Swept) : p.cells.size = p.blocks * p.slots :=
  (Nat.div_mul_cancel w.whole).symm

theorem cursor_le (w : p.Swept) : p.cursor ≤ p.cells.size := by
  rcases Nat.eq_zero_or_pos p.cursor with h | h
  · omega
  · have := lt_size_of_liveAt (w.before (p.cursor - 1) (by omega))
    omega

end Swept

/-! ## The search -/

/-- The search passes over live cells only. -/
theorem liveAt_of_lt_firstDead (p : Pool α) {i j : Nat} (hi : i ≤ j)
    (hj : j < firstDead p.cells i) : p.liveAt j = true := by
  fun_induction firstDead p.cells i with
  | case1 i h hl ih =>
    rcases Nat.eq_or_lt_of_le hi with rfl | hi
    · exact liveAt_iff.2 ⟨_, Array.getElem?_eq_getElem h, hl⟩
    · exact ih hi hj
  | case2 i h hl => omega
  | case3 i h => omega

/-- What making a swept pool ready does: the cursor comes to the first dead cell, or to the first
cell of a new block when every cell is live. -/
theorem ready_cases {p : Pool α} (w : p.Swept) :
    (∀ i < p.ready.cursor, p.liveAt i = true) ∧
      (p.ready.cursor < p.cells.size ∧ p.liveAt p.ready.cursor = false ∧
          p.ready = { p with cursor := p.ready.cursor } ∨
        p.ready.cursor = p.cells.size ∧ p.ready = { p.grow with cursor := p.cells.size }) := by
  have hle := firstDead_le p.cells p.cursor
  have hlive : ∀ i < firstDead p.cells p.cursor, p.liveAt i = true := fun i hi => by
    rcases Nat.lt_or_ge i p.cursor with hc | hc
    · exact w.before i hc
    · exact liveAt_of_lt_firstDead p hc hi
  by_cases hfull : p.seek.isFull = true
  · have hend : firstDead p.cells p.cursor = p.cells.size :=
      Nat.le_antisymm hle (of_decide_eq_true hfull)
    have hready : p.ready = { p.grow with cursor := p.cells.size } := by
      rw [ready, if_pos hfull, seek, hend]
      rfl
    rw [hready]
    exact ⟨hend ▸ hlive, .inr ⟨rfl, rfl⟩⟩
  · have hready : p.ready = { p with cursor := firstDead p.cells p.cursor } := by
      rw [ready, if_neg hfull, seek]
    have hlt : firstDead p.cells p.cursor < p.cells.size :=
      Nat.lt_of_not_le fun hge => hfull (decide_eq_true hge)
    rw [hready]
    refine ⟨hlive, .inl ⟨hlt, ?_, rfl⟩⟩
    have hx := Array.getElem?_eq_getElem hlt
    rw [liveAt, hx, Option.any_some, live_firstDead hx]

/-! ## Steps -/

/-- The cells of a new block are dead. -/
@[simp] theorem liveAt_grow (p : Pool α) : p.grow.liveAt = p.liveAt := by
  funext i
  rw [liveAt, liveAt, grow]
  rcases Nat.lt_or_ge i p.cells.size with hi | hi
  · rw [Array.getElem?_append_left hi]
  · rw [Array.getElem?_append_right hi, Array.getElem?_eq_none hi, Array.getElem?_replicate]
    split <;> rfl

@[simp] theorem liveAt_ready (p : Pool α) : p.ready.liveAt = p.liveAt := by
  unfold ready
  split
  · exact liveAt_grow p.seek
  · rfl

/-- A change of the cell at `i` that makes it live. -/
theorem liveAt_modify {p q : Pool α} {i : Nat} {f : Cell α → Cell α} (hi : i < p.cells.size)
    (hq : q.cells = p.cells.modify i f) (hf : ∀ x, (f x).live = true) :
    q.liveAt = Function.update p.liveAt i true := by
  funext j
  rw [liveAt, hq, Array.getElem?_modify, Function.update_apply]
  by_cases hij : i = j
  · subst hij
    rw [if_pos rfl, if_pos rfl, Array.getElem?_eq_getElem hi, Option.map_some, Option.any_some, hf]
  · rw [if_neg hij, if_neg (Ne.symm hij), liveAt]

theorem liveAt_occupy {p : Pool α} {i : Nat} (v : α) (hi : i < p.cells.size) :
    (p.occupy i v).liveAt = Function.update p.liveAt i true :=
  liveAt_modify (f := fun c => ⟨true, c.generation + 1, some v⟩) hi rfl fun _ => rfl

theorem liveAt_mark {p : Pool α} {i : Nat} (hi : i < p.cells.size) :
    (p.mark i).liveAt = Function.update p.liveAt i true :=
  liveAt_modify (f := fun c => { c with live := true }) hi rfl fun _ => rfl

@[simp] theorem liveAt_update (p : Pool α) (i : Nat) (f : α → α) :
    (p.update i f).liveAt = p.liveAt := by
  funext j
  rw [liveAt, liveAt, update, Array.getElem?_modify]
  split
  · rcases p.cells[j]? with _ | x <;> rfl
  · rfl

@[simp] theorem liveAt_clearMarks (p : Pool α) : p.clearMarks.liveAt = fun _ => false := by
  funext i
  rw [liveAt, clearMarks, Array.getElem?_map]
  rcases p.cells[i]? with _ | x <;> rfl

@[simp] theorem size_grow (p : Pool α) : p.grow.cells.size = p.cells.size + p.slots := by
  simp [grow]

@[simp] theorem size_occupy (p : Pool α) (i : Nat) (v : α) :
    (p.occupy i v).cells.size = p.cells.size := by simp [occupy]

@[simp] theorem size_mark (p : Pool α) (i : Nat) : (p.mark i).cells.size = p.cells.size := by
  simp [mark]

@[simp] theorem size_update (p : Pool α) (i : Nat) (f : α → α) :
    (p.update i f).cells.size = p.cells.size := by simp [update]

@[simp] theorem size_clearMarks (p : Pool α) : p.clearMarks.cells.size = p.cells.size := by
  simp [clearMarks]

namespace Swept

variable {p : Pool α}

theorem grow (w : p.Swept) : p.grow.Swept where
  slots_pos := w.slots_pos
  whole := by
    rw [size_grow]
    exact Nat.dvd_add w.whole (Nat.dvd_refl _)
  before i hi := by
    rw [liveAt_grow]
    exact w.before i hi

/-- A ready pool has its cursor at a dead cell. -/
theorem cursor_ready_lt (w : p.Swept) :
    p.ready.cursor < p.ready.cells.size ∧ p.liveAt p.ready.cursor = false := by
  obtain ⟨-, ⟨hlt, hdead, hready⟩ | ⟨hend, hready⟩⟩ := ready_cases w
  · exact ⟨by rw [hready]; exact hlt, hdead⟩
  · refine ⟨?_, ?_⟩
    · rw [hready]
      have := w.slots_pos
      simp only [size_grow]
      omega
    · rw [hend, liveAt, Array.getElem?_eq_none (Nat.le_refl _), Option.any_none]

theorem ready (w : p.Swept) : p.ready.Swept where
  slots_pos := by
    rw [slots_ready]
    exact w.slots_pos
  whole := by
    rw [slots_ready]
    obtain ⟨-, ⟨-, -, hready⟩ | ⟨-, hready⟩⟩ := ready_cases w <;> rw [hready]
    · exact w.whole
    · exact w.grow.whole
  before i hi := by
    rw [liveAt_ready]
    exact (ready_cases w).1 i hi

/-- Taking the cell at the cursor leaves a pool swept. -/
theorem occupy (w : p.Swept) (v : α) (hc : p.cursor < p.cells.size) :
    (p.occupy p.cursor v).Swept where
  slots_pos := w.slots_pos
  whole := by
    rw [size_occupy]
    exact w.whole
  before j hj := by
    have hj : j < p.cursor := hj
    rw [liveAt_occupy v hc, Function.update_of_ne (Nat.ne_of_lt hj)]
    exact w.before j hj

theorem mark (w : p.Swept) {i : Nat} (hi : i < p.cells.size) : (p.mark i).Swept where
  slots_pos := w.slots_pos
  whole := by
    rw [size_mark]
    exact w.whole
  before j hj := by
    rw [liveAt_mark hi, Function.update_apply]
    split
    · rfl
    · exact w.before j hj

theorem update (w : p.Swept) (i : Nat) (f : α → α) : (p.update i f).Swept where
  slots_pos := w.slots_pos
  whole := by
    rw [size_update]
    exact w.whole
  before j hj := by
    rw [liveAt_update]
    exact w.before j hj

theorem clearMarks (w : p.Swept) : p.clearMarks.Swept where
  slots_pos := w.slots_pos
  whole := by
    rw [size_clearMarks]
    exact w.whole
  before _ hi := absurd hi (Nat.not_lt_zero _)

end Swept

end Pool

namespace Arena

/-! ## Runs -/

/-- Every pool is swept. -/
def Swept (a : Arena α) : Prop := ∀ c, (a.pool c).Swept

theorem pool_allocateIn (a : Arena α) (c : SizeClass) (v : α) (d : SizeClass) :
    (a.allocateIn c v).2.2.pool d =
      if c = d then (a.pool d).ready.occupy (a.pool d).ready.cursor v else a.pool d := by
  rw [allocateIn_eq]
  simp only [pool_modifyPool, pool_reserve, if_true]
  split
  · rename_i h
    rw [h]
  · rfl

theorem pool_foldl_grow {l : List SizeClass} (hl : l.Nodup) (a : Arena α) (d : SizeClass) :
    (l.foldl grow a).pool d = if d ∈ l then (a.pool d).grow else a.pool d := by
  induction l generalizing a with
  | nil => simp
  | cons c l ih =>
    obtain ⟨hc, hl⟩ := List.nodup_cons.1 hl
    rw [List.foldl_cons, ih hl, pool_grow]
    by_cases hcd : c = d
    · subst hcd
      simp [hc]
    · simp [hcd, Ne.symm hcd]

/-- A new arena has one block of fresh cells in each slab class. -/
theorem pool_empty (layout : Layout) (c : SizeClass) :
    (empty layout : Arena α).pool c =
      if c = SizeClass.large then { slots := layout.slots c }
      else Pool.grow { slots := layout.slots c } := by
  have hnodup : slabs.Nodup := by decide
  have hmem : c ∈ slabs ↔ c ≠ SizeClass.large := by
    revert c
    decide
  rw [empty, pool_foldl_grow hnodup, ite_congr (propext hmem) (fun _ => rfl) fun _ => rfl, ite_not]
  have hpool : ∀ n m, ({ layout := layout
                         pools := Vector.ofFn fun c => { slots := layout.slots c }
                         chunks := n
                         spareBlocks := m } : Arena α).pool c = { slots := layout.slots c } :=
    fun _ _ => Vector.getElem_ofFn c.isLt
  rw [hpool]

theorem swept_empty {layout : Layout} (h : layout.check = .ok ()) :
    (empty layout : Arena α).Swept := by
  intro c
  have w : ({ slots := layout.slots c } : Pool α).Swept :=
    ⟨slots_pos_of_check h c, ⟨0, rfl⟩, fun i hi => absurd hi (Nat.not_lt_zero _)⟩
  rw [pool_empty]
  split
  · exact w
  · exact w.grow

/-- A handle that names a cell names one of the pool. -/
theorem position_lt_of_cell? {a : Arena α} {h : Handle} {x : Cell α} (hx : a.cell? h = some x) :
    a.position h < (a.pool h.sizeClass).cells.size :=
  (Array.getElem?_eq_some_iff.1 (cellAt?_of_cell? hx)).1

theorem create_eq_ok {layout : Layout} {a : Arena α} (h : create layout = .ok a) :
    layout.check = .ok () ∧ a = empty layout := by
  unfold create at h
  rcases hc : layout.check with e | u
  · rw [hc] at h
    cases h
  · rw [hc] at h
    exact ⟨rfl, (Except.ok.inj h).symm⟩

theorem allocate_eq_ok {a b : Arena α} {size : Nat} {v : α} {h : Handle}
    (hb : a.allocate size v = .ok (h, b)) :
    ∃ c, SizeClass.ofSize? size = some c ∧ h = (a.allocateIn c v).1 ∧
      b = (a.allocateIn c v).2.2 := by
  unfold allocate at hb
  split at hb
  · cases hb
  · rename_i c hc
    obtain ⟨hh, hb⟩ := Prod.mk.inj (Except.ok.inj hb)
    exact ⟨c, hc, hh.symm, hb.symm⟩

theorem mark?_eq_some {a b : Arena α} {h : Handle} {wasLive : Bool}
    (hb : a.mark? h = some (wasLive, b)) :
    ∃ x, a.cell? h = some x ∧ wasLive = x.live ∧ b = a.setMark h := by
  obtain ⟨x, hx, he⟩ := Option.map_eq_some_iff.1 hb
  obtain ⟨hl, hb⟩ := Prod.mk.inj he
  exact ⟨x, hx, hl.symm, hb.symm⟩

theorem update?_eq_some {a b : Arena α} {h : Handle} {f : α → α} (hb : a.update? h f = some b) :
    a.isCurrent h = true ∧ b = a.modify h f := by
  rw [update?, Option.ite_none_right_eq_some] at hb
  exact ⟨hb.1, (Option.some.inj hb.2).symm⟩

namespace Swept

variable {a : Arena α}

theorem allocateIn (w : a.Swept) (c : SizeClass) (v : α) : (a.allocateIn c v).2.2.Swept := by
  intro d
  rw [pool_allocateIn]
  split
  · exact (w d).ready.occupy v (w d).cursor_ready_lt.1
  · exact w d

theorem modify (w : a.Swept) (h : Handle) (f : α → α) : (a.modify h f).Swept := by
  intro d
  rw [Arena.modify, pool_modifyPool]
  split
  · exact (w d).update _ f
  · exact w d

theorem setMark (w : a.Swept) {h : Handle} {x : Cell α} (hx : a.cell? h = some x) :
    (a.setMark h).Swept := by
  intro d
  rw [Arena.setMark, pool_modifyPool]
  split
  · rename_i hd
    exact (w d).mark (hd ▸ position_lt_of_cell? hx)
  · exact w d

theorem clearMarks (w : a.Swept) : a.clearMarks.Swept := by
  intro d
  rw [pool_clearMarks]
  exact (w d).clearMarks

end Swept

/-- In every run no cell before a cursor is dead. -/
theorem swept_of_ran {layout : Layout} {t : List (Event α)} {a : Arena α} (r : Ran layout t a) :
    a.Swept := by
  induction r with
  | start h =>
    obtain ⟨hc, rfl⟩ := create_eq_ok h
    exact swept_empty hc
  | allocate size v _ hb ih =>
    obtain ⟨c, -, -, rfl⟩ := allocate_eq_ok hb
    exact ih.allocateIn c v
  | store f _ _ _ hb ih =>
    obtain ⟨-, rfl⟩ := update?_eq_some hb
    exact ih.modify _ f
  | mark _ _ hb ih =>
    obtain ⟨x, hx, -, rfl⟩ := mark?_eq_some hb
    exact ih.setMark hx
  | clear _ ih => exact ih.clearMarks

/-- The blocks of a class have as many slots as the layout gives them. -/
theorem slots_of_ran {layout : Layout} {t : List (Event α)} {a : Arena α} (r : Ran layout t a)
    (c : SizeClass) : (a.pool c).slots = layout.slots c := by
  induction r with
  | start h =>
    obtain ⟨-, rfl⟩ := create_eq_ok h
    exact (empty_start layout).2 c
  | allocate size v _ hb ih =>
    obtain ⟨d, -, -, rfl⟩ := allocate_eq_ok hb
    rw [pool_allocateIn, ← ih]
    split
    · exact Pool.slots_ready _
    · rfl
  | store f _ _ _ hb ih =>
    obtain ⟨-, rfl⟩ := update?_eq_some hb
    rw [slots_modify, ih]
  | mark _ _ hb ih =>
    obtain ⟨x, -, -, rfl⟩ := mark?_eq_some hb
    rw [slots_setMark, ih]
  | clear _ ih => rw [slots_clearMarks, ih]

end Arena

end ObjectSpace

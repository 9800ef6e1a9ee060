import ObjectSpace.Arena.Unmarked
import Mathlib.Algebra.BigOperators.Fin

/-!
# Cells and the handles that name them

A cell stands at a position of a pool, and a handle names the cell at its position as long as the
generations agree. Two current handles of one position are the same handle (`eq_of_cell?`), so a
handle is as good as a cell.

Setting a mark, changing an object and clearing all marks are described by what they do to the
cell at a position, and from that by what they do to the cell a handle names.
-/

namespace ObjectSpace

variable {α : Type}

theorem SizeClass.total_eq_sum (f : SizeClass → Nat) : total f = ∑ c, f c := by
  rw [total, Fin.sum_univ_def]
  induction List.finRange 8 with
  | nil => rfl
  | cons c l ih => rw [List.foldr_cons, ih, List.map_cons, List.sum_cons]

namespace Arena

/-- The cell at position `i` of class `c`. -/
def cellAt? (a : Arena α) (c : SizeClass) (i : Nat) : Option (Cell α) := (a.pool c).cells[i]?

/-! ## Handles and positions -/

theorem cell?_eq_some {a : Arena α} {h : Handle} {x : Cell α} :
    a.cell? h = some x ↔ h.slot < (a.pool h.sizeClass).slots ∧
      a.cellAt? h.sizeClass (a.position h) = some x ∧ x.generation = h.generation := by
  rw [cell?, Option.ite_none_right_eq_some, Option.filter_eq_some_iff, decide_eq_true_eq]
  rfl

theorem slot_lt_of_cell? {a : Arena α} {h : Handle} {x : Cell α} (hx : a.cell? h = some x) :
    h.slot < (a.pool h.sizeClass).slots :=
  (cell?_eq_some.1 hx).1

theorem cellAt?_of_cell? {a : Arena α} {h : Handle} {x : Cell α} (hx : a.cell? h = some x) :
    a.cellAt? h.sizeClass (a.position h) = some x :=
  (cell?_eq_some.1 hx).2.1

theorem generation_of_cell? {a : Arena α} {h : Handle} {x : Cell α} (hx : a.cell? h = some x) :
    x.generation = h.generation :=
  (cell?_eq_some.1 hx).2.2

/-- A position has one block and one slot. -/
theorem block_slot_of_position {a : Arena α} {h g : Handle}
    (hh : h.slot < (a.pool h.sizeClass).slots) (hg : g.slot < (a.pool g.sizeClass).slots)
    (hc : h.sizeClass = g.sizeClass) (hp : a.position h = a.position g) :
    h.block = g.block ∧ h.slot = g.slot := by
  unfold position at hp
  rw [← hc] at hg hp
  have hpos : 0 < (a.pool h.sizeClass).slots := Nat.lt_of_le_of_lt (Nat.zero_le _) hh
  have hdiv := congrArg (· / (a.pool h.sizeClass).slots) hp
  have hmod := congrArg (· % (a.pool h.sizeClass).slots) hp
  simp only [Nat.mul_comm _ (a.pool h.sizeClass).slots, Nat.mul_add_div hpos,
    Nat.mul_add_mod, Nat.div_eq_of_lt hh, Nat.div_eq_of_lt hg, Nat.mod_eq_of_lt hh,
    Nat.mod_eq_of_lt hg, Nat.add_zero] at hdiv hmod
  exact ⟨hdiv, hmod⟩

/-- Two handles that name cells at one position are the same. -/
theorem eq_of_cell? {a : Arena α} {h g : Handle} {x y : Cell α} (hx : a.cell? h = some x)
    (hy : a.cell? g = some y) (hc : h.sizeClass = g.sizeClass)
    (hp : a.position h = a.position g) : h = g := by
  obtain ⟨hb, hs⟩ := block_slot_of_position (slot_lt_of_cell? hx) (slot_lt_of_cell? hy) hc hp
  have hxy : x = y := by
    have h₁ := cellAt?_of_cell? hx
    rw [hc, hp, cellAt?_of_cell? hy, Option.some.injEq] at h₁
    exact h₁.symm
  have hgen : h.generation = g.generation := by
    rw [← generation_of_cell? hx, ← generation_of_cell? hy, hxy]
  cases h
  cases g
  simp_all

theorem get?_eq_some {a : Arena α} {h : Handle} {v : α} :
    a.get? h = some v ↔ ∃ x, a.cell? h = some x ∧ x.value = some v := by
  rw [get?, Option.bind_eq_some_iff]

theorem isLive_iff {a : Arena α} {h : Handle} :
    a.isLive h = true ↔ ∃ x, a.cell? h = some x ∧ x.live = true := by
  rw [isLive, Option.any_eq_true]

theorem isCurrent_iff {a : Arena α} {h : Handle} :
    a.isCurrent h = true ↔ ∃ v, a.get? h = some v := by
  rw [isCurrent, Option.isSome_iff_exists]

/-- A live handle with what it reads. -/
def Has (a : Arena α) (h : Handle) (v : α) : Prop := a.isLive h = true ∧ a.get? h = some v

theorem Has.unique {a : Arena α} {h : Handle} {v w : α} (hv : a.Has h v) (hw : a.Has h w) :
    v = w :=
  Option.some.inj (hv.2.symm.trans hw.2)

theorem Has.current {a : Arena α} {h : Handle} {v : α} (hv : a.Has h v) :
    a.isCurrent h = true :=
  isCurrent_iff.2 ⟨v, hv.2⟩

theorem Has.ne {a : Arena α} {h g : Handle} {v w : α} (hv : a.Has h v) (hw : a.Has g w)
    (hne : v ≠ w) : h ≠ g := by
  rintro rfl
  exact hne (hv.unique hw)

theorem fetch_eq_ok {a : Arena α} {h : Handle} {v : α} :
    a.fetch h = .ok v ↔ a.get? h = some v := by
  unfold fetch
  split <;> simp_all

/-! ## Pools after a change -/

theorem pool_drawBlock (a : Arena α) (c : SizeClass) : a.drawBlock.pool c = a.pool c := by
  unfold drawBlock
  split <;> rfl

theorem pool_grow (a : Arena α) (c d : SizeClass) :
    (a.grow c).pool d = if c = d then (a.pool d).grow else a.pool d := by
  unfold grow
  simp only [pool_modifyPool]
  by_cases hl : c = SizeClass.large
  · rw [if_pos hl]
  · rw [if_neg hl, pool_drawBlock]

theorem pool_clearMarks (a : Arena α) (c : SizeClass) :
    a.clearMarks.pool c = (a.pool c).clearMarks :=
  Vector.getElem_map Pool.clearMarks c.isLt

@[simp] theorem slots_setMark (a : Arena α) (h : Handle) (c : SizeClass) :
    ((a.setMark h).pool c).slots = (a.pool c).slots := by
  rw [setMark, pool_modifyPool]
  split <;> rfl

@[simp] theorem slots_modify (a : Arena α) (h : Handle) (f : α → α) (c : SizeClass) :
    ((a.modify h f).pool c).slots = (a.pool c).slots := by
  rw [modify, pool_modifyPool]
  split <;> rfl

@[simp] theorem slots_clearMarks (a : Arena α) (c : SizeClass) :
    (a.clearMarks.pool c).slots = (a.pool c).slots := by
  rw [pool_clearMarks]
  rfl

theorem position_congr {a b : Arena α} (h : Handle)
    (hs : ∀ c, (b.pool c).slots = (a.pool c).slots) : b.position h = a.position h := by
  rw [position, hs, position]

@[simp] theorem position_setMark (a : Arena α) (h g : Handle) :
    (a.setMark h).position g = a.position g :=
  position_congr g (slots_setMark a h)

@[simp] theorem position_modify (a : Arena α) (h g : Handle) (f : α → α) :
    (a.modify h f).position g = a.position g :=
  position_congr g (slots_modify a h f)

@[simp] theorem position_clearMarks (a : Arena α) (h : Handle) :
    a.clearMarks.position h = a.position h :=
  position_congr h (slots_clearMarks a)

/-! ## Cells after a change -/

theorem cellAt?_setMark (a : Arena α) (h : Handle) (c : SizeClass) (i : Nat) :
    (a.setMark h).cellAt? c i =
      if h.sizeClass = c ∧ a.position h = i then
        (a.cellAt? c i).map fun x => { x with live := true }
      else a.cellAt? c i := by
  by_cases hc : h.sizeClass = c
  · by_cases hi : a.position h = i <;>
      simp [cellAt?, setMark, Pool.mark, hc, hi, Array.getElem?_modify]
  · simp [cellAt?, setMark, hc]

theorem cellAt?_modify (a : Arena α) (h : Handle) (f : α → α) (c : SizeClass) (i : Nat) :
    (a.modify h f).cellAt? c i =
      if h.sizeClass = c ∧ a.position h = i then
        (a.cellAt? c i).map fun x => { x with value := x.value.map f }
      else a.cellAt? c i := by
  by_cases hc : h.sizeClass = c
  · by_cases hi : a.position h = i <;>
      simp [cellAt?, modify, Pool.update, hc, hi, Array.getElem?_modify]
  · simp [cellAt?, modify, hc]

theorem cellAt?_clearMarks (a : Arena α) (c : SizeClass) (i : Nat) :
    a.clearMarks.cellAt? c i = (a.cellAt? c i).map fun x => { x with live := false } := by
  simp [cellAt?, pool_clearMarks, Pool.clearMarks]

/-- A change that keeps the generations changes a cell as it changes the cell at its position. -/
theorem cell?_congr {a b : Arena α} {h : Handle} {f : Cell α → Cell α}
    (hs : ∀ c, (b.pool c).slots = (a.pool c).slots)
    (hcell : b.cellAt? h.sizeClass (a.position h) =
      (a.cellAt? h.sizeClass (a.position h)).map f)
    (hf : ∀ x, (f x).generation = x.generation) : b.cell? h = (a.cell? h).map f := by
  rw [cell?, cell?, hs, position_congr h hs]
  rw [cellAt?, cellAt?] at hcell
  rw [hcell]
  split
  · rcases (a.pool h.sizeClass).cells[a.position h]? with _ | x
    · rfl
    · by_cases hx : x.generation = h.generation <;> simp [Option.filter, hf, hx]
  · rfl

/-- A change of the one cell behind a handle leaves the other handles alone. -/
theorem cell?_change {a b : Arena α} {h : Handle} {x : Cell α} {f : Cell α → Cell α}
    (hx : a.cell? h = some x) (hs : ∀ c, (b.pool c).slots = (a.pool c).slots)
    (hcell : ∀ c i, b.cellAt? c i =
      if h.sizeClass = c ∧ a.position h = i then (a.cellAt? c i).map f else a.cellAt? c i)
    (hf : ∀ x, (f x).generation = x.generation) (g : Handle) :
    b.cell? g = if g = h then some (f x) else a.cell? g := by
  by_cases hp : h.sizeClass = g.sizeClass ∧ a.position h = a.position g
  · rw [cell?_congr hs (by rw [hcell, if_pos hp]) hf]
    by_cases hg : g = h
    · rw [if_pos hg, hg, hx, Option.map_some]
    · rcases hy : a.cell? g with _ | y
      · rw [if_neg hg, Option.map_none]
      · exact absurd (eq_of_cell? hx hy hp.1 hp.2).symm hg
  · have hg : g ≠ h := fun hg => hp ⟨by rw [hg], by rw [hg]⟩
    rw [cell?_congr (f := id) hs (by rw [hcell, if_neg hp, Option.map_id_apply]) fun _ => rfl,
      Option.map_id_apply, if_neg hg]

/-- Marking sets the bit of the cell behind the handle. -/
theorem cell?_setMark {a : Arena α} {h : Handle} {x : Cell α} (hx : a.cell? h = some x)
    (g : Handle) :
    (a.setMark h).cell? g = if g = h then some { x with live := true } else a.cell? g :=
  cell?_change hx (slots_setMark a h) (cellAt?_setMark a h) (fun _ => rfl) g

/-- Changing an object changes what its handle reads. -/
theorem cell?_modify {a : Arena α} {h : Handle} {x : Cell α} (hx : a.cell? h = some x)
    (f : α → α) (g : Handle) : (a.modify h f).cell? g =
      if g = h then some { x with value := x.value.map f } else a.cell? g :=
  cell?_change hx (slots_modify a h f) (cellAt?_modify a h f) (fun _ => rfl) g

theorem isLive_modify {a : Arena α} {h : Handle} {v : α} (hv : a.get? h = some v) (f : α → α)
    (g : Handle) : (a.modify h f).isLive g = a.isLive g := by
  obtain ⟨x, hx, -⟩ := get?_eq_some.1 hv
  rw [isLive, isLive, cell?_modify hx]
  split
  · rename_i hg
    rw [hg, hx, Option.any_some, Option.any_some]
  · rfl

theorem get?_modify {a : Arena α} {h : Handle} {v : α} (hv : a.get? h = some v) (f : α → α)
    (g : Handle) : (a.modify h f).get? g = if g = h then some (f v) else a.get? g := by
  obtain ⟨x, hx, hxv⟩ := get?_eq_some.1 hv
  rw [get?, get?, cell?_modify hx]
  split
  · rw [Option.bind_some, hxv, Option.map_some]
  · rfl

theorem cell?_clearMarks (a : Arena α) (h : Handle) :
    a.clearMarks.cell? h = (a.cell? h).map fun x => { x with live := false } :=
  cell?_congr (slots_clearMarks a) (cellAt?_clearMarks a _ _) fun _ => rfl

end Arena

end ObjectSpace

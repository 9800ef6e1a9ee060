import ObjectSpace.Proofs.Arena.Placing

/-!
# Arenas that hand out the same slots

Two arenas are twins when they differ in one size class only and, in the others, in what some live
cells hold. Placing an object in one of those other classes gives the same handle in both and drops
the same object: the search for a dead cell looks at liveness bits, and a cell that is taken is
dead, so it is one that the two have in common.
-/

namespace ObjectSpace

variable {α : Type}

namespace Pool

/-- Two pools agree but for what the cells at `spare` positions hold. -/
structure Twin (spare : Nat → Prop) (p q : Pool α) : Prop where
  slots : p.slots = q.slots
  cursor : p.cursor = q.cursor
  size : p.cells.size = q.cells.size
  live : ∀ i : Nat, (p.cells[i]?).map Cell.live = (q.cells[i]?).map Cell.live
  cell : ∀ i : Nat, ¬ spare i → p.cells[i]? = q.cells[i]?

/-- The search for a dead cell looks at liveness bits only. -/
theorem firstDead_congr {a b : Array (Cell α)} (hsize : a.size = b.size)
    (hlive : ∀ i : Nat, (a[i]?).map Cell.live = (b[i]?).map Cell.live) (i : Nat) :
    firstDead a i = firstDead b i := by
  fun_induction firstDead a i with
  | case1 i h hl ih =>
    have hb : i < b.size := hsize ▸ h
    have hbit : a[i].live = b[i].live := by simpa [h, hb] using hlive i
    rw [firstDead.eq_def b i, dif_pos hb, if_pos (hbit ▸ hl), ih]
  | case2 i h hl =>
    have hb : i < b.size := hsize ▸ h
    have hbit : a[i].live = b[i].live := by simpa [h, hb] using hlive i
    rw [firstDead.eq_def b i, dif_pos hb, if_neg (hbit ▸ hl)]
  | case3 i h =>
    have hb : ¬ i < b.size := hsize ▸ h
    rw [firstDead.eq_def b i, dif_neg hb, hsize]

namespace Twin

variable {spare spare' : Nat → Prop} {p q : Pool α} {i : Nat}

theorem refl (spare : Nat → Prop) (p : Pool α) : Twin spare p p :=
  ⟨rfl, rfl, rfl, fun _ => rfl, fun _ _ => rfl⟩

theorem mono (t : Twin spare p q) (h : ∀ i, spare i → spare' i) : Twin spare' p q :=
  ⟨t.slots, t.cursor, t.size, t.live, fun i hi => t.cell i fun hs => hi (h i hs)⟩

theorem seek (t : Twin spare p q) : Twin spare p.seek q.seek := by
  refine ⟨t.slots, ?_, t.size, t.live, t.cell⟩
  simp only [Pool.seek, t.cursor]
  exact firstDead_congr t.size t.live _

theorem grow (t : Twin spare p q) : Twin spare p.grow q.grow := by
  refine ⟨t.slots, t.cursor, ?_, fun i => ?_, fun i hi => ?_⟩
  · simp only [Pool.grow, Array.size_append, t.size, t.slots]
  · simp only [Pool.grow, Array.getElem?_append, t.size, t.slots]
    split
    · exact t.live i
    · rfl
  · simp only [Pool.grow, Array.getElem?_append, t.size, t.slots]
    split
    · exact t.cell i hi
    · rfl

theorem ready (t : Twin spare p q) : Twin spare p.ready q.ready := by
  have hfull : p.seek.isFull = q.seek.isFull := by
    rw [isFull, isFull, t.seek.size, t.seek.cursor]
  unfold Pool.ready
  rw [hfull]
  split
  · exact t.seek.grow
  · exact t.seek

/-- Handing out a cell that the pools have in common, for two values that may differ. -/
theorem occupy (t : Twin spare p q) (hi : ¬ spare i) (v w : α) :
    Twin (fun j => spare j ∨ j = i ∧ v ≠ w) (p.occupy i v) (q.occupy i w) := by
  refine ⟨t.slots, rfl, ?_, fun j => ?_, fun j hj => ?_⟩
  · simpa only [Pool.occupy, Array.size_modify] using t.size
  · simp only [Pool.occupy, Array.getElem?_modify]
    split
    · rename_i h
      rw [← h, t.cell i hi, Option.map_map, Option.map_map]
      rfl
    · exact t.live j
  · rw [not_or, not_and, not_not] at hj
    simp only [Pool.occupy, Array.getElem?_modify]
    split
    · rename_i h
      rw [t.cell j hj.1, hj.2 h.symm]
    · exact t.cell j hj.1

theorem update (t : Twin spare p q) (i : Nat) (f : α → α) :
    Twin spare (p.update i f) (q.update i f) := by
  refine ⟨t.slots, t.cursor, ?_, fun j => ?_, fun j hj => ?_⟩
  · simpa only [Pool.update, Array.size_modify] using t.size
  · simp only [Pool.update, Array.getElem?_modify]
    split
    · rw [Option.map_map, Option.map_map]
      exact t.live j
    · exact t.live j
  · simp only [Pool.update, Array.getElem?_modify, t.cell j hj]

end Twin

end Pool

namespace Arena

/-- Two arenas agree in every class but one, but for what some live cells hold. -/
structure Twins (wide : SizeClass) (spare : SizeClass → Nat → Prop) (a b : Arena α) : Prop where
  pool : ∀ c, c ≠ wide → (a.pool c).Twin (spare c) (b.pool c)
  busy : ∀ c i, spare c i → ∃ x, a.cellAt? c i = some x ∧ x.live = true

namespace Twins

variable {wide c : SizeClass} {spare : SizeClass → Nat → Prop} {a b : Arena α} {v w : α}

theorem refl (wide : SizeClass) (a : Arena α) : Twins wide (fun _ _ => False) a a :=
  ⟨fun _ _ => .refl _ _, fun _ _ h => h.elim⟩

theorem position_eq (t : Twins wide spare a b) {h : Handle} (hh : h.sizeClass ≠ wide) :
    a.position h = b.position h := by
  rw [position, position, (t.pool _ hh).slots]

theorem pool_allocateIn (a : Arena α) (c d : SizeClass) (v : α) :
    (a.allocateIn c v).2.2.pool d =
      if c = d then (a.pool d).ready.occupy (a.pool d).ready.cursor v else a.pool d := by
  rw [allocateIn_eq]
  dsimp only
  rw [pool_modifyPool, pool_reserve, pool_reserve, if_pos rfl]
  split
  · rename_i h
    rw [h]
  · rfl

/-- Placing an object in the class where the arenas differ leaves the others. -/
theorem allocateIn_left (t : Twins wide (fun _ _ => False) a b) (v : α) :
    Twins wide (fun _ _ => False) (a.allocateIn wide v).2.2 b := by
  refine ⟨fun d hd => ?_, fun _ _ h => h.elim⟩
  rw [pool_allocateIn, if_neg hd.symm]
  exact t.pool d hd

theorem position_allocateIn (a : Arena α) (c : SizeClass) (v : α) :
    a.position (a.allocateIn c v).1 = (a.pool c).ready.cursor := by
  rw [allocateIn_eq, ← position_congr _ (slots_reserve a c), position_handleAt, pool_reserve,
    if_pos rfl]

/-- The cell that is taken is dead, so the arenas have it in common. -/
theorem not_spare_cursor (t : Twins wide spare a b) (hr : a.Roomy) (c : SizeClass) :
    ¬ spare c (a.pool c).ready.cursor := by
  intro hs
  obtain ⟨x, hx, hdead, hbefore⟩ := Pool.cursor_ready (hr c)
  obtain ⟨y, hy, hl⟩ := t.busy c _ hs
  rw [cellAt?] at hy
  rcases hbefore with h | ⟨h, -⟩
  · obtain rfl := Option.some.inj (h.symm.trans hy)
    rw [hdead] at hl
    cases hl
  · rw [h] at hy
    cases hy

/-- The same handle is given in both arenas, and the same object is dropped. -/
theorem allocateIn_eq_allocateIn (t : Twins wide spare a b) (hr : a.Roomy) (hc : c ≠ wide)
    (v w : α) : (a.allocateIn c v).1 = (b.allocateIn c w).1 ∧
      (a.allocateIn c v).2.1 = (b.allocateIn c w).2.1 := by
  have hready := (t.pool c hc).ready
  have hcell := hready.cell _ (t.not_spare_cursor hr c)
  rw [allocateIn_eq, allocateIn_eq]
  dsimp only
  constructor
  · rw [handleAt, handleAt, pool_reserve, pool_reserve, if_pos rfl, if_pos rfl, Pool.nextGeneration,
      Pool.nextGeneration, hcell, hready.cursor, hready.slots]
  · rw [contentAt, contentAt, pool_reserve, pool_reserve, if_pos rfl, if_pos rfl, hcell,
      hready.cursor]

/-- Placing two objects in a class that the arenas have in common. -/
theorem allocateIn (t : Twins wide spare a b) (hr : a.Roomy) (hc : c ≠ wide) (v w : α) :
    Twins wide (fun d i => spare d i ∨ d = c ∧ i = a.position (a.allocateIn c v).1 ∧ v ≠ w)
      (a.allocateIn c v).2.2 (b.allocateIn c w).2.2 := by
  have hfree := t.not_spare_cursor hr c
  have hready := (t.pool c hc).ready
  refine ⟨fun d hd => ?_, fun d i hs => ?_⟩
  · rw [pool_allocateIn, pool_allocateIn]
    split
    · rename_i h
      subst h
      rw [← hready.cursor]
      exact (hready.occupy hfree v w).mono fun i hi =>
        hi.imp_right fun hi => ⟨rfl, hi.1.trans (position_allocateIn a c v).symm, hi.2⟩
    · exact (t.pool d hd).mono fun i => .inl
  · have p := allocateIn_placed hr c v
    rcases hs with hs | ⟨rfl, rfl, -⟩
    · obtain ⟨x, hx, hl⟩ := t.busy d i hs
      refine ⟨x, ?_, hl⟩
      have hne : ¬ (d = c ∧ i = a.position (a.allocateIn c v).1) := by
        rintro ⟨rfl, rfl⟩
        exact hfree (position_allocateIn a d v ▸ hs)
      rcases p.elsewhere d i hne with h | ⟨h, -⟩
      · exact h.trans hx
      · rw [hx] at h
        cases h
    · exact ⟨_, p.here, rfl⟩

theorem modify (t : Twins wide spare a b) (h : Handle) (f : α → α) :
    Twins wide spare (a.modify h f) (b.modify h f) := by
  refine ⟨fun c hc => ?_, fun c i hs => ?_⟩
  · rw [Arena.modify, Arena.modify, pool_modifyPool, pool_modifyPool]
    split
    · rename_i hclass
      subst hclass
      rw [t.position_eq hc]
      exact (t.pool _ hc).update _ f
    · exact t.pool c hc
  · obtain ⟨x, hx, hl⟩ := t.busy c i hs
    rw [cellAt?_modify, hx]
    split
    · exact ⟨_, rfl, hl⟩
    · exact ⟨x, rfl, hl⟩

end Twins

end Arena

end ObjectSpace

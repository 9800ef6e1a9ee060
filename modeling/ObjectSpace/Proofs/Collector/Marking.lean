import ObjectSpace.Collector
import ObjectSpace.Proofs.Arena.Placing
import Mathlib.Data.Set.Card

/-!
# Marking

`Heap.markFrom` works through a stack of handles. If everything that the stack reaches is current,
it marks exactly what the stack reaches on top of what was marked before, changes nothing but
liveness bits, and counts the objects that it marks (`markFrom_marks`).

The proof is an induction over the run of the stack. A visited object has its children put on the
stack in place of itself, so what the stack reaches through unmarked objects stays the same; the
liveness bit is the record of what was visited.
-/

namespace ObjectSpace

namespace Arena

variable {α : Type}

/-- Two arenas hold the same objects in the same generations; liveness bits may differ. -/
structure SameObjects (a b : Arena α) : Prop where
  slots_eq : ∀ c, (b.pool c).slots = (a.pool c).slots
  cells_eq : ∀ c i, (b.cellAt? c i).map (fun x => (x.generation, x.value)) =
    (a.cellAt? c i).map fun x => (x.generation, x.value)

theorem SameObjects.refl (a : Arena α) : SameObjects a a := ⟨fun _ => rfl, fun _ _ => rfl⟩

theorem SameObjects.trans {a b c : Arena α} (h₁ : SameObjects a b) (h₂ : SameObjects b c) :
    SameObjects a c :=
  ⟨fun d => (h₂.slots_eq d).trans (h₁.slots_eq d),
    fun d i => (h₂.cells_eq d i).trans (h₁.cells_eq d i)⟩

theorem SameObjects.position_eq {a b : Arena α} (hs : SameObjects a b) (h : Handle) :
    b.position h = a.position h :=
  position_congr h hs.slots_eq

theorem SameObjects.roomy {a b : Arena α} (hs : SameObjects a b) (hr : a.Roomy) : b.Roomy :=
  fun c => by
    rw [hs.slots_eq]
    exact hr c

/-- A handle names a cell of the same generation and value in both. -/
theorem SameObjects.cell? {a b : Arena α} (hs : SameObjects a b) {h : Handle} {x : Cell α}
    (hx : a.cell? h = some x) : ∃ y, b.cell? h = some y ∧ y.value = x.value := by
  obtain ⟨hslot, hat, hgen⟩ := cell?_eq_some.1 hx
  have he := hs.cells_eq h.sizeClass (a.position h)
  rw [hat, Option.map_some, Option.map_eq_some_iff] at he
  obtain ⟨y, hy, heq⟩ := he
  obtain ⟨hg, hv⟩ := Prod.mk.inj heq
  refine ⟨y, cell?_eq_some.2 ⟨?_, ?_, hg.trans hgen⟩, hv⟩
  · rw [hs.slots_eq]
    exact hslot
  · rw [hs.position_eq, hy]

theorem SameObjects.symm {a b : Arena α} (hs : SameObjects a b) : SameObjects b a :=
  ⟨fun c => (hs.slots_eq c).symm, fun c i => (hs.cells_eq c i).symm⟩

theorem SameObjects.get?_eq {a b : Arena α} (hs : SameObjects a b) (h : Handle) :
    b.get? h = a.get? h := by
  rcases hb : a.cell? h with _ | x
  · rcases hy : b.cell? h with _ | y
    · rw [get?, get?, hb, hy]
    · obtain ⟨z, hz, -⟩ := hs.symm.cell? hy
      rw [hb] at hz
      cases hz
  · obtain ⟨y, hy, hv⟩ := hs.cell? hb
    rw [get?, get?, hb, hy, Option.bind_some, Option.bind_some, hv]

theorem sameObjects_setMark (a : Arena α) (h : Handle) : SameObjects a (a.setMark h) := by
  refine ⟨slots_setMark a h, fun c i => ?_⟩
  rw [cellAt?_setMark]
  split
  · rw [Option.map_map]
    rfl
  · rfl

theorem sameObjects_clearMarks (a : Arena α) : SameObjects a a.clearMarks := by
  refine ⟨slots_clearMarks a, fun c i => ?_⟩
  rw [cellAt?_clearMarks, Option.map_map]
  rfl

theorem isLive_setMark {a : Arena α} {h : Handle} {x : Cell α} (hx : a.cell? h = some x)
    (g : Handle) : (a.setMark h).isLive g = true ↔ g = h ∨ a.isLive g = true := by
  rw [isLive_iff, isLive_iff, cell?_setMark hx]
  by_cases hg : g = h <;> simp [hg]

theorem isLive_clearMarks (a : Arena α) (h : Handle) : a.clearMarks.isLive h = false := by
  rw [isLive, cell?_clearMarks]
  rcases a.cell? h with _ | x <;> rfl

/-! ## The number of live cells -/

theorem totalLive_eq (a : Arena α) : a.totalLive = ∑ c : SizeClass, (a.pool c).liveCount :=
  SizeClass.total_eq_sum _

/-- Changing one element so that it satisfies `p` raises the count by one. -/
theorem countP_modify_succ {β : Type} (p : β → Bool) (f : β → β) (hf : ∀ b, p (f b) = true)
    {l : List β} {i : Nat} {x : β} (hx : l[i]? = some x) (hp : p x = false) :
    (l.modify i f).countP p = l.countP p + 1 := by
  induction l generalizing i with
  | nil => simp at hx
  | cons y ys ih =>
    cases i with
    | zero =>
      simp only [List.getElem?_cons_zero, Option.some.injEq] at hx
      simp [hf, hx, hp]
    | succ i =>
      simp only [List.getElem?_cons_succ] at hx
      simp only [List.modify_succ_cons, List.countP_cons, ih hx]
      omega

theorem liveCount_mark {p : Pool α} {i : Nat} {x : Cell α} (hx : p.cells[i]? = some x)
    (hl : x.live = false) : (p.mark i).liveCount = p.liveCount + 1 := by
  rcases p with ⟨slots, ⟨cells⟩, cursor⟩
  simp only [Pool.liveCount, Pool.mark, List.modify_toArray, List.countP_toArray]
  exact countP_modify_succ _ _ (by simp) (by simpa using hx) hl

/-- Marking a dead cell makes one live cell more. -/
theorem totalLive_setMark {a : Arena α} {h : Handle} {x : Cell α} (hx : a.cell? h = some x)
    (hl : x.live = false) : (a.setMark h).totalLive = a.totalLive + 1 := by
  have hone : ∀ c, ((a.setMark h).pool c).liveCount =
      (a.pool c).liveCount + if c = h.sizeClass then 1 else 0 := by
    intro c
    by_cases hc : h.sizeClass = c
    · subst hc
      rw [setMark, pool_modifyPool, if_pos rfl, if_pos rfl]
      exact liveCount_mark (cellAt?_of_cell? hx) hl
    · rw [setMark, pool_modifyPool, if_neg hc, if_neg (Ne.symm hc), Nat.add_zero]
  rw [totalLive_eq, totalLive_eq, Finset.sum_congr rfl fun c _ => hone c,
    Finset.sum_add_distrib, Finset.sum_ite_eq' Finset.univ h.sizeClass]
  simp

theorem totalLive_clearMarks (a : Arena α) : a.clearMarks.totalLive = 0 := by
  rw [totalLive_eq]
  refine Finset.sum_eq_zero fun c _ => ?_
  rw [pool_clearMarks, Pool.liveCount, Pool.clearMarks, Array.countP_map]
  exact Array.countP_eq_zero.2 (by simp)

end Arena

namespace Heap

/-- What can be reached from a list of handles through the objects that are there. -/
inductive Reaches (heap : Heap) (roots : List Handle) : Handle → Prop
  | root {h : Handle} : h ∈ roots → Reaches heap roots h
  | child {h c : Handle} {o : Object} :
      Reaches heap roots h → heap.get? h = some o → c ∈ o.children → Reaches heap roots c

theorem mem_childrenOf {heap : Heap} {h c : Handle} :
    c ∈ heap.childrenOf h ↔ ∃ o, heap.get? h = some o ∧ c ∈ o.children := by
  unfold childrenOf
  rcases heap.get? h with _ | o <;> simp

/-- Reaching depends on the objects and not on the liveness bits. -/
theorem Reaches.congr {heap other : Heap} (hs : Arena.SameObjects heap other)
    {roots : List Handle} {h : Handle} (r : Reaches heap roots h) : Reaches other roots h := by
  induction r with
  | root hm => exact .root hm
  | child _ ho hc ih => exact .child ih (by rw [hs.get?_eq, ho]) hc

/-- What is reached from handles that are reached is reached. -/
theorem Reaches.trans {heap : Heap} {roots stack : List Handle}
    (hs : ∀ g ∈ stack, Reaches heap roots g) {h : Handle} (r : Reaches heap stack h) :
    Reaches heap roots h := by
  induction r with
  | root hm => exact hs _ hm
  | child _ ho hc ih => exact .child ih ho hc

/-- What marking from a stack comes to: `m` is its result from `heap` and `count`. -/
structure Marks (heap : Heap) (count : Nat) (stack : List Handle) (m : Marking) : Prop where
  stale : m.stale = none
  same : Arena.SameObjects heap m.heap
  kept : ∀ h, heap.isLive h → m.heap.isLive h
  sound : ∀ h, m.heap.isLive h → heap.isLive h ∨ Reaches heap stack h
  top : ∀ h ∈ stack, m.heap.isLive h
  closed : ∀ h, m.heap.isLive h → ¬ heap.isLive h → ∀ c ∈ heap.childrenOf h, m.heap.isLive c
  /-- A bit that is set was set before, or it is the bit of a handle. -/
  named : ∀ c i x, m.heap.cellAt? c i = some x → x.live = true →
    (∃ y, heap.cellAt? c i = some y ∧ y.live = true) ∨
      ∃ h, m.heap.isLive h ∧ h.sizeClass = c ∧ heap.position h = i
  count_live : m.count + heap.totalLive = count + m.heap.totalLive
  /-- The objects newly marked, each once, are as many as were counted. -/
  count_new : ∃ l : List Handle, l.Nodup ∧
    (∀ h, h ∈ l ↔ m.heap.isLive h ∧ ¬ heap.isLive h) ∧ m.count = count + l.length

/-- Passing over a handle that is marked already. -/
theorem Marks.skip {heap : Heap} {count : Nat} {h : Handle} {rest : List Handle} {m : Marking}
    (hm : Marks heap count rest m) (hl : heap.isLive h) : Marks heap count (h :: rest) m :=
  { hm with
    sound := fun g hg => (hm.sound g hg).imp_right fun r =>
      r.trans fun _ hk => .root (List.mem_cons_of_mem _ hk)
    top := fun g hg => by
      rcases List.mem_cons.1 hg with rfl | hg
      · exact hm.kept _ hl
      · exact hm.top g hg }

/-- The object that is visited joins those that are marked after it. -/
theorem new_visit {heap heap' : Heap} {h : Handle} {x : Cell Object} {l : List Handle}
    (hx : heap.cell? h = some x) (hl : x.live = false)
    (hkept : ∀ g, (heap.setMark h).isLive g → heap'.isLive g) (hnodup : l.Nodup)
    (hmem : ∀ g, g ∈ l ↔ heap'.isLive g ∧ ¬ (heap.setMark h).isLive g) :
    (h :: l).Nodup ∧ ∀ g, g ∈ h :: l ↔ heap'.isLive g ∧ ¬ heap.isLive g := by
  have hlive : ∀ g, (heap.setMark h).isLive g = true ↔ g = h ∨ heap.isLive g = true :=
    Arena.isLive_setMark hx
  have hdead : ¬ heap.isLive h = true := by
    rw [Arena.isLive_iff, hx]
    simp [hl]
  refine ⟨List.nodup_cons.2 ⟨fun hh => ((hmem h).1 hh).2 ((hlive h).2 (.inl rfl)), hnodup⟩,
    fun g => ?_⟩
  rw [List.mem_cons, hmem, hlive]
  constructor
  · rintro (rfl | ⟨hg, hnot⟩)
    · exact ⟨hkept _ ((hlive _).2 (.inl rfl)), hdead⟩
    · exact ⟨hg, fun hg => hnot (.inr hg)⟩
  · rintro ⟨hg, hnot⟩
    by_cases hgh : g = h
    · exact .inl hgh
    · exact .inr ⟨hg, fun hor => hor.elim hgh hnot⟩

/-- Visiting an object: its bit is set and its children take its place on the stack. -/
theorem Marks.visit {heap : Heap} {count : Nat} {h : Handle} {x : Cell Object}
    {rest stack : List Handle} {m : Marking} (hx : heap.cell? h = some x) (hl : x.live = false)
    (hstack : ∀ g, g ∈ stack ↔ g ∈ heap.childrenOf h ∨ g ∈ rest)
    (hm : Marks (heap.setMark h) (count + 1) stack m) : Marks heap count (h :: rest) m := by
  have hsame := Arena.sameObjects_setMark heap h
  have hlive : ∀ g, (heap.setMark h).isLive g = true ↔ g = h ∨ heap.isLive g = true :=
    Arena.isLive_setMark hx
  have hchildren : ∀ g, Heap.childrenOf (heap.setMark h) g = heap.childrenOf g := fun g => by
    rw [childrenOf, childrenOf, hsame.get?_eq]
  have hreach : ∀ g ∈ stack, Reaches heap (h :: rest) g := fun g hg => by
    rcases (hstack g).1 hg with hc | hg
    · obtain ⟨o, ho, hc⟩ := mem_childrenOf.1 hc
      exact .child (.root List.mem_cons_self) ho hc
    · exact .root (List.mem_cons_of_mem _ hg)
  refine
    { stale := hm.stale
      same := hsame.trans hm.same
      kept := fun g hg => hm.kept g ((hlive g).2 (.inr hg))
      sound := fun g hg => ?_
      top := fun g hg => ?_
      closed := fun g hg hgd c hc => ?_
      named := fun c i y hy hyl => ?_
      count_live := ?_
      count_new := ?_ }
  · rcases hm.sound g hg with hg | r
    · rcases (hlive g).1 hg with rfl | hg
      · exact .inr (.root List.mem_cons_self)
      · exact .inl hg
    · exact .inr ((r.congr hsame.symm).trans hreach)
  · rcases List.mem_cons.1 hg with rfl | hg
    · exact hm.kept _ ((hlive _).2 (.inl rfl))
    · exact hm.top g ((hstack g).2 (.inr hg))
  · by_cases hgh : g = h
    · subst hgh
      exact hm.top c ((hstack c).2 (.inl hc))
    · have hgd' : ¬ (heap.setMark h).isLive g = true := fun hg =>
        ((hlive g).1 hg).elim hgh hgd
      exact hm.closed g hg hgd' c (by rw [hchildren]; exact hc)
  · rcases hm.named c i y hy hyl with ⟨z, hz, hzl⟩ | ⟨k, hk, hc, hp⟩
    · rw [Arena.cellAt?_setMark] at hz
      by_cases hat : h.sizeClass = c ∧ heap.position h = i
      · exact .inr ⟨h, hm.kept h ((hlive h).2 (.inl rfl)), hat⟩
      · rw [if_neg hat] at hz
        exact .inl ⟨z, hz, hzl⟩
    · exact .inr ⟨k, hk, hc, by rw [← Arena.position_setMark heap h]; exact hp⟩
  · have := hm.count_live
    rw [Arena.totalLive_setMark hx hl] at this
    omega
  · obtain ⟨l, hnodup, hmem, hcount⟩ := hm.count_new
    obtain ⟨hnodup', hmem'⟩ := new_visit hx hl hm.kept hnodup hmem
    refine ⟨h :: l, hnodup', hmem', ?_⟩
    rw [hcount, List.length_cons]
    omega

/-- Marking changes nothing but liveness bits, also when it stops. -/
theorem sameObjects_markFrom (heap : Heap) (count : Nat) (stack : List Handle) :
    Arena.SameObjects heap (markFrom heap count stack).heap := by
  fun_induction markFrom heap count stack with
  | case1 | case2 => exact .refl _
  | case3 heap count h rest x hx hl ih => exact ih
  | case4 heap count h rest x hx hl children ih => exact (Arena.sameObjects_setMark heap h).trans ih

/-- Marking that meets no stale handle marks the stack, and unmarks nothing. -/
theorem live_of_markFrom (heap : Heap) (count : Nat) (stack : List Handle)
    (hs : (markFrom heap count stack).stale = none) {g : Handle}
    (hg : heap.isLive g = true ∨ g ∈ stack) :
    (markFrom heap count stack).heap.isLive g = true := by
  fun_induction markFrom heap count stack with
  | case1 heap count => exact hg.resolve_right List.not_mem_nil
  | case2 heap count h rest hx => cases hs
  | case3 heap count h rest x hx hl ih =>
    refine ih hs ?_
    rw [List.mem_cons] at hg
    rcases hg with hg | rfl | hg
    · exact .inl hg
    · exact .inl (Arena.isLive_iff.2 ⟨x, hx, hl⟩)
    · exact .inr hg
  | case4 heap count h rest x hx hl children ih =>
    refine ih hs ?_
    rw [Arena.isLive_setMark hx, List.reverseAux_eq, List.mem_append]
    rw [List.mem_cons] at hg
    tauto

/-- **Marking.** When everything the stack reaches is current, marking ends without meeting a
stale handle and marks what the stack reaches. -/
theorem markFrom_marks (heap : Heap) (count : Nat) (stack : List Handle)
    (hcur : ∀ h, Reaches heap stack h → heap.isCurrent h) :
    Marks heap count stack (markFrom heap count stack) := by
  fun_induction markFrom heap count stack with
  | case1 heap count =>
    exact
      { stale := rfl
        same := .refl heap
        kept := fun h hl => hl
        sound := fun h hl => .inl hl
        top := fun h hh => by cases hh
        closed := fun h hl hd => absurd hl hd
        named := fun c i x hx hl => .inl ⟨x, hx, hl⟩
        count_live := rfl
        count_new := ⟨[], List.nodup_nil, fun h => by simp, rfl⟩ }
  | case2 heap count h rest hnone =>
    obtain ⟨o, ho⟩ := Arena.isCurrent_iff.1 (hcur h (.root List.mem_cons_self))
    obtain ⟨x, hx, -⟩ := Arena.get?_eq_some.1 ho
    rw [hnone] at hx
    cases hx
  | case3 heap count h rest x hx hl ih =>
    refine (ih fun g r => hcur g ?_).skip (Arena.isLive_iff.2 ⟨x, hx, hl⟩)
    exact r.trans fun k hk => .root (List.mem_cons_of_mem _ hk)
  | case4 heap count h rest x hx hl children ih =>
    have hstack : ∀ g, g ∈ children.reverseAux rest ↔ g ∈ heap.childrenOf h ∨ g ∈ rest := by
      intro g
      rw [List.reverseAux_eq, List.mem_append, List.mem_reverse]
    refine Marks.visit hx (by simpa using hl) hstack (ih fun g r => ?_)
    have hsame := Arena.sameObjects_setMark heap h
    have hg : heap.isCurrent g := by
      refine hcur g ((r.congr hsame.symm).trans fun k hk => ?_)
      rcases (hstack k).1 hk with hc | hk
      · obtain ⟨o, ho, hc⟩ := mem_childrenOf.1 hc
        exact .child (.root List.mem_cons_self) ho hc
      · exact .root (List.mem_cons_of_mem _ hk)
    rw [Arena.isCurrent, hsame.get?_eq]
    exact hg

end Heap

end ObjectSpace

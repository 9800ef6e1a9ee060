import ObjectSpace.Proofs.Collector.Marking

/-!
# Collections

**Theorem (`collectNow_collected`).** A collection from a state in which no stale handle can be
reached from the roots ends, whatever the objects refer to, and leaves exactly the objects live
that can be reached: see `Collected`.

The stack that marking starts from holds the roots, and all bits are clear then, so what is live
afterwards is what `Heap.markFrom_marks` says was marked.
-/

namespace ObjectSpace

namespace Heap

/-- The contexts from `c` outwards. -/
inductive Encloses (heap : Heap) (c : Handle) : Handle → Prop
  | self : Encloses heap c c
  | parent {d p : Handle} {k : Context} : Encloses heap c d →
      heap.get? d = some (.context k) → k.parent = some p → Encloses heap c p

/-- Whatever keeps a context alive keeps its callers alive. -/
theorem Encloses.reaches {heap : Heap} {roots : List Handle} {c p : Handle}
    (e : Encloses heap c p) (hc : Reaches heap roots c) : Reaches heap roots p := by
  induction e with
  | self => exact hc
  | parent _ hk hp ih =>
    refine .child ih hk ?_
    simp [Object.children, Context.children, hp]

end Heap

namespace Space

/-- What a collection makes of a state, given how marking went. -/
def collected (s : Space) (m : Marking) : Space :=
  { s with
    heap := m.heap
    pending := 0
    collections := s.collections + 1
    lastMarked := m.count
    totalMarked := s.totalMarked + m.count }

theorem collectNow_eq (ctx : Handle) (inFlight : Option Handle) (s : Space) {m : Marking}
    (hm : Heap.markFrom s.heap.clearMarks 0 (s.roots ctx inFlight).reverse = m)
    (hs : m.stale = none) : collectNow ctx inFlight s = .ok () (s.collected m) := by
  subst hm
  simp only [collectNow, mark, bind, EStateM.bind, get_apply, modify_apply,
    modifyGet_apply, hs]
  rfl

theorem collectNow_eq_error (ctx : Handle) (inFlight : Option Handle) (s : Space) {m : Marking}
    {h : Handle} (hm : Heap.markFrom s.heap.clearMarks 0 (s.roots ctx inFlight).reverse = m)
    (hs : m.stale = some h) : collectNow ctx inFlight s =
      .error (.violation (.staleMark h)) { s with heap := m.heap, pending := 0 } := by
  subst hm
  simp only [collectNow, mark, bind, EStateM.bind, get_apply, modify_apply,
    modifyGet_apply, hs]
  rfl

/-- A collection that completes leaves a space that was marked from its roots. -/
theorem collected_of_ok {s s' : Space} {ctx : Handle} {inFlight : Option Handle}
    (h : collectNow ctx inFlight s = .ok () s') :
    ∃ m, Heap.markFrom s.heap.clearMarks 0 (s.roots ctx inFlight).reverse = m ∧ m.stale = none ∧
      s' = s.collected m := by
  refine ⟨_, rfl, ?_⟩
  cases hs : (Heap.markFrom s.heap.clearMarks 0 (s.roots ctx inFlight).reverse).stale with
  | none =>
    rw [collectNow_eq ctx inFlight s rfl hs] at h
    cases h
    exact ⟨rfl, rfl⟩
  | some g =>
    rw [collectNow_eq_error ctx inFlight s rfl hs] at h
    cases h

/-- How a collection leaves a space `s'` that was `s`. -/
structure Collected (s : Space) (ctx : Handle) (inFlight : Option Handle) (s' : Space) :
    Prop where
  /-- The live objects are those that can be reached from the roots. -/
  live_iff : ∀ h, s'.heap.isLive h = true ↔ s.heap.Reaches (s.roots ctx inFlight) h
  /-- No bit is set but theirs. -/
  bit_iff : ∀ c i x, s'.heap.cellAt? c i = some x → (x.live = true ↔
    ∃ h, s.heap.Reaches (s.roots ctx inFlight) h ∧ h.sizeClass = c ∧ s.heap.position h = i)
  /-- All contexts that enclose the one that runs are live. -/
  chain : ∀ p, s.heap.Encloses ctx p → s'.heap.isLive p = true
  finite : {h | s.heap.Reaches (s.roots ctx inFlight) h}.Finite
  lastMarked_eq : s'.lastMarked = {h | s.heap.Reaches (s.roots ctx inFlight) h}.ncard
  lastMarked_eq_totalLive : s'.lastMarked = s'.heap.totalLive
  /-- Contents and generations are as before. -/
  same : Arena.SameObjects s.heap s'.heap
  pending_eq : s'.pending = 0
  /-- Nothing but the counters is different in the rest of the space. -/
  rest : s' =
    { s with
      heap := s'.heap
      pending := 0
      collections := s.collections + 1
      lastMarked := s'.lastMarked
      totalMarked := s.totalMarked + s'.lastMarked }

theorem mem_roots_ctx (s : Space) (ctx : Handle) (inFlight : Option Handle) :
    ctx ∈ s.roots ctx inFlight :=
  List.mem_append_right _ List.mem_cons_self

/-- What can be reached does not depend on the bits, nor on the order of the stack. -/
theorem reaches_stack (s : Space) (ctx : Handle) (inFlight : Option Handle) (h : Handle) :
    Heap.Reaches s.heap.clearMarks (s.roots ctx inFlight).reverse h ↔
      s.heap.Reaches (s.roots ctx inFlight) h := by
  have hsame := Arena.sameObjects_clearMarks s.heap
  constructor
  · intro r
    exact (r.congr hsame.symm).trans fun g hg => .root (List.mem_reverse.1 hg)
  · intro r
    exact (r.congr hsame).trans fun g hg => .root (List.mem_reverse.2 hg)

/-- A marking from the cleared heap is a collection. -/
theorem collected_of_marks {s : Space} {ctx : Handle} {inFlight : Option Handle} {m : Marking}
    (hm : Heap.Marks s.heap.clearMarks 0 (s.roots ctx inFlight).reverse m) :
    Collected s ctx inFlight (s.collected m) := by
  have hsame := Arena.sameObjects_clearMarks s.heap
  have hclear : ∀ h, ¬ Arena.isLive s.heap.clearMarks h = true := fun h => by
    rw [Arena.isLive_clearMarks]
    exact Bool.false_ne_true
  have hlive : ∀ h, m.heap.isLive h = true ↔ s.heap.Reaches (s.roots ctx inFlight) h := by
    intro h
    rw [← reaches_stack]
    constructor
    · exact fun hl => (hm.sound h hl).resolve_left (hclear h)
    · intro r
      induction r with
      | root hmem => exact hm.top _ hmem
      | child _ ho hc ih => exact hm.closed _ ih (hclear _) _ (Heap.mem_childrenOf.2 ⟨_, ho, hc⟩)
  obtain ⟨l, hnodup, hmem, hcount⟩ := hm.count_new
  have hset : {h | s.heap.Reaches (s.roots ctx inFlight) h} = (l.toFinset : Set Handle) := by
    ext h
    simp [hmem, hclear, hlive]
  refine
    { live_iff := hlive
      bit_iff := fun c i x hx => ?_
      chain := fun p e => (hlive p).2 (e.reaches (.root (mem_roots_ctx s ctx inFlight)))
      finite := hset ▸ l.toFinset.finite_toSet
      lastMarked_eq := ?_
      lastMarked_eq_totalLive := ?_
      same := hsame.trans hm.same
      pending_eq := rfl
      rest := rfl }
  · constructor
    · intro hl
      rcases hm.named c i x hx hl with ⟨y, hy, hyl⟩ | ⟨h, hh, hc, hp⟩
      · rw [Arena.cellAt?_clearMarks, Option.map_eq_some_iff] at hy
        obtain ⟨z, -, rfl⟩ := hy
        cases hyl
      · exact ⟨h, (hlive h).1 hh, hc, by rw [← Arena.position_clearMarks]; exact hp⟩
    · rintro ⟨h, r, rfl, rfl⟩
      obtain ⟨y, hy, hyl⟩ := Arena.isLive_iff.1 ((hlive h).2 r)
      have hat := Arena.cellAt?_of_cell? hy
      rw [hm.same.position_eq, Arena.position_clearMarks] at hat
      rw [show m.heap.cellAt? h.sizeClass (s.heap.position h) = some x from hx,
        Option.some.injEq] at hat
      rw [hat, hyl]
  · rw [hset, Set.ncard_coe_finset, List.toFinset_card_of_nodup hnodup]
    exact hcount.trans (Nat.zero_add _)
  · have htotal := hm.count_live
    rw [Arena.totalLive_clearMarks, Nat.add_zero, Nat.zero_add] at htotal
    exact htotal

/-- Marking from the roots meets no stale handle when none can be reached. -/
theorem marks_roots (s : Space) (ctx : Handle) (inFlight : Option Handle)
    (hcur : ∀ h, s.heap.Reaches (s.roots ctx inFlight) h → s.heap.isCurrent h = true) :
    Heap.Marks s.heap.clearMarks 0 (s.roots ctx inFlight).reverse
      (Heap.markFrom s.heap.clearMarks 0 (s.roots ctx inFlight).reverse) :=
  Heap.markFrom_marks s.heap.clearMarks 0 (s.roots ctx inFlight).reverse fun h r => by
    rw [Arena.isCurrent, (Arena.sameObjects_clearMarks s.heap).get?_eq]
    exact hcur h ((reaches_stack s ctx inFlight h).1 r)

/-- **Collection.** When no stale handle can be reached from the roots, a collection ends and
leaves live exactly what can be reached. -/
theorem collectNow_collected (s : Space) (ctx : Handle) (inFlight : Option Handle)
    (hcur : ∀ h, s.heap.Reaches (s.roots ctx inFlight) h → s.heap.isCurrent h = true) :
    ∃ s', collectNow ctx inFlight s = .ok () s' ∧ Collected s ctx inFlight s' := by
  have hm := marks_roots s ctx inFlight hcur
  exact ⟨_, collectNow_eq ctx inFlight s rfl hm.stale, collected_of_marks hm⟩

/-- The first handle for a list. -/
def knotHandle : Handle :=
  { sizeClass := (Object.list #[]).sizeClass, block := 0, slot := 0, generation := 1 }

/-- A heap with one object, a list that holds itself twice. -/
def knotHeap : Heap :=
  ((Arena.empty { blockSize := 256 }).allocateIn (Object.list #[]).sizeClass
    (.list #[knotHandle, knotHandle])).2.2

/-- A space in which every permanent handle is that of the list. -/
def knot : Space :=
  { heap := knotHeap
    threshold := 1
    moduleName := ""
    noneValue := knotHandle
    trueValue := knotHandle
    falseValue := knotHandle
    types := Vector.replicate 31 knotHandle
    methods := Vector.replicate 39 knotHandle
    pending := 1 }

theorem get?_knotHandle : knotHeap.get? knotHandle = some (.list #[knotHandle, knotHandle]) := by
  have hroom : (Arena.empty { blockSize := 256 } : Heap).Roomy := fun c => by
    rw [(Arena.empty_start _).2]
    exact Arena.slots_pos_of_check rfl c
  have hplaced := Arena.allocateIn_placed hroom (Object.list #[]).sizeClass
    (.list #[knotHandle, knotHandle])
  have hh : ((Arena.empty { blockSize := 256 }).allocateIn (Object.list #[]).sizeClass
      (Object.list #[knotHandle, knotHandle])).1 = knotHandle := by decide +kernel
  rw [hh] at hplaced
  exact hplaced.get?_self

theorem reaches_knot (h : Handle) :
    knotHeap.Reaches (knot.roots knotHandle none) h ↔ h = knotHandle := by
  constructor
  · intro r
    induction r with
    | root hm => simpa [roots, permanentRoots, knot] using hm
    | child _ ho hc ih =>
      rw [ih, get?_knotHandle, Option.some.injEq] at ho
      subst ho
      simpa [Object.children] using hc
  · rintro rfl
    exact .root (mem_roots_ctx knot knotHandle none)

theorem collectNow_collected_knot :
    ∃ s', collectNow knotHandle none knot = .ok () s' ∧ s'.heap.isLive knotHandle = true ∧
      s'.lastMarked = 1 := by
  obtain ⟨s', hs', hc⟩ := collectNow_collected knot knotHandle none fun h r => by
    rw [(reaches_knot h).1 r]
    exact Arena.isCurrent_iff.2 ⟨_, get?_knotHandle⟩
  refine ⟨s', hs', (hc.live_iff _).2 ((reaches_knot _).2 rfl), ?_⟩
  have hset : {h | knot.heap.Reaches (knot.roots knotHandle none) h} = {knotHandle} :=
    Set.ext reaches_knot
  rw [hc.lastMarked_eq, hset, Set.ncard_singleton]

end Space

end ObjectSpace

import ObjectSpace.Proofs.Run.Create
import ObjectSpace.Proofs.Run.Turn

/-!
# Runs on live handles

**Theorem (`live_closed`).** If every turn of a run is given live handles only, then at every point
of the run what live objects hold is live, the permanent roots are live, and so is every handle
that a turn gives back; no turn stops at a stale handle, and collections complete.

The invariant is `Sound`. Primitive steps keep it, since the cell that is taken for a new object is
not live, and a collection keeps it, since it leaves live what the roots reach. Nothing depends on
how often a slot was handed out: a live handle is the last one that was issued for its slot, and
the slot is not handed out again as long as the handle is live.
-/

namespace ObjectSpace

/-- The spaces that runs lead to in which every handle given is live. -/
inductive LiveRun (settings : Settings) (disk : Disk) : Space → Prop
  | start {s : Space} : Space.create settings disk = .ok s → LiveRun settings disk s
  | turn {s : Space} (t : Turn) : LiveRun settings disk s →
      (∀ h ∈ t.handles, s.heap.isLive h = true) → LiveRun settings disk (t.leave s)

/-! ## The invariant -/

namespace Space

/-- Every live cell has an object, what it holds is live, and the permanent roots are live. -/
structure Sound (s : Space) : Prop where
  roomy : s.heap.Roomy
  closed : ∀ c i x, s.heap.cellAt? c i = some x → x.live = true →
    ∃ o, x.value = some o ∧ ∀ h ∈ o.children, s.heap.isLive h = true
  roots : ∀ h ∈ s.permanentRoots, s.heap.isLive h = true

variable {s s' : Space} {h : Handle}

theorem Sound.get? (i : s.Sound) (hh : s.heap.isLive h = true) :
    ∃ o, s.heap.get? h = some o ∧ ∀ c ∈ o.children, s.heap.isLive c = true := by
  obtain ⟨x, hx, hl⟩ := Arena.isLive_iff.1 hh
  obtain ⟨o, ho, hc⟩ := i.closed _ _ x (Arena.cellAt?_of_cell? hx) hl
  exact ⟨o, Arena.get?_eq_some.2 ⟨x, hx, ho⟩, hc⟩

theorem Sound.reaches (i : s.Sound) {roots : List Handle}
    (hr : ∀ g ∈ roots, s.heap.isLive g = true) (r : s.heap.Reaches roots h) :
    s.heap.isLive h = true := by
  induction r with
  | root hm => exact hr _ hm
  | child _ ho hc ih =>
    obtain ⟨p, hp, hlive⟩ := i.get? ih
    rw [ho, Option.some.injEq] at hp
    exact hlive _ (hp ▸ hc)

theorem Sound.placed (i : s.Sound) {o : Object} {c : SizeClass} {old : Option Object}
    {heap : Heap} (p : Arena.Placed s.heap c o h old heap)
    (hc : ∀ g ∈ o.children, s.heap.isLive g = true) :
    ∀ d j x, heap.cellAt? d j = some x → x.live = true →
      ∃ o, x.value = some o ∧ ∀ g ∈ o.children, heap.isLive g = true := by
  intro d j x hx hl
  rcases p.cellAt?_live hx hl with ho | hold
  · exact ⟨o, ho, fun g hg => p.isLive_iff.2 (.inr (hc g hg))⟩
  · obtain ⟨w, hw, hlive⟩ := i.closed d j x hold hl
    exact ⟨w, hw, fun g hg => p.isLive_iff.2 (.inr (hlive g hg))⟩

theorem Sound.modify (i : s.Sound) {o : Object} {f : Object → Object}
    (ho : s.heap.get? h = some o) (hc : ∀ g ∈ (f o).children, s.heap.isLive g = true) :
    ∀ d j x, (s.heap.modify h f).cellAt? d j = some x → x.live = true →
      ∃ o, x.value = some o ∧ ∀ g ∈ o.children, (s.heap.modify h f).isLive g = true := by
  obtain ⟨z, hz, hzv⟩ := Arena.get?_eq_some.1 ho
  have hlive : ∀ g, s.heap.isLive g = true → (s.heap.modify h f).isLive g = true := fun g hg => by
    rw [Arena.isLive_modify ho]
    exact hg
  intro d j x hx hl
  rw [Arena.cellAt?_modify] at hx
  split at hx
  · rename_i hp
    obtain ⟨rfl, rfl⟩ := hp
    rw [Arena.cellAt?_of_cell? hz, Option.map_some, Option.some.injEq] at hx
    subst hx
    exact ⟨f o, by rw [hzv, Option.map_some], fun g hg => hlive g (hc g hg)⟩
  · obtain ⟨w, hw, hwl⟩ := i.closed d j x hx hl
    exact ⟨w, hw, fun g hg => hlive g (hwl g hg)⟩

/-- Primitive steps that bring in live handles keep the invariant. -/
theorem Sound.step (i : s.Sound) (st : Step (fun heap g => heap.isLive g = true) s s') :
    s'.Sound := by
  refine ⟨st.roomy i.roomy, ?_, fun g hg => st.kept.live ((st.root hg).elim (i.roots g) id)⟩
  cases st with
  | alloc p _ hc => exact i.placed p hc
  | update ho _ _ hc => exact i.modify ho hc
  | output | disk | integer | text | globals => exact i.closed

end Space

/-- The trust under which handles are `ok` when they are live. -/
def liveTrust : Trust where
  holds := Space.Sound
  ok heap h := heap.isLive h = true
  roomy i := i.roomy
  root i hh := i.roots _ hh
  child i hh ho hc := by
    obtain ⟨p, hp, hlive⟩ := i.get? hh
    rw [ho, Option.some.injEq] at hp
    exact hlive _ (hp ▸ hc)
  step i st := i.step st
  ok_step _ st hh := st.kept.live hh
  ok_placed _ p := p.isLive_self

/-- A computation that runs on live handles does not stop at a stale one. -/
theorem Space.Sound.not_stale {s : Space} (i : s.Sound) {v : Violation}
    (he : liveTrust.Excused s.heap (.violation v)) (h : Handle) :
    v ≠ .staleHandle h ∧ v ≠ .staleMark h := by
  refine ⟨fun hv => ?_, fun hv => ?_⟩
  · subst hv
    obtain ⟨hlive, hnone⟩ := he
    obtain ⟨o, ho, -⟩ := i.get? hlive
    rw [hnone] at ho
    cases ho
  · subst hv
    exact he

namespace Space

theorem Sown.sound {a b : Heap} (hf : a.AllFresh) (hs : Heap.Sown Object.Permanent a b) :
    ∀ c i x, b.cellAt? c i = some x → x.live = true →
      ∃ o, x.value = some o ∧ o.children = [] := by
  induction hs with
  | refl =>
    intro c i x hx hl
    rw [hf c i x hx] at hl
    cases hl
  | place _ ho p ih =>
    intro c i x hx hl
    rcases p.cellAt?_live hx hl with hnew | hold
    · exact ⟨_, hnew, ho.children_eq⟩
    · exact ih c i x hold hl

theorem create_sound {settings : Settings} {disk : Disk} {s : Space}
    (h : create settings disk = .ok s) : s.Sound := by
  obtain ⟨a, hr, hf, hs, hroots⟩ := create_sown h
  refine ⟨hs.roomy hr, fun c i x hx hl => ?_, hroots⟩
  obtain ⟨o, ho, hc⟩ := Sown.sound hf hs c i x hx hl
  exact ⟨o, ho, by simp [hc]⟩

theorem Sound.reaches_roots {s : Space} (i : s.Sound) {ctx h : Handle}
    {inFlight : Option Handle} (hg : ∀ h ∈ ctx :: inFlight.toList, s.heap.isLive h = true)
    (r : s.heap.Reaches (s.roots ctx inFlight) h) : s.heap.isLive h = true :=
  i.reaches (fun g hm => (List.mem_append.1 hm).elim (i.roots g) (hg g)) r

theorem Sound.current {s : Space} (i : s.Sound) {h : Handle} (hh : s.heap.isLive h = true) :
    s.heap.isCurrent h = true := by
  obtain ⟨o, ho, -⟩ := i.get? hh
  exact Arena.isCurrent_iff.2 ⟨o, ho⟩

theorem Sound.collects {s : Space} (i : s.Sound) {ctx : Handle} {inFlight : Option Handle}
    (hg : ∀ h ∈ ctx :: inFlight.toList, s.heap.isLive h = true) :
    ∃ s', Space.collectNow ctx inFlight s = .ok () s' ∧ Collected s ctx inFlight s' := by
  have hm := marks_roots s ctx inFlight fun h r => i.current (i.reaches_roots hg r)
  exact ⟨_, collectNow_eq ctx inFlight s rfl hm.stale, collected_of_marks hm⟩

/-- A collection from live handles keeps the invariant. -/
theorem Sound.collected {s s' : Space} (i : s.Sound) {ctx : Handle} {inFlight : Option Handle}
    (hg : ∀ h ∈ ctx :: inFlight.toList, s.heap.isLive h = true)
    (hc : Collected s ctx inFlight s') : s'.Sound := by
  refine ⟨hc.same.roomy i.roomy, fun c j x hx hl => ?_, fun h hh => ?_⟩
  · obtain ⟨h, r, rfl, rfl⟩ := (hc.bit_iff c j x hx).1 hl
    obtain ⟨o, ho, -⟩ := i.get? (i.reaches_roots hg r)
    obtain ⟨y, hy, hyv⟩ := Arena.get?_eq_some.1 ho
    obtain ⟨z, hz, hzv⟩ := hc.same.cell? hy
    have hat := Arena.cellAt?_of_cell? hz
    rw [hc.same.position_eq, hx, Option.some.injEq] at hat
    subst hat
    exact ⟨o, hzv.trans hyv, fun g hg => (hc.live_iff g).2 (.child r ho hg)⟩
  · rw [hc.rest] at hh
    exact (hc.live_iff h).2 (.root (List.mem_append_left _ hh))

theorem Sound.collectNow {s : Space} (i : s.Sound) {ctx : Handle} {inFlight : Option Handle}
    (hg : ∀ h ∈ ctx :: inFlight.toList, s.heap.isLive h = true) :
    ∃ s', Space.collectNow ctx inFlight s = .ok () s' ∧ s'.Sound ∧
      ∀ h, s'.heap.isLive h = true → s.heap.isLive h = true := by
  obtain ⟨s', hs', hc⟩ := i.collects hg
  exact ⟨s', hs', i.collected hg hc, fun h hh => i.reaches_roots hg ((hc.live_iff h).1 hh)⟩

/-- How a turn on live handles ends. -/
def Fine : EStateM.Result Halt Space (List Handle) → Prop
  | .ok hs s => s.Sound ∧ ∀ h ∈ hs, s.heap.isLive h = true
  | .error e s => s.Sound ∧ liveTrust.Excused s.heap e

theorem Sound.operation {s : Space} (i : s.Sound) (op : Operation)
    (hg : ∀ h ∈ op.handles, s.heap.isLive h = true) : Fine (op.run s) := by
  have hr := (Trust.runs_operation (T := liveTrust) op hg).result i
  cases ho : op.run s with
  | ok hs s' =>
    rw [ho] at hr
    exact ⟨hr.1.holds, fun h hh => hr.2 h (List.mem_flatMap.2 ⟨h, hh, List.mem_singleton_self h⟩)⟩
  | error e s' =>
    rw [ho] at hr
    exact ⟨hr.1.holds, hr.2⟩

/-- A turn that is given live handles keeps the invariant and gives live handles back. -/
theorem Sound.turn {s : Space} (i : s.Sound) (t : Turn)
    (hg : ∀ h ∈ t.handles, s.heap.isLive h = true) : Fine (t.run s) := by
  cases t with
  | operation op => exact i.operation op hg
  | collectNow ctx inFlight =>
    obtain ⟨s', hs', i', -⟩ := i.collectNow hg
    rw [Turn.run, returned_eq_ok hs']
    exact ⟨i', List.forall_mem_nil _⟩
  | collectIfDue ctx inFlight =>
    obtain ⟨s', hs', i', -⟩ := i.collectNow hg
    have hdue := collectIfDue_eq ctx inFlight s
    rw [hs'] at hdue
    rw [Turn.run]
    split at hdue
    · rw [returned_eq_ok hdue]
      exact ⟨i, List.forall_mem_nil _⟩
    · rw [returned_eq_ok hdue]
      exact ⟨i', List.forall_mem_nil _⟩

theorem Sound.leave {s : Space} (i : s.Sound) (t : Turn)
    (hg : ∀ h ∈ t.handles, s.heap.isLive h = true) : (t.leave s).Sound := by
  have hf := i.turn t hg
  unfold Turn.leave
  cases ht : t.run s with
  | ok hs s' =>
    rw [ht] at hf
    exact hf.1
  | error e s' =>
    rw [ht] at hf
    exact hf.1

theorem Sound.live_of_collect {s : Space} (i : s.Sound) {t : Turn} (ht : t.Collects)
    (hg : ∀ h ∈ t.handles, s.heap.isLive h = true) :
    ∀ h, (t.leave s).heap.isLive h = true → s.heap.isLive h = true := by
  cases t with
  | operation op => exact ht.elim
  | collectNow ctx inFlight =>
    obtain ⟨s', hs', -, hlive⟩ := i.collectNow hg
    rw [Turn.leave, Turn.run, leftBy_returned, hs']
    exact hlive
  | collectIfDue ctx inFlight =>
    obtain ⟨s', hs', -, hlive⟩ := i.collectNow hg
    rw [Turn.leave, Turn.run, leftBy_returned, collectIfDue_eq, hs']
    split
    · exact fun _ => id
    · exact hlive

theorem sound_of_liveRun {settings : Settings} {disk : Disk} {s : Space}
    (r : LiveRun settings disk s) : s.Sound := by
  induction r with
  | start h => exact create_sound h
  | turn t _ hg ih => exact ih.leave t hg

/-- **Runs on live handles.** In every space of such a run the children of live objects and the
permanent roots are live; a turn on live handles gives live handles back and never stops at a stale
one, and a collection completes. -/
theorem live_closed {settings : Settings} {disk : Disk} {s : Space}
    (r : LiveRun settings disk s) :
    (∀ c i x, s.heap.cellAt? c i = some x → x.live = true →
      ∃ o, x.value = some o ∧ ∀ h ∈ o.children, s.heap.isLive h = true) ∧
    (∀ h ∈ s.permanentRoots, s.heap.isLive h = true) ∧
    (∀ t : Turn, (∀ h ∈ t.handles, s.heap.isLive h = true) →
      (∀ hs s', t.run s = .ok hs s' → ∀ h ∈ hs, s'.heap.isLive h = true) ∧
      ∀ v s', t.run s = .error (.violation v) s' → ∀ h, v ≠ .staleHandle h ∧ v ≠ .staleMark h) ∧
    ∀ ctx inFlight, (∀ h ∈ ctx :: inFlight.toList, s.heap.isLive h = true) →
      (Heap.markFrom s.heap.clearMarks 0 (s.roots ctx inFlight).reverse).stale = none ∧
      ∃ s', Space.collectNow ctx inFlight s = .ok () s' := by
  have i := sound_of_liveRun r
  refine ⟨i.closed, i.roots, fun t hg => ⟨fun hs s' ht => ?_, fun v s' ht => ?_⟩,
    fun ctx inFlight hg => ⟨?_, ?_⟩⟩
  · have hf := i.turn t hg
    rw [ht] at hf
    exact hf.2
  · have hf := i.turn t hg
    rw [ht] at hf
    exact hf.1.not_stale hf.2
  · exact (marks_roots s ctx inFlight fun h r => i.current (i.reaches_roots hg r)).stale
  · obtain ⟨s', hs', -⟩ := i.collectNow hg
    exact ⟨s', hs'⟩

theorem create_ok (settings : Settings) (h : settings.layout.check = .ok ()) (disk : Disk) :
    ∃ s, create settings disk = .ok s := by
  have ha : Arena.create settings.layout = .ok (.empty settings.layout : Heap) := by
    rw [Arena.create, h]
    rfl
  exact ⟨_, by rw [create, ha]⟩

/-- A space with a new list that holds None: it can be collected with nothing but None at hand. -/
theorem live_closed_list :
    ∃ s, LiveRun {} {} s ∧ s.heap.isLive s.noneValue = true ∧
      ∃ s', Space.collectNow s.noneValue none s = .ok () s' := by
  obtain ⟨s₀, h₀⟩ := create_ok {} rfl {}
  have r₀ : LiveRun {} {} s₀ := .start h₀
  have hnone : ∀ h ∈ [s₀.noneValue], s₀.heap.isLive h = true := fun h hh => by
    obtain rfl := List.mem_singleton.1 hh
    exact (live_closed r₀).2.1 _ List.mem_cons_self
  have r : LiveRun {} {} ((Turn.operation (.newList #[s₀.noneValue])).leave s₀) :=
    .turn _ r₀ hnone
  obtain ⟨-, hroots, -, hcollect⟩ := live_closed r
  have hlive := hroots _ List.mem_cons_self
  exact ⟨_, r, hlive, (hcollect _ none fun h hh => by
    obtain rfl := List.mem_singleton.1 hh
    exact hlive).2⟩

end Space

end ObjectSpace

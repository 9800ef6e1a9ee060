import ObjectSpace.Proofs.Run.Values
import ObjectSpace.Proofs.Value.Keyed

/-!
# What an action leaves

Between the actions of a program a space is `Steady`: what live handles refer to is live, and the
permanent and the interned values are what they were made as. Primitive steps keep that, so actions
on live handles do (`steadyTrust`).

An action is described by its frame (`Frame`): the handles whose objects it may change. Every other
live object stays, and so do output and disk. The disk needs a reason, since placing an object drops
what its slot held, and a dropped writer empties its buffer into its file: the disk stays as long as
only live objects are open for writing (`Heap.Writers`).
-/

namespace ObjectSpace

/-- An object that never becomes another one. -/
def Object.Fixed (o : Object) : Prop := ∀ o', o.Evolves o' → o' = o

/-- An object is a file that is open for writing. -/
def Object.Writes (o : Object) : Prop := ∃ f w, o = .file f ∧ f.stream = .writer w

namespace Heap

variable {a b : Heap} {v h : Handle} {o : Object} {l : List Handle}

theorem Kept.fixed (k : Kept a b) (hv : a.Has v o) (ho : o.Fixed) : b.Has v o := by
  obtain ⟨o', hv', he⟩ := k.has hv
  rwa [ho o' he] at hv'

/-- Every object that is open for writing is behind one of the handles, which are live. -/
def Writers (heap : Heap) (l : List Handle) : Prop :=
  ∀ c i x o, heap.cellAt? c i = some x → x.value = some o → o.Writes →
    ∃ h ∈ l, heap.isLive h = true ∧ h.sizeClass = c ∧ heap.position h = i

theorem Writers.mono {l' : List Handle} (hw : Writers a l) (h : l ⊆ l') : Writers a l' := by
  intro c i x o hx ho hwr
  obtain ⟨g, hg, hr⟩ := hw c i x o hx ho hwr
  exact ⟨g, h hg, hr⟩

theorem Writers.settle {c : SizeClass} {old : Option Object} (hw : Writers a l)
    (p : Arena.Placed a c o h old b) (disk : Disk) : Space.settle old disk = disk := by
  have hdead := p.dead
  have hold := p.dropped
  rcases old with _ | x
  · rfl
  by_cases hx : x.Writes
  · exfalso
    rcases hat : a.cellAt? c (a.position h) with _ | y
    · rw [hat] at hold
      cases hold
    · rw [hat, Option.getD_some] at hold hdead
      obtain ⟨g, -, hg, rfl, hp⟩ := hw c _ y x hat hold.symm hx
      obtain ⟨z, hz, hzl⟩ := Arena.isLive_iff.1 hg
      have hgat := Arena.cellAt?_of_cell? hz
      rw [hp, hat, Option.some.injEq] at hgat
      rw [hgat, hzl] at hdead
      cases hdead
  · unfold Space.settle
    split
    · rename_i f w heq
      exact absurd ⟨_, w, Option.some.inj heq, rfl⟩ hx
    · rfl

/-- Where an object is placed, the writers are those there were, and it. -/
theorem Writers.placed {c : SizeClass} {old : Option Object} (hw : Writers a l)
    (p : Arena.Placed a c o h old b) : Writers b (h :: l) := by
  intro d i x u hx hu huw
  by_cases hp : d = c ∧ i = a.position h
  · refine ⟨h, List.mem_cons_self, p.isLive_self, p.sizeClass_eq.trans hp.1.symm, ?_⟩
    rw [p.position_eq, hp.2]
  · rcases p.elsewhere d i hp with he | ⟨-, he⟩
    · obtain ⟨g, hg, hlive, hclass, hpos⟩ := hw d i x u (he ▸ hx) hu huw
      refine ⟨g, List.mem_cons_of_mem _ hg, p.isLive_iff.2 (.inr hlive), hclass, ?_⟩
      rw [p.position_eq, hpos]
    · rw [hx, Option.some.injEq] at he
      rw [he] at hu
      cases hu

/-- An object that is not open for writing need not be among the writers. -/
theorem Writers.drop (hw : Writers a (h :: l)) (hh : a.Has h o) (ho : ¬ o.Writes) :
    Writers a l := by
  intro c i x u hx hu huw
  obtain ⟨g, hg, hlive, rfl, rfl⟩ := hw c i x u hx hu huw
  rcases List.mem_cons.1 hg with rfl | hg
  · obtain ⟨y, hy, hyv⟩ := Arena.get?_eq_some.1 hh.2
    rw [Arena.cellAt?_of_cell? hy, Option.some.injEq] at hx
    rw [← hx, hyv, Option.some.injEq] at hu
    exact absurd (hu ▸ huw) ho
  · exact ⟨g, hg, hlive, rfl, rfl⟩

theorem Writers.modify (hw : Writers a l) (hh : a.Has h o) (f : Object → Object) :
    Writers (a.modify h f) (h :: l) := by
  intro c i x u hx hu huw
  have hlive : ∀ g, (a.modify h f).isLive g = a.isLive g := Arena.isLive_modify hh.2 f
  rw [Arena.cellAt?_modify] at hx
  by_cases hp : h.sizeClass = c ∧ a.position h = i
  · refine ⟨h, List.mem_cons_self, (hlive h).trans hh.1, hp.1, ?_⟩
    rw [Arena.position_modify, hp.2]
  · rw [if_neg hp] at hx
    obtain ⟨g, hg, hg', hclass, hpos⟩ := hw c i x u hx hu huw
    refine ⟨g, List.mem_cons_of_mem _ hg, (hlive g).trans hg', hclass, ?_⟩
    rw [Arena.position_modify, hpos]

end Heap

namespace Space

/-- What holds between the actions of a program. -/
structure Steady (s : Space) : Prop where
  ordered : s.Ordered
  nothing : s.heap.Has s.noneValue .nothing
  types : ∀ i, s.heap.Has (s.types.get i) (.type (Kind.all.get i))
  methods : ∀ i, s.heap.Has (s.methods.get i)
    (.function (Method.all.get i).qualifiedName (.method (Method.all.get i)))
  integers : ∀ e ∈ s.integers, s.heap.Has e.2 (.int e.1)
  texts : ∀ e ∈ s.texts, s.heap.Has e.2 (.str e.1 (some (Fnv.hashText e.1)))

variable {s s' s'' : Space} {v h : Handle} {o : Object}

theorem Steady.roomy (i : s.Steady) : s.heap.Roomy := i.ordered.sound.roomy

/-- What a live object refers to is live. -/
theorem Steady.children (i : s.Steady) (hv : s.heap.Has v o) :
    ∀ c ∈ o.children, s.heap.isLive c = true := by
  obtain ⟨p, hp, hc⟩ := i.ordered.sound.get? hv.1
  obtain rfl := Option.some.inj (hp.symm.trans hv.2)
  exact hc

theorem Steady.step (i : s.Steady) (st : Step (fun heap g => heap.isLive g = true) s s') :
    s'.Steady := by
  have keep : ∀ {v o}, s.heap.Has v o → o.Fixed → s'.heap.Has v o := st.kept.fixed
  have hsame : s'.noneValue = s.noneValue ∧ s'.types = s.types ∧ s'.methods = s.methods := by
    cases st <;> exact ⟨rfl, rfl, rfl⟩
  obtain ⟨hnone, htypes, hmethods⟩ := hsame
  refine
    { ordered := orderedTrust.step i.ordered st
      nothing := hnone ▸ keep i.nothing fun _ h => h
      types := fun j => htypes ▸ keep (i.types j) fun _ h => h
      methods := fun j => hmethods ▸ keep (i.methods j) fun _ h => h
      integers := ?_
      texts := ?_ }
  · have hold := fun e he => keep (i.integers e he) fun _ h => h
    cases st with
    | integer hget hlive => exact List.forall_mem_cons.2 ⟨⟨hlive, hget⟩, hold⟩
    | _ => exact hold
  · have hold := fun e he => keep (i.texts e he) fun _ h => h
    cases st with
    | text hget hlive =>
      obtain rfl := i.ordered.tidy.texts _ _ _ hget
      exact List.forall_mem_cons.2 ⟨⟨hlive, hget⟩, hold⟩
    | _ => exact hold

end Space

/-- The trust in live handles under which spaces are steady. -/
def steadyTrust : Trust where
  holds := Space.Steady
  ok heap h := heap.isLive h = true
  roomy i := i.roomy
  root i := orderedTrust.root i.ordered
  child i := orderedTrust.child i.ordered
  step i st := i.step st
  ok_step i := orderedTrust.ok_step i.ordered
  ok_placed i := orderedTrust.ok_placed i.ordered

namespace Space

variable {s s' s'' : Space} {v h : Handle} {o : Object} {touched touched' : List Handle}

/-! ## Frames -/

/-- An action may change the objects of some handles, and perhaps files. -/
structure Moves (touched : List Handle) (s s' : Space) : Prop where
  steady : s'.Steady
  kept : Heap.Kept s.heap s'.heap
  has : ∀ v o, v ∉ touched → s.heap.Has v o → s'.heap.Has v o
  noneValue : s'.noneValue = s.noneValue
  moduleName : s'.moduleName = s.moduleName
  globals : s'.globals = s.globals
  output : s'.output = s.output
  roots : ∀ g ∈ s.permanentRoots, g ∈ s'.permanentRoots

/-- An action may change the objects of some handles. -/
structure Frame (touched : List Handle) (s s' : Space) : Prop extends Moves touched s s' where
  dry : ∀ l, s.heap.Writers l → s'.heap.Writers l ∧ s'.disk = s.disk

namespace Moves

theorem refl (i : s.Steady) : Moves touched s s :=
  ⟨i, .refl _, fun _ _ _ h => h, rfl, rfl, rfl, rfl, fun _ h => h⟩

theorem trans (f : Moves touched s s') (g : Moves touched' s' s'') :
    Moves (touched ++ touched') s s'' where
  steady := g.steady
  kept := f.kept.trans g.kept
  has v o hv h := by
    rw [List.mem_append, not_or] at hv
    exact g.has v o hv.2 (f.has v o hv.1 h)
  noneValue := g.noneValue.trans f.noneValue
  moduleName := g.moduleName.trans f.moduleName
  globals := g.globals.trans f.globals
  output := g.output.trans f.output
  roots h hh := g.roots h (f.roots h hh)

theorem mono (f : Moves touched s s') (h : touched ⊆ touched') : Moves touched' s s' where
  steady := f.steady
  kept := f.kept
  has v o hv := f.has v o fun hm => hv (h hm)
  noneValue := f.noneValue
  moduleName := f.moduleName
  globals := f.globals
  output := f.output
  roots := f.roots

/-- Fixed objects stay in every frame. -/
theorem fixed (f : Moves touched s s') (hv : s.heap.Has v o) (ho : o.Fixed) : s'.heap.Has v o :=
  f.kept.fixed hv ho

theorem live (f : Moves touched s s') (hv : s.heap.isLive v = true) : s'.heap.isLive v = true :=
  f.kept.live hv

theorem keep (f : Moves [] s s') (hv : s.heap.Has v o) : s'.heap.Has v o :=
  f.has v o List.not_mem_nil hv

/-- The objects other than the one that is touched stay. -/
theorem other (f : Moves [h] s s') {p : Object} (hh : s.heap.Has h p) (hv : s.heap.Has v o)
    (hne : o ≠ p) : s'.heap.Has v o :=
  f.has v o (by simpa using hv.ne hh hne) hv

end Moves

namespace Frame

theorem refl (i : s.Steady) : Frame touched s s :=
  ⟨.refl i, fun _ hw => ⟨hw, rfl⟩⟩

theorem trans (f : Frame touched s s') (g : Frame touched' s' s'') :
    Frame (touched ++ touched') s s'' where
  toMoves := f.toMoves.trans g.toMoves
  dry l hw := by
    obtain ⟨hw', hd⟩ := f.dry l hw
    obtain ⟨hw'', hd'⟩ := g.dry l hw'
    exact ⟨hw'', hd'.trans hd⟩

theorem mono (f : Frame touched s s') (h : touched ⊆ touched') : Frame touched' s s' :=
  ⟨f.toMoves.mono h, f.dry⟩

theorem again (f : Frame touched s s') (g : Frame touched s' s'') : Frame touched s s'' :=
  (f.trans g).mono (by simp)

end Frame

/-! ## Primitive actions -/

/-- Placing an object leaves the others. -/
theorem alloc_moves (i : s.Steady)
    (hp : Placeable (fun heap g => heap.isLive g = true) s.heap o)
    (hc : ∀ c ∈ o.children, s.heap.isLive c = true) :
    ∃ h old s', alloc o s = .ok h s' ∧ Moves [] s s' ∧ s'.heap.Has h o ∧
      Arena.Placed s.heap o.sizeClass o h old s'.heap ∧ s'.disk = settle old s.disk := by
  obtain ⟨h, old, heap, p, heq⟩ := Trust.alloc_placed i.roomy o
  have st := Step.alloc p hp hc
  exact ⟨h, old, _, heq, ⟨i.step st, st.kept, fun _ _ _ => p.has, rfl, rfl, rfl, rfl,
    fun _ h => h⟩, p.has_self, p, rfl⟩

theorem alloc_frame (i : s.Steady)
    (hp : Placeable (fun heap g => heap.isLive g = true) s.heap o)
    (hc : ∀ c ∈ o.children, s.heap.isLive c = true) (ho : ¬ o.Writes) :
    ∃ h s', alloc o s = .ok h s' ∧ Frame [] s s' ∧ s'.heap.Has h o := by
  obtain ⟨h, old, s', hs', m, hh, p, hdisk⟩ := alloc_moves i hp hc
  refine ⟨h, s', hs', ⟨m, fun l hw => ⟨(hw.placed p).drop hh ho, ?_⟩⟩, hh⟩
  rw [hdisk, hw.settle p]

theorem alloc_new (i : s.Steady) (h : alloc o s = .ok v s') : s.heap.get? v = none := by
  obtain ⟨v', old, heap, p, heq⟩ := Trust.alloc_placed i.roomy o
  obtain rfl := (EStateM.Result.ok.inj (h.symm.trans heq)).1
  exact p.get?_new

/-- Touching new objects only is touching nothing. -/
theorem Frame.of_new (f : Frame touched s s') (h : ∀ v ∈ touched, s.heap.get? v = none) :
    Frame [] s s' where
  toMoves :=
    { f.toMoves with
      has := by
        intro v o _ hv
        refine f.has v o (fun hm => ?_) hv
        have hget := hv.2
        rw [h v hm] at hget
        cases hget }
  dry := f.dry

/-- Changing an object leaves the others. -/
theorem update_moves (i : s.Steady) (hh : s.heap.Has h o) {f : Object → Object}
    (hf : Change s.heap o (f o)) (hc : ∀ c ∈ (f o).children, s.heap.isLive c = true) :
    ∃ s', update h f s = .ok () s' ∧ Moves [h] s s' ∧ s'.heap.Has h (f o) ∧
      s'.heap = s.heap.modify h f ∧ s'.disk = s.disk := by
  have st : Step (fun heap g => heap.isLive g = true) s { s with heap := s.heap.modify h f } :=
    Step.update hh.2 hh.1 hf hc
  have hread : ∀ v, (s.heap.modify h f).get? v = if v = h then some (f o) else s.heap.get? v :=
    Arena.get?_modify hh.2 f
  have hlive : ∀ v, (s.heap.modify h f).isLive v = s.heap.isLive v := Arena.isLive_modify hh.2 f
  refine ⟨_, Trust.update_eq hh.2 f, ⟨i.step st, st.kept, fun v p hv hp => ?_, rfl, rfl, rfl, rfl,
    fun _ h => h⟩, ⟨(hlive h).trans hh.1, (hread h).trans (if_pos rfl)⟩, rfl, rfl⟩
  have hne : v ≠ h := by simpa using hv
  exact ⟨(hlive v).trans hp.1, (hread v).trans ((if_neg hne).trans hp.2)⟩

theorem update_frame (i : s.Steady) (hh : s.heap.Has h o) {f : Object → Object}
    (hf : Change s.heap o (f o)) (hc : ∀ c ∈ (f o).children, s.heap.isLive c = true)
    (ho : ¬ (f o).Writes) :
    ∃ s', update h f s = .ok () s' ∧ Frame [h] s s' ∧ s'.heap.Has h (f o) := by
  obtain ⟨s', hs', m, hh', hheap, hdisk⟩ := update_moves i hh hf hc
  refine ⟨s', hs', ⟨m, fun l hw => ⟨?_, hdisk⟩⟩, hh'⟩
  have hw' := hw.modify hh f
  rw [← hheap] at hw'
  exact hw'.drop hh' ho

theorem Ordered.of_heap (i : s.Ordered) (hheap : s'.heap = s.heap)
    (hroots : ∀ g ∈ s'.permanentRoots, g ∈ s.permanentRoots ∨ s.heap.isLive g = true) :
    s'.Ordered := by
  obtain ⟨⟨hroomy, hclosed, hlive⟩, htidy, hstored⟩ := i
  rw [← hheap] at hroomy hclosed hlive htidy hstored hroots
  exact ⟨⟨hroomy, hclosed, fun g hg => (hroots g hg).elim (hlive g) id⟩, htidy, hstored⟩

theorem mem_permanentRoots_integer (s : Space) (n : Int64) (h g : Handle) :
    g ∈ ({ s with integers := (n, h) :: s.integers } : Space).permanentRoots ↔
      g = h ∨ g ∈ s.permanentRoots := by
  simp only [permanentRoots, List.map_cons, List.mem_append, List.mem_cons]
  tauto

theorem mem_permanentRoots_text (s : Space) (text : String) (h g : Handle) :
    g ∈ ({ s with texts := (text, h) :: s.texts } : Space).permanentRoots ↔
      g = h ∨ g ∈ s.permanentRoots := by
  simp only [permanentRoots, List.map_cons, List.mem_append, List.mem_cons]
  tauto

theorem Frame.withInteger (f : Frame [] s s') {n : Int64} (hh : s'.heap.Has h (.int n)) :
    Frame [] s { s' with integers := (n, h) :: s'.integers } := by
  have hroots := mem_permanentRoots_integer s' n h
  obtain ⟨hordered, hnone, htypes, hmethods, hints, htexts⟩ := f.steady
  refine ⟨⟨⟨hordered.of_heap rfl fun g hg => ?_, hnone, htypes, hmethods,
    List.forall_mem_cons.2 ⟨hh, hints⟩, htexts⟩, f.kept, f.has, f.noneValue, f.moduleName,
    f.globals, f.output, fun g hg => (hroots g).2 (.inr (f.roots g hg))⟩, f.dry⟩
  rcases (hroots g).1 hg with rfl | hg
  · exact .inr hh.1
  · exact .inl hg

theorem Frame.withText (f : Frame [] s s') {text : String}
    (hh : s'.heap.Has h (.str text (some (Fnv.hashText text)))) :
    Frame [] s { s' with texts := (text, h) :: s'.texts } := by
  have hroots := mem_permanentRoots_text s' text h
  obtain ⟨hordered, hnone, htypes, hmethods, hints, htexts⟩ := f.steady
  refine ⟨⟨⟨hordered.of_heap rfl fun g hg => ?_, hnone, htypes, hmethods, hints,
    List.forall_mem_cons.2 ⟨hh, htexts⟩⟩, f.kept, f.has, f.noneValue, f.moduleName,
    f.globals, f.output, fun g hg => (hroots g).2 (.inr (f.roots g hg))⟩, f.dry⟩
  rcases (hroots g).1 hg with rfl | hg
  · exact .inr hh.1
  · exact .inl hg

theorem mem_permanentRoots_of_integer {n : Int64} (he : (n, h) ∈ s.integers) :
    h ∈ s.permanentRoots := by
  simp only [permanentRoots, List.mem_append]
  exact .inl (.inl (.inr (List.mem_map_of_mem (f := (·.2)) he)))

theorem mem_permanentRoots_of_text {text : String} (he : (text, h) ∈ s.texts) :
    h ∈ s.permanentRoots := by
  simp only [permanentRoots, List.mem_append]
  exact .inl (.inr (List.mem_map_of_mem (f := (·.2)) he))

/-- Making a permanent object for an integer, or finding the one there is. -/
theorem internInt_frame (i : s.Steady) (n : Int64) :
    ∃ h s', internInt n s = .ok h s' ∧ Frame [] s s' ∧ s'.heap.Has h (.int n) ∧
      h ∈ s'.permanentRoots := by
  rw [internInt, bind_of_ok (get_apply s)]
  rcases hl : s.integers.lookup n with _ | h
  · obtain ⟨h, s', hs', f, hh⟩ := alloc_frame i (o := .int n) trivial nofun nofun
    refine ⟨h, _, ?_, f.withInteger hh, hh,
      (mem_permanentRoots_integer s' n h h).2 (.inl rfl)⟩
    exact (bind_of_ok hs').trans rfl
  · have he := Trust.mem_of_lookup hl
    exact ⟨h, s, rfl, .refl i, i.integers _ he, mem_permanentRoots_of_integer he⟩

/-- Making a permanent object for a text, or finding the one there is. -/
theorem internStr_frame (i : s.Steady) (text : String) :
    ∃ h s', internStr text s = .ok h s' ∧ Frame [] s s' ∧
      s'.heap.Has h (.str text (some (Fnv.hashText text))) ∧ h ∈ s'.permanentRoots := by
  rw [internStr, bind_of_ok (get_apply s)]
  rcases hl : s.texts.lookup text with _ | h
  · obtain ⟨h, s', hs', f, hh⟩ :=
      alloc_frame i (o := .str text (some (Fnv.hashText text))) rfl nofun nofun
    refine ⟨h, _, ?_, f.withText hh, hh,
      (mem_permanentRoots_text s' text h h).2 (.inl rfl)⟩
    exact (bind_of_ok hs').trans rfl
  · have he := Trust.mem_of_lookup hl
    exact ⟨h, s, rfl, .refl i, i.texts _ he, mem_permanentRoots_of_text he⟩

/-! ## Collections -/

/-- A collection from live handles keeps what holds. -/
theorem Collected.steady {ctx : Handle} {inFlight : Option Handle}
    (hc : Collected s ctx inFlight s')
    (i : s.Steady) (hlive : ∀ h ∈ ctx :: inFlight.toList, s.heap.isLive h = true) :
    s'.Steady := by
  have hback : ∀ v, s'.heap.isLive v = true → s.heap.isLive v = true := by
    intro v hv
    exact i.ordered.sound.reaches_roots hlive ((hc.live_iff v).1 hv)
  have hroot : ∀ {v o}, v ∈ s.permanentRoots → s.heap.Has v o → s'.heap.Has v o :=
    fun {v _} h hv => ⟨(hc.live_iff v).2 (.root (List.mem_append_left _ h)),
      (hc.same.get?_eq v).trans hv.2⟩
  -- the rest of the space differs in counters only
  have hnone : s'.noneValue = s.noneValue := by rw [hc.rest]
  have htypes : s'.types = s.types := by rw [hc.rest]
  have hmethods : s'.methods = s.methods := by rw [hc.rest]
  have hintegers : s'.integers = s.integers := by rw [hc.rest]
  have htexts : s'.texts = s.texts := by rw [hc.rest]
  refine ⟨i.ordered.cleared (i.ordered.sound.collected hlive hc) hc.same hback, ?_, fun j => ?_,
    fun j => ?_, fun e he => ?_, fun e he => ?_⟩
  · rw [hnone]
    exact hroot List.mem_cons_self i.nothing
  · rw [htypes]
    refine hroot ?_ (i.types j)
    simp [permanentRoots, Trust.get_mem]
  · rw [hmethods]
    refine hroot ?_ (i.methods j)
    simp [permanentRoots, Trust.get_mem]
  · rw [hintegers] at he
    exact hroot (mem_permanentRoots_of_integer he) (i.integers e he)
  · rw [htexts] at he
    exact hroot (mem_permanentRoots_of_text he) (i.texts e he)

/-- A turn on live handles keeps what holds. -/
theorem Steady.turn (i : s.Steady) (t : Turn) (ht : ∀ h ∈ t.handles, s.heap.isLive h = true) :
    (t.leave s).Steady := by
  cases t with
  | operation op =>
    have hr := (Trust.runs_operation (T := steadyTrust) op ht).result i
    rw [Turn.leave, Turn.run]
    cases ho : op.run s with
    | ok hs s' | error e s' =>
      rw [ho] at hr
      exact hr.1.holds
  | collectNow ctx inFlight =>
    obtain ⟨s', hs', hc⟩ := i.ordered.sound.collects ht
    rw [Turn.leave, Turn.run, leftBy_returned, hs']
    exact hc.steady i ht
  | collectIfDue ctx inFlight =>
    obtain ⟨s', hs', hc⟩ := i.ordered.sound.collects ht
    rw [Turn.leave, Turn.run, leftBy_returned, collectIfDue_eq, hs']
    split
    · exact i
    · exact hc.steady i ht

end Space

end ObjectSpace

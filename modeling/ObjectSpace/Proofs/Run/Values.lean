import ObjectSpace.Proofs.Heap.Query
import ObjectSpace.Proofs.Run.Trust

/-!
# Steps that make and change values

The primitive actions of a space under a trust: each is one step, or none.
-/

namespace ObjectSpace.Trust

variable {T : Trust} {s : Space}

/-- Placing succeeds where there is room. -/
theorem alloc_placed (hr : s.heap.Roomy) (o : Object) :
    ∃ h old heap, Arena.Placed s.heap o.sizeClass o h old heap ∧
      Space.alloc o s =
        .ok h { s with heap, pending := s.pending + 1, disk := Space.settle old s.disk } := by
  have hplaced := Arena.allocateIn_placed hr o.sizeClass o
  rcases hall : s.heap.allocateIn o.sizeClass o with ⟨h, old, heap⟩
  rw [hall] at hplaced
  exact ⟨h, old, heap, hplaced, by simp only [Space.alloc, hall]⟩

/-- Placing an object of `ok` handles is a step, and the new handle is `ok`. -/
theorem runs_alloc {o : Object} (hp : Placeable T.ok s.heap o)
    (hc : ∀ c ∈ o.children, T.ok s.heap c) : T.Runs s (Space.alloc o) := by
  refine ⟨fun hs => ?_⟩
  obtain ⟨h, old, heap, hplaced, heq⟩ := alloc_placed (T.roomy hs) o
  rw [heq]
  exact ⟨.of_step hs (.alloc hplaced hp hc), (ok_handle _).2 (T.ok_placed hs hplaced)⟩

/-- Changing succeeds where there is an object. -/
theorem update_eq {v : Handle} {o : Object} (ho : s.heap.get? v = some o) (f : Object → Object) :
    Space.update v f s = .ok () { s with heap := s.heap.modify v f } := by
  have hc := Arena.isCurrent_iff.2 ⟨o, ho⟩
  simp only [Space.update, bind, EStateM.bind, Space.get_apply, hc]
  rfl

/-- A change of the object behind an `ok` handle is a step. -/
theorem runs_update {h : Handle} {f : Object → Object} (hh : T.ok s.heap h)
    (hf : ∀ o, s.heap.get? h = some o → T.Ok s o → Change s.heap o (f o) ∧ T.Ok s (f o)) :
    T.Runs s (Space.update h f) := by
  refine ⟨fun hs => ?_⟩
  by_cases hc : s.heap.isCurrent h = true
  · obtain ⟨o, ho⟩ := Arena.isCurrent_iff.1 hc
    obtain ⟨hchange, hok⟩ := hf o ho fun c hco => T.child hs hh ho hco
    rw [update_eq ho]
    exact ⟨.of_step hs (.update ho hh hchange hok), ok_plain _⟩
  · have heq : Space.update h f s = .error (.violation (.staleHandle h)) s := by
      simp only [Space.update, bind, EStateM.bind, Space.get_apply, hc]
      rfl
    rw [heq]
    refine ⟨.refl hs, hh, ?_⟩
    rw [Arena.isCurrent, Bool.not_eq_true, Option.isSome_eq_false_iff] at hc
    simpa using hc

theorem runs_write (text : String) : T.Runs s (Space.write text) :=
  ⟨fun hs => ⟨.of_step hs (.output _), ok_plain _⟩⟩

theorem runs_takeOutput : T.Runs s Space.takeOutput :=
  ⟨fun hs => ⟨.of_step hs (.output _), ok_plain _⟩⟩

theorem runs_changeDisk {α : Type} [Carries α] [Plain α] (f : Disk → α × Disk) :
    T.Runs s (Space.changeDisk f) :=
  ⟨fun hs => ⟨.of_step hs (.disk _), ok_plain _⟩⟩

/-! ## Permanent values -/

/-- The handles of the roots. -/
theorem runs_root {h : Handle} (hh : h ∈ s.permanentRoots) : T.Runs s (pure h) :=
  runs_of_holds fun hs => runs_pure ((ok_handle h).2 (T.root hs hh))

theorem runs_nothing : T.Runs s Space.nothing :=
  runs_get_bind (runs_root (by simp [Space.permanentRoots]))

theorem runs_boolean (b : Bool) : T.Runs s (Space.boolean b) :=
  runs_get_bind (runs_root (by cases b <;> simp [Space.permanentRoots]))

theorem runs_isNone (h : Handle) : T.Runs s (Space.isNone h) :=
  runs_get_bind (runs_pure (ok_plain _))

theorem get_mem {n : Nat} (v : Vector Handle n) (i : Fin n) : v.get i ∈ v :=
  Vector.getElem_mem i.isLt

theorem runs_typeObject (k : Kind) : T.Runs s (Space.typeObject k) :=
  runs_get_bind (runs_root (by simp [Space.permanentRoots, get_mem]))

theorem runs_methodFunction (m : Method) : T.Runs s (Space.methodFunction m) :=
  runs_get_bind (runs_root (by simp [Space.permanentRoots, get_mem]))

theorem mem_of_lookup {α β : Type} [BEq α] [LawfulBEq α] {l : List (α × β)} {a : α} {b : β}
    (h : l.lookup a = some b) : (a, b) ∈ l := by
  obtain ⟨l₁, l₂, rfl, -⟩ := List.lookup_eq_some_iff.1 h
  exact List.mem_append_right _ List.mem_cons_self

/-- Placing an object and recording its handle. -/
theorem runs_alloc_record {o : Object} {record : Handle → Space → Space}
    (hp : Placeable T.ok s.heap o) (hc : ∀ c ∈ o.children, T.ok s.heap c)
    (hr : ∀ h s', s'.integers = s.integers → s'.texts = s.texts → s'.heap.get? h = some o →
      T.ok s'.heap h → Step T.ok s' (record h s') ∧ (record h s').heap = s'.heap) :
    T.Runs s (do
      let h ← Space.alloc o
      modify (record h)
      return h) := by
  refine ⟨fun hs => ?_⟩
  obtain ⟨h, old, heap, hplaced, heq⟩ := alloc_placed (T.roomy hs) o
  have hok := T.ok_placed hs hplaced
  have hl := Later.of_step hs (.alloc hplaced hp hc)
  obtain ⟨hst, hheap⟩ := hr h
    { s with heap, pending := s.pending + 1, disk := Space.settle old s.disk }
    rfl rfl hplaced.get?_self hok
  simp only [bind, EStateM.bind, heq]
  exact ⟨hl.trans (.of_step hl.holds hst), (ok_handle _).2 (by rw [hheap]; exact hok)⟩

theorem runs_internInt (n : Int64) : T.Runs s (Space.internInt n) := by
  refine runs_get_bind ?_
  cases hl : s.integers.lookup n with
  | some h =>
    refine runs_root ?_
    have hm := List.mem_map_of_mem (f := (·.2)) (mem_of_lookup hl)
    simp [Space.permanentRoots, hm]
  | none =>
    refine runs_alloc_record trivial (by simp [Object.children]) fun h s' hi _ ho hh => ?_
    exact ⟨.integer ho hh (hi ▸ hl), rfl⟩

theorem runs_internStr (t : String) : T.Runs s (Space.internStr t) := by
  refine runs_get_bind ?_
  cases hl : s.texts.lookup t with
  | some h =>
    refine runs_root ?_
    have hm := List.mem_map_of_mem (f := (·.2)) (mem_of_lookup hl)
    simp [Space.permanentRoots, hm]
  | none =>
    refine runs_alloc_record rfl (by simp [Object.children]) fun h s' _ ht ho hh => ?_
    exact ⟨.text ho hh (ht ▸ hl), rfl⟩

/-! ## New values -/

/-- Placing an object without handles. -/
theorem runs_alloc_plain {o : Object} (hp : Placeable T.ok s.heap o) (hc : o.children = []) :
    T.Runs s (Space.alloc o) :=
  runs_alloc hp (by simp [hc])

theorem runs_newInt (n : Int64) : T.Runs s (Space.newInt n) := runs_alloc_plain trivial rfl

theorem runs_newStr (t : String) : T.Runs s (Space.newStr t) := runs_alloc_plain trivial rfl

theorem runs_newBytes (bs : Array UInt8) : T.Runs s (Space.newBytes bs) :=
  runs_alloc_plain trivial rfl

theorem runs_newList {items : Array Handle} (h : T.Ok s items) : T.Runs s (Space.newList items) :=
  runs_alloc trivial (by simpa [Object.children] using h)

theorem runs_newTuple {items : Array Handle} (h : T.Ok s items) :
    T.Runs s (Space.newTuple items) :=
  runs_alloc trivial (by simpa [Object.children] using h)

theorem runs_newRange (start stop step : Int64) : T.Runs s (Space.newRange start stop step) := by
  unfold Space.newRange
  split
  · exact runs_fatal _
  · exact runs_alloc_plain trivial rfl

theorem runs_newFunction (name : String) (code : Nat) : T.Runs s (Space.newFunction name code) :=
  runs_alloc_plain trivial rfl

theorem handles_setIn (name : String) (v h : Handle) (l : List (String × Handle)) :
    h ∈ (Bindings.setIn name v l).map (·.2) → h = v ∨ h ∈ l.map (·.2) := by
  induction l with
  | nil => simp [Bindings.setIn]
  | cons e l ih =>
    obtain ⟨n, g⟩ := e
    by_cases hn : n = name
    · simp only [Bindings.setIn, hn, if_true, List.map_cons, List.mem_cons]
      exact fun hm => hm.imp_right .inr
    · simp only [Bindings.setIn, hn, if_false, List.map_cons, List.mem_cons]
      rintro (hm | hm)
      · exact .inr (.inl hm)
      · exact (ih hm).imp_right .inr

/-- Binding a name brings in no handle but the one that is bound. -/
theorem mem_handles_set {b : Bindings} {name : String} {v h : Handle}
    (hm : h ∈ (b.set name v).handles) : h = v ∨ h ∈ b.handles :=
  handles_setIn name v h b.entries hm

theorem mem_handles_ofList {l : List (String × Handle)} {h : Handle}
    (hm : h ∈ (Bindings.ofList l).handles) : h ∈ l.map (·.2) := by
  have key : ∀ (l : List (String × Handle)) (b : Bindings),
      h ∈ (l.foldl (fun b e => b.set e.1 e.2) b).handles → h ∈ b.handles ∨ h ∈ l.map (·.2) := by
    intro l
    induction l with
    | nil => exact fun b hm => .inl hm
    | cons e l ih =>
      intro b hm
      rcases ih _ hm with hm | hm
      · rcases mem_handles_set hm with rfl | hm
        · exact .inr (by simp)
        · exact .inl hm
      · exact .inr (List.mem_cons_of_mem _ hm)
  exact (key l {} hm).resolve_left (by simp [Bindings.handles])

theorem runs_newClass {name : String} {members : List (String × Handle)}
    (h : ∀ e ∈ members, T.ok s.heap e.2) : T.Runs s (Space.newClass name members) := by
  refine runs_alloc trivial fun c hc => ?_
  obtain ⟨e, he, rfl⟩ := List.mem_map.1 (mem_handles_ofList hc)
  exact h e he

theorem runs_newBoundMethod {receiver function : Handle} (hr : T.ok s.heap receiver)
    (hf : T.ok s.heap function) : T.Runs s (Space.newBoundMethod receiver function) :=
  runs_alloc trivial (by simp [Object.children, hr, hf])

end ObjectSpace.Trust

/-!
## Outcomes of actions

How the outcome of a composed action follows from the outcomes of its parts, and what the primitive
actions come to where they succeed.
-/

namespace ObjectSpace.Space

variable {α β : Type} {s s' : Space}

theorem bind_of_ok {act : Action α} {f : α → Action β} {a : α} (h : act s = .ok a s') :
    (act >>= f) s = f a s' := by
  simp only [bind, EStateM.bind, h]

theorem bind_of_error {act : Action α} {f : α → Action β} {e : Halt} (h : act s = .error e s') :
    (act >>= f) s = .error e s' := by
  simp only [bind, EStateM.bind, h]

/-- Only what follows an action that succeeds matters. -/
theorem bind_congr_of_ok {act : Action α} {f g : α → Action β}
    (h : ∀ a s', act s = .ok a s' → f a s' = g a s') : (act >>= f) s = (act >>= g) s := by
  cases ha : act s with
  | ok a s' => rw [bind_of_ok ha, bind_of_ok ha, h a s' ha]
  | error e s' => rw [bind_of_error ha, bind_of_error ha]

theorem bind_eq_ok {act : Action α} {f : α → Action β} {b : β} :
    (act >>= f) s = .ok b s' ↔ ∃ a s₁, act s = .ok a s₁ ∧ f a s₁ = .ok b s' := by
  simp only [bind, EStateM.bind]
  cases act s with
  | ok a s₁ =>
    constructor
    · exact fun h => ⟨a, s₁, rfl, h⟩
    · rintro ⟨a', s₂, h, hf⟩
      cases h
      exact hf
  | error e s₁ => exact ⟨nofun, fun ⟨_, _, h, _⟩ => by cases h⟩

theorem bind_eq_error {act : Action α} {f : α → Action β} {e : Halt} :
    (act >>= f) s = .error e s' ↔
      act s = .error e s' ∨ ∃ a s₁, act s = .ok a s₁ ∧ f a s₁ = .error e s' := by
  simp only [bind, EStateM.bind]
  cases act s with
  | ok a s₁ =>
    constructor
    · exact fun h => .inr ⟨a, s₁, rfl, h⟩
    · rintro (h | ⟨a', s₂, h, hf⟩)
      · cases h
      · cases h
        exact hf
  | error e' s₁ => simp

theorem ask_of_ok {q : Query α} {a : α} (h : q s.heap = .ok a) :
    (liftM q : Action α) s = .ok a s := by
  rw [Trust.ask_eq, h]

theorem ask_of_error {q : Query α} {e : Halt} (h : q s.heap = .error e) :
    (liftM q : Action α) s = .error e s := by
  rw [Trust.ask_eq, h]

theorem ask_congr {p q : Query α} (h : p s.heap = q s.heap) :
    (liftM p : Action α) s = (liftM q : Action α) s := by
  cases hq : q s.heap with
  | ok a => rw [ask_of_ok (h.trans hq), ask_of_ok hq]
  | error e => rw [ask_of_error (h.trans hq), ask_of_error hq]

theorem ask_eq_ok {q : Query α} {a : α} :
    (liftM q : Action α) s = .ok a s' ↔ q s.heap = .ok a ∧ s = s' := by
  rw [Trust.ask_eq]
  cases q s.heap with
  | ok b => simp
  | error e => simp

theorem ask_bind_of_ok {q : Query α} {f : α → Action β} {a : α} (h : q s.heap = .ok a) :
    ((liftM q : Action α) >>= f) s = f a s :=
  bind_of_ok (ask_of_ok h)

/-- Reading the object of a live handle. -/
theorem get_bind_of_has {v : Handle} {o : Object} {f : Object → Action β} (h : s.heap.Has v o) :
    ((liftM (Heap.get v) : Action Object) >>= f) s = f o s :=
  ask_bind_of_ok (Heap.get_eq_ok.2 h.2)

end ObjectSpace.Space

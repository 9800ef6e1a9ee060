import ObjectSpace.Collector
import ObjectSpace.Encoding
import ObjectSpace.Iteration
import ObjectSpace.Slice
import ObjectSpace.Proofs.Run.Step

/-!
# Trust

A `Trust` is an invariant of spaces together with the handles that are `ok` in a heap: those an
operation may be given. What an `ok` handle names holds only `ok` handles, roots are `ok`, and
primitive steps that bring in `ok` handles keep all of this.

`Runs` says of an action that it is made of such steps, whether it succeeds or stops half-way, and
gives only `ok` handles back; and if it stops at a stale handle, that handle was `ok` and names
nothing. `Asks` says the same of a query, which takes no step. Both follow the structure of a
computation, so each operation of the model has one lemma that says `Runs` or `Asks` of it, for
every trust.
-/

namespace ObjectSpace

/-- The handles in what a computation gives. -/
class Carries (α : Type) where
  handles : α → List Handle

/-- The basic types of data without handles. -/
class Atom (α : Type)

instance (priority := low) {α : Type} [Atom α] : Carries α := ⟨fun _ => []⟩

instance : Atom Unit := ⟨⟩
instance : Atom Bool := ⟨⟩
instance : Atom Nat := ⟨⟩
instance : Atom Int64 := ⟨⟩
instance : Atom UInt8 := ⟨⟩
instance : Atom UInt64 := ⟨⟩
instance : Atom String := ⟨⟩
instance : Atom Fnv := ⟨⟩
instance : Atom Writer := ⟨⟩
instance : Atom File := ⟨⟩
instance : Carries Handle := ⟨fun h => [h]⟩
instance : Carries Object := ⟨Object.children⟩
instance : Carries Cursor := ⟨Cursor.children⟩
instance : Carries Context := ⟨Context.children⟩

section

variable {α β : Type} [Carries α] [Carries β]

instance : Carries (Option α) := ⟨fun o => o.toList.flatMap Carries.handles⟩
instance : Carries (List α) := ⟨fun l => l.flatMap Carries.handles⟩
instance : Carries (Array α) := ⟨fun l => l.toList.flatMap Carries.handles⟩
instance : Carries (Table α) := ⟨fun t => t.toList.flatMap Carries.handles⟩
instance : Carries (α × β) := ⟨fun p => Carries.handles p.1 ++ Carries.handles p.2⟩

/-- Data without handles. -/
class Plain (α : Type) [Carries α] : Prop where
  handles_eq : ∀ a : α, Carries.handles a = []

instance {α : Type} [Atom α] : Plain α := ⟨fun _ => rfl⟩

instance [Plain α] : Plain (Option α) :=
  ⟨fun _ => List.flatMap_eq_nil_iff.2 fun a _ => Plain.handles_eq a⟩

instance [Plain α] : Plain (List α) :=
  ⟨fun _ => List.flatMap_eq_nil_iff.2 fun a _ => Plain.handles_eq a⟩

instance [Plain α] : Plain (Array α) :=
  ⟨fun _ => List.flatMap_eq_nil_iff.2 fun a _ => Plain.handles_eq a⟩

instance [Plain α] [Plain β] : Plain (α × β) :=
  ⟨fun p => List.append_eq_nil_iff.2 ⟨Plain.handles_eq p.1, Plain.handles_eq p.2⟩⟩

end

/-- The handles of a step of an iterator. -/
def Yield.handles : Yield → List Handle
  | handle h => [h]
  | int _ | str _ => []
  | pair a b => [a, b]
  | numbered _ h => [h]

instance : Carries Yield := ⟨Yield.handles⟩

/-- A step makes no handle a root that is not `ok`. -/
theorem Step.root {ok : Heap → Handle → Prop} {s s' : Space} (st : Step ok s s') {h : Handle}
    (hh : h ∈ s'.permanentRoots) : h ∈ s.permanentRoots ∨ ok s.heap h := by
  cases st with
  | alloc | update | output | disk => exact .inl hh
  | integer _ hok | text _ hok | globals hok =>
    simp only [Space.permanentRoots, List.map_cons, List.mem_append, List.mem_cons,
      Option.mem_toList, Option.some.injEq] at hh ⊢
    grind

/-- An invariant of spaces with the handles that operations may be given. -/
structure Trust where
  holds : Space → Prop
  ok : Heap → Handle → Prop
  roomy {s : Space} : holds s → s.heap.Roomy
  root {s : Space} {h : Handle} : holds s → h ∈ s.permanentRoots → ok s.heap h
  child {s : Space} {h c : Handle} {o : Object} :
    holds s → ok s.heap h → s.heap.get? h = some o → c ∈ o.children → ok s.heap c
  step {s s' : Space} : holds s → Step ok s s' → holds s'
  ok_step {s s' : Space} {h : Handle} :
    holds s → Step ok s s' → ok s.heap h → ok s'.heap h
  ok_placed {s : Space} {c : SizeClass} {o : Object} {h : Handle} {old : Option Object}
    {heap : Heap} : holds s → Arena.Placed s.heap c o h old heap → ok heap h

namespace Trust

variable {T : Trust} {s s' s'' : Space} {α β : Type} [Carries α] [Carries β]

/-- All handles in a result are ok. -/
def Ok (T : Trust) (s : Space) (a : α) : Prop := ∀ h ∈ Carries.handles a, T.ok s.heap h

@[simp] theorem ok_plain [Plain α] (a : α) : T.Ok s a := fun h hh => by
  rw [Plain.handles_eq] at hh
  cases hh

@[simp] theorem ok_handle (h : Handle) : T.Ok s h ↔ T.ok s.heap h := List.forall_mem_singleton

@[simp] theorem ok_none : T.Ok s (none : Option α) := List.forall_mem_nil _

@[simp] theorem ok_list (l : List α) : T.Ok s l ↔ ∀ a ∈ l, T.Ok s a := by
  constructor
  · intro h a ha g hg
    exact h g (List.mem_flatMap.2 ⟨a, ha, hg⟩)
  · intro h g hg
    obtain ⟨a, ha, hg⟩ := List.mem_flatMap.1 hg
    exact h a ha g hg

@[simp] theorem ok_some (a : α) : T.Ok s (some a) ↔ T.Ok s a :=
  (ok_list [a]).trans List.forall_mem_singleton

@[simp] theorem ok_array (l : Array α) : T.Ok s l ↔ ∀ a ∈ l.toList, T.Ok s a := ok_list l.toList

@[simp] theorem ok_table (t : Table α) : T.Ok s t ↔ ∀ a ∈ t.toList, T.Ok s a := ok_list t.toList

@[simp] theorem ok_pair (a : α) (b : β) : T.Ok s (a, b) ↔ T.Ok s a ∧ T.Ok s b :=
  List.forall_mem_append

theorem ok_option {o : Option α} : T.Ok s o ↔ ∀ a, o = some a → T.Ok s a := by
  cases o <;> simp

section Objects

@[simp] theorem ok_listObject (items : Array Handle) :
    T.Ok s (Object.list items) ↔ T.Ok s items := by
  simp only [ok_array, ok_handle]
  rfl

@[simp] theorem ok_tupleObject (items : Array Handle) :
    T.Ok s (Object.tuple items) ↔ T.Ok s items := by
  simp only [ok_array, ok_handle]
  rfl

@[simp] theorem ok_dictObject (t : Table (Handle × Handle)) :
    T.Ok s (Object.dict t) ↔ T.Ok s t := Iff.rfl

@[simp] theorem ok_setObject (t : Table Handle) : T.Ok s (Object.set t) ↔ T.Ok s t := by
  simp only [ok_table, ok_handle]
  rfl

@[simp] theorem ok_instanceObject (cls : Handle) (b : Bindings) :
    T.Ok s (Object.userInstance cls b) ↔ T.ok s.heap cls ∧ ∀ h ∈ b.handles, T.ok s.heap h :=
  List.forall_mem_cons

@[simp] theorem ok_classObject (name : String) (b : Bindings) :
    T.Ok s (Object.userClass name b) ↔ ∀ h ∈ b.handles, T.ok s.heap h := Iff.rfl

@[simp] theorem ok_methodObject (receiver f : Handle) :
    T.Ok s (Object.boundMethod receiver f) ↔ T.ok s.heap receiver ∧ T.ok s.heap f :=
  List.forall_mem_cons.trans (and_congr_right fun _ => List.forall_mem_singleton)

@[simp] theorem ok_iterObject (c : Cursor) : T.Ok s (Object.iter c) ↔ T.Ok s c := Iff.rfl

@[simp] theorem ok_viewObject (d : Handle) (part : ViewPart) :
    T.Ok s (Object.view d part) ↔ T.ok s.heap d := List.forall_mem_singleton

@[simp] theorem ok_contextObject (c : Context) : T.Ok s (Object.context c) ↔ T.Ok s c := Iff.rfl

end Objects

/-! ## Later states -/

/-- A state that steps lead to. -/
structure Later (T : Trust) (s s' : Space) : Prop where
  steps : Relation.ReflTransGen (Step T.ok) s s'
  holds : T.holds s'
  ok_mono : ∀ h, T.ok s.heap h → T.ok s'.heap h

theorem Later.refl (hs : T.holds s) : T.Later s s := ⟨.refl, hs, fun _ h => h⟩

theorem Later.trans (h₁ : T.Later s s') (h₂ : T.Later s' s'') : T.Later s s'' :=
  ⟨h₁.steps.trans h₂.steps, h₂.holds, fun h hh => h₂.ok_mono h (h₁.ok_mono h hh)⟩

theorem Later.of_step (hs : T.holds s) (st : Step T.ok s s') : T.Later s s' :=
  ⟨.single st, T.step hs st, fun _ => T.ok_step hs st⟩

/-- What was ok stays ok. -/
theorem Later.ok (l : T.Later s s') {a : α} (h : T.Ok s a) : T.Ok s' a :=
  fun g hg => l.ok_mono g (h g hg)

theorem Later.kept (l : T.Later s s') : Heap.Kept s.heap s'.heap := by
  have hst := l.steps
  clear l
  induction hst with
  | refl => exact .refl _
  | tail _ st ih => exact ih.trans st.kept

/-! ## Queries -/

/-- What may stop a computation: not a stale handle, unless that was ok. -/
def Excused (T : Trust) (heap : Heap) : Halt → Prop
  | .violation (.staleHandle h) => T.ok heap h ∧ heap.get? h = none
  | .violation (.staleMark _) => False
  | _ => True

/-- An answer with only ok handles, or an excuse. -/
def OkAnswer (T : Trust) (s : Space) : Except Halt α → Prop
  | .ok a => T.Ok s a
  | .error e => T.Excused s.heap e

/-- A query that gives only ok handles back. -/
structure Asks (T : Trust) (s : Space) (q : Query α) : Prop where
  answer : T.holds s → T.OkAnswer s (q s.heap)

theorem asks_of_holds {q : Query α} (h : T.holds s → T.Asks s q) : T.Asks s q :=
  ⟨fun hs => (h hs).answer hs⟩

theorem asks_pure {a : α} (ha : T.Ok s a) : T.Asks s (pure a) := ⟨fun _ => ha⟩

theorem asks_bind {q : Query α} {f : α → Query β} (hq : T.Asks s q)
    (hf : ∀ a, T.Ok s a → T.Asks s (f a)) : T.Asks s (q >>= f) := by
  refine ⟨fun hs => ?_⟩
  have h₁ := hq.answer hs
  simp only [bind, ReaderT.bind, Except.bind]
  cases hqs : q s.heap with
  | error e =>
    rw [hqs] at h₁
    exact h₁
  | ok a =>
    rw [hqs] at h₁
    exact (hf a h₁).answer hs

theorem asks_fatal (d : Diagnostic) : T.Asks s (fatal d : Query α) := ⟨fun _ => trivial⟩

/-- A violation that is not about a stale handle. -/
theorem asks_violate {v : Violation} (hv : ∀ heap, T.Excused heap (.violation v)) :
    T.Asks s (violate v : Query α) := ⟨fun _ => hv s.heap⟩

theorem asks_ite {c : Prop} [Decidable c] {p q : Query α} (hp : c → T.Asks s p)
    (hq : ¬ c → T.Asks s q) : T.Asks s (if c then p else q) := by
  split
  · exact hp ‹_›
  · exact hq ‹_›

/-- Going on unless a condition stops the query with a diagnostic. -/
theorem asks_guard {c : Prop} [Decidable c] {d : Diagnostic} {f : Unit → Query α}
    (hf : ¬ c → T.Asks s (f ())) : T.Asks s (if c then fatal d >>= f else f ()) :=
  asks_ite (fun _ => ⟨fun _ => trivial⟩) hf

/-- Going on at a position that has been checked. -/
theorem asks_inRange {c : Prop} [Decidable c] {u : Handle} {position : Nat}
    {f : PUnit → Query α} (hf : c → T.Asks s (f ⟨⟩)) :
    T.Asks s (if c then f ⟨⟩ else violate (.outOfRange u position) >>= f) :=
  asks_ite hf fun _ => ⟨fun _ => trivial⟩

omit [Carries α] in
theorem check_eq (e : Except Diagnostic α) (heap : Heap) : (liftM e : Query α) heap =
    match e with
    | .ok a => .ok a
    | .error d => .error (.fatal d) := by
  cases e <;> rfl

theorem asks_check {e : Except Diagnostic α} (h : ∀ a, e = .ok a → T.Ok s a) :
    T.Asks s (liftM e) := by
  refine ⟨fun _ => ?_⟩
  rw [check_eq]
  cases e with
  | ok a => exact h a rfl
  | error d => trivial

/-- What an `ok` handle names holds `ok` handles. -/
theorem asks_get {h : Handle} (hh : T.ok s.heap h) : T.Asks s (Heap.get h) := by
  refine ⟨fun hs => ?_⟩
  unfold Heap.get
  cases hf : s.heap.fetch h with
  | ok o => exact fun c hc => T.child hs hh (Arena.fetch_eq_ok.1 hf) hc
  | error g =>
    unfold Arena.fetch at hf
    split at hf
    · cases hf
    · cases hf
      exact ⟨hh, ‹_›⟩

section Lists

variable {γ : Type} {l : List γ}

theorem asks_mapM {f : γ → Query β} (hf : ∀ x ∈ l, T.Asks s (f x)) : T.Asks s (l.mapM f) := by
  induction l with
  | nil =>
    rw [List.mapM_nil]
    exact asks_pure (by simp)
  | cons x l ih =>
    rw [List.mapM_cons]
    refine asks_bind (hf x List.mem_cons_self) fun b hb => ?_
    refine asks_bind (ih fun y hy => hf y (List.mem_cons_of_mem x hy)) fun bs hbs => ?_
    exact asks_pure (by simpa using ⟨hb, by simpa using hbs⟩)

theorem asks_forM {f : γ → Query PUnit} (hf : ∀ x ∈ l, T.Asks s (f x)) :
    T.Asks s (l.forM f) := by
  induction l with
  | nil => exact asks_pure (ok_plain _)
  | cons x l ih =>
    exact asks_bind (hf x List.mem_cons_self) fun _ _ =>
      ih fun y hy => hf y (List.mem_cons_of_mem x hy)

theorem asks_foldlM {f : β → γ → Query β} {b : β} (hb : T.Ok s b)
    (hf : ∀ b, T.Ok s b → ∀ x ∈ l, T.Asks s (f b x)) : T.Asks s (l.foldlM f b) := by
  induction l generalizing b with
  | nil => exact asks_pure hb
  | cons x l ih =>
    rw [List.foldlM_cons]
    exact asks_bind (hf b hb x List.mem_cons_self) fun b' hb' =>
      ih hb' fun c hc y hy => hf c hc y (List.mem_cons_of_mem x hy)

theorem asks_allM {f : γ → Query Bool} (hf : ∀ x ∈ l, T.Asks s (f x)) : T.Asks s (l.allM f) := by
  induction l with
  | nil => exact asks_pure (ok_plain _)
  | cons x l ih =>
    refine asks_bind (hf x List.mem_cons_self) fun b _ => ?_
    cases b with
    | true => exact ih fun y hy => hf y (List.mem_cons_of_mem x hy)
    | false => exact asks_pure (ok_plain _)

theorem asks_anyM {f : γ → Query Bool} (hf : ∀ x ∈ l, T.Asks s (f x)) : T.Asks s (l.anyM f) := by
  induction l with
  | nil => exact asks_pure (ok_plain _)
  | cons x l ih =>
    refine asks_bind (hf x List.mem_cons_self) fun b _ => ?_
    cases b with
    | true => exact asks_pure (ok_plain _)
    | false => exact ih fun y hy => hf y (List.mem_cons_of_mem x hy)

theorem asks_findM? {l : List α} {f : α → Query Bool} (hl : T.Ok s l)
    (hf : ∀ x ∈ l, T.Asks s (f x)) : T.Asks s (l.findM? f) := by
  induction l with
  | nil => exact asks_pure ok_none
  | cons x l ih =>
    rw [ok_list] at hl
    refine asks_bind (hf x List.mem_cons_self) fun b _ => ?_
    cases b with
    | true => exact asks_pure ((ok_some x).2 (hl x List.mem_cons_self))
    | false =>
      exact ih ((ok_list l).2 fun y hy => hl y (List.mem_cons_of_mem x hy))
        fun y hy => hf y (List.mem_cons_of_mem x hy)

theorem asks_filterM {l : List α} {f : α → Query Bool} (hl : T.Ok s l)
    (hf : ∀ x ∈ l, T.Asks s (f x)) : T.Asks s (l.filterM f) := by
  have key : ∀ (l done : List α), T.Ok s l → T.Ok s done → (∀ x ∈ l, T.Asks s (f x)) →
      T.Asks s (List.filterAuxM f l done) := by
    intro l
    induction l with
    | nil => exact fun done _ hd _ => asks_pure hd
    | cons x l ih =>
      intro done hl hd hf
      rw [ok_list, List.forall_mem_cons] at hl
      rw [List.forall_mem_cons] at hf
      refine asks_bind hf.1 fun b _ => ih _ ((ok_list l).2 hl.2) ?_ hf.2
      cases b with
      | true => exact (ok_list _).2 (List.forall_mem_cons.2 ⟨hl.1, (ok_list done).1 hd⟩)
      | false => exact hd
  refine asks_bind (key l [] hl (by simp) hf) fun kept hk => asks_pure ?_
  rw [ok_list] at hk ⊢
  exact fun x hx => hk x (List.mem_reverse.1 hx)

end Lists

/-! ## Actions -/

/-- A result with only ok handles, or an excuse, in a state that steps lead to. -/
def OkResult (T : Trust) (s : Space) : EStateM.Result Halt Space α → Prop
  | .ok a s' => T.Later s s' ∧ T.Ok s' a
  | .error e s' => T.Later s s' ∧ T.Excused s'.heap e

/-- An action that is made of steps and gives only ok handles back. -/
structure Runs (T : Trust) (s : Space) (act : Action α) : Prop where
  result : T.holds s → T.OkResult s (act s)

theorem runs_of_holds {act : Action α} (h : T.holds s → T.Runs s act) : T.Runs s act :=
  ⟨fun hs => (h hs).result hs⟩

theorem runs_pure {a : α} (ha : T.Ok s a) : T.Runs s (pure a) := ⟨fun hs => ⟨.refl hs, ha⟩⟩

omit [Carries α] in
theorem runs_pure_bind {a : α} {f : α → Action β} (hf : T.Runs s (f a)) :
    T.Runs s (pure a >>= f) := ⟨hf.result⟩

/-- What follows may rest on how the first part ended. -/
theorem runs_bind_of_ok {act : Action α} {f : α → Action β} (ha : T.Runs s act)
    (hf : ∀ a s', act s = .ok a s' → T.Later s s' → T.Ok s' a → T.Runs s' (f a)) :
    T.Runs s (act >>= f) := by
  refine ⟨fun hs => ?_⟩
  have h₁ := ha.result hs
  simp only [bind, EStateM.bind]
  cases has : act s with
  | error e s' =>
    rw [has] at h₁
    exact h₁
  | ok a s' =>
    rw [has] at h₁
    have h₂ := (hf a s' has h₁.1 h₁.2).result h₁.1.holds
    simp only
    cases hfs : f a s' with
    | error e s'' =>
      rw [hfs] at h₂
      exact ⟨h₁.1.trans h₂.1, h₂.2⟩
    | ok b s'' =>
      rw [hfs] at h₂
      exact ⟨h₁.1.trans h₂.1, h₂.2⟩

theorem runs_bind {act : Action α} {f : α → Action β} (ha : T.Runs s act)
    (hf : ∀ a s', T.Later s s' → T.Ok s' a → T.Runs s' (f a)) : T.Runs s (act >>= f) :=
  runs_bind_of_ok ha fun a s' _ => hf a s'

theorem runs_fatal (d : Diagnostic) : T.Runs s (fatal d : Action α) :=
  ⟨fun hs => ⟨.refl hs, trivial⟩⟩

theorem runs_violate {v : Violation} (hv : ∀ heap, T.Excused heap (.violation v)) :
    T.Runs s (violate v : Action α) := ⟨fun hs => ⟨.refl hs, hv s.heap⟩⟩

/-- Going on at a position that has been checked. -/
theorem runs_inRange {c : Prop} [Decidable c] {u : Handle} {position : Nat}
    {f : PUnit → Action α} (hf : c → T.Runs s (f ⟨⟩)) :
    T.Runs s (if c then f ⟨⟩ else violate (.outOfRange u position) >>= f) := by
  split
  · exact hf ‹_›
  · exact ⟨fun hs => ⟨.refl hs, trivial⟩⟩

theorem runs_ite {c : Prop} [Decidable c] {p q : Action α} (hp : c → T.Runs s p)
    (hq : ¬ c → T.Runs s q) : T.Runs s (if c then p else q) := by
  split
  · exact hp ‹_›
  · exact hq ‹_›

omit [Carries α] in
theorem ask_eq (q : Query α) (s : Space) : (liftM q : Action α) s =
    match q s.heap with
    | .ok a => .ok a s
    | .error e => .error e s := rfl

/-- Going on unless a condition stops the action with a diagnostic. -/
theorem runs_guard {c : Prop} [Decidable c] {d : Diagnostic} {f : Unit → Action β}
    (hf : ¬ c → T.Runs s (f ())) : T.Runs s (if c then fatal d >>= f else f ()) :=
  runs_ite (fun _ => ⟨fun hs => ⟨.refl hs, trivial⟩⟩) hf

/-- A query runs without changing the space. -/
theorem runs_ask {q : Query α} (hq : T.Asks s q) : T.Runs s (liftM q) := by
  refine ⟨fun hs => ?_⟩
  have h := hq.answer hs
  rw [ask_eq]
  cases hqs : q s.heap with
  | error e =>
    rw [hqs] at h
    exact ⟨.refl hs, h⟩
  | ok a =>
    rw [hqs] at h
    exact ⟨.refl hs, h⟩

/-- After a query the space is as before. -/
theorem runs_ask_bind {q : Query α} {f : α → Action β} (hq : T.Asks s q)
    (hf : ∀ a, q s.heap = .ok a → T.Ok s a → T.Runs s (f a)) : T.Runs s (liftM q >>= f) := by
  refine ⟨fun hs => ?_⟩
  have h := hq.answer hs
  simp only [bind, EStateM.bind, ask_eq]
  cases hqs : q s.heap with
  | error e =>
    rw [hqs] at h
    exact ⟨.refl hs, h⟩
  | ok a =>
    rw [hqs] at h
    exact (hf a hqs h).result hs

/-- A check of arguments leaves the space alone. -/
theorem runs_check {e : Except Diagnostic α} (h : ∀ a, e = .ok a → T.Ok s a) :
    T.Runs s (liftM e) := runs_ask (asks_check h)

theorem runs_check_plain [Plain α] (e : Except Diagnostic α) : T.Runs s (liftM e) :=
  runs_check fun a _ => ok_plain a

omit [Carries α] in
theorem runs_check_bind {e : Except Diagnostic α} {f : α → Action β}
    (hf : ∀ a, e = .ok a → T.Runs s (f a)) : T.Runs s (liftM e >>= f) := by
  refine ⟨fun hs => ?_⟩
  cases e with
  | ok a => exact (hf a rfl).result hs
  | error d => exact ⟨.refl hs, trivial⟩

theorem runs_get_bind {f : Space → Action β} (hf : T.Runs s (f s)) :
    T.Runs s ((get : Action Space) >>= f) := ⟨hf.result⟩

section Lists

variable {γ : Type} {l : List γ}

theorem runs_mapM {f : γ → Action β} (hf : ∀ x ∈ l, ∀ s', T.Later s s' → T.Runs s' (f x)) :
    T.Runs s (l.mapM f) := by
  induction l generalizing s with
  | nil =>
    rw [List.mapM_nil]
    exact runs_pure (by simp)
  | cons x l ih =>
    rw [List.mapM_cons]
    refine runs_of_holds fun hs => ?_
    refine runs_bind (hf x List.mem_cons_self s (.refl hs)) fun b s₁ l₁ hb => ?_
    refine runs_bind (ih fun y hy s₂ l₂ => hf y (List.mem_cons_of_mem x hy) s₂ (l₁.trans l₂))
      fun bs s₂ l₂ hbs => ?_
    exact runs_pure (by simpa using ⟨l₂.ok hb, by simpa using hbs⟩)

theorem runs_forM {f : γ → Action PUnit} (hf : ∀ x ∈ l, ∀ s', T.Later s s' → T.Runs s' (f x)) :
    T.Runs s (l.forM f) := by
  induction l generalizing s with
  | nil => exact runs_pure (ok_plain _)
  | cons x l ih =>
    refine runs_of_holds fun hs => ?_
    exact runs_bind (hf x List.mem_cons_self s (.refl hs)) fun _ s₁ l₁ _ =>
      ih fun y hy s₂ l₂ => hf y (List.mem_cons_of_mem x hy) s₂ (l₁.trans l₂)

theorem runs_foldlM {f : β → γ → Action β} {b : β} (hb : T.Ok s b)
    (hf : ∀ x ∈ l, ∀ s' b, T.Later s s' → T.Ok s' b → T.Runs s' (f b x)) :
    T.Runs s (l.foldlM f b) := by
  induction l generalizing s b with
  | nil => exact runs_pure hb
  | cons x l ih =>
    rw [List.foldlM_cons]
    refine runs_of_holds fun hs => ?_
    exact runs_bind (hf x List.mem_cons_self s b (.refl hs) hb) fun b' s₁ l₁ hb' =>
      ih hb' fun y hy s₂ c l₂ hc => hf y (List.mem_cons_of_mem x hy) s₂ c (l₁.trans l₂) hc

theorem runs_anyM {f : γ → Action Bool} (hf : ∀ x ∈ l, ∀ s', T.Later s s' → T.Runs s' (f x)) :
    T.Runs s (l.anyM f) := by
  induction l generalizing s with
  | nil => exact runs_pure (ok_plain _)
  | cons x l ih =>
    refine runs_of_holds fun hs => ?_
    refine runs_bind (hf x List.mem_cons_self s (.refl hs)) fun b s₁ l₁ _ => ?_
    cases b with
    | true => exact runs_pure (ok_plain _)
    | false => exact ih fun y hy s₂ l₂ => hf y (List.mem_cons_of_mem x hy) s₂ (l₁.trans l₂)

theorem runs_allM {f : γ → Action Bool} (hf : ∀ x ∈ l, ∀ s', T.Later s s' → T.Runs s' (f x)) :
    T.Runs s (l.allM f) := by
  induction l generalizing s with
  | nil => exact runs_pure (ok_plain _)
  | cons x l ih =>
    refine runs_of_holds fun hs => ?_
    refine runs_bind (hf x List.mem_cons_self s (.refl hs)) fun b s₁ l₁ _ => ?_
    cases b with
    | true => exact ih fun y hy s₂ l₂ => hf y (List.mem_cons_of_mem x hy) s₂ (l₁.trans l₂)
    | false => exact runs_pure (ok_plain _)

theorem runs_arrayMapM {l : Array γ} {f : γ → Action β}
    (hf : ∀ x ∈ l.toList, ∀ s', T.Later s s' → T.Runs s' (f x)) : T.Runs s (l.mapM f) := by
  rw [Array.mapM_eq_mapM_toList, map_eq_pure_bind]
  exact runs_bind (runs_mapM hf) fun bs _ _ hb => runs_pure (by simpa using hb)

theorem runs_optionMapM {o : Option γ} {f : γ → Action β}
    (hf : ∀ x, o = some x → T.Runs s (f x)) : T.Runs s (o.mapM f) := by
  cases o with
  | none => exact runs_pure ok_none
  | some x => exact runs_bind (hf x rfl) fun b _ _ hb => runs_pure ((ok_some b).2 hb)

end Lists

end Trust

end ObjectSpace

import ObjectSpace.Proofs.Run.Turn

/-!
# Effects

What an operation may do besides placing objects: an iterator moves on, a list is filled, an
attribute is set (`Effect`). An invariant of spaces *bears* an effect when it still holds after it.

**Rules.** `Keeps I act` says that `act` leaves a space where `I` holds, however it ends. It follows
the structure of a computation: a query keeps everything, a sequence keeps what its parts keep, and
a loop what its body keeps. So every action of the model has one lemma, which names the effects that
`I` has to bear for it. All invariants bear that objects are placed and that an object changes which
the computation itself has placed (`Stable`).

An invariant that iteration keeps (`Iterates`) need not bear that all objects are placed: iterating
makes integers, texts, tuples and iterators only.
-/

namespace ObjectSpace

/-! ## Changes of objects -/

namespace Object

/-- The objects that operations place, files and contexts apart. -/
def Made : Object → Prop
  | file _ => False
  | userInstance _ attributes => attributes = {}
  | userClass _ members => ∃ l, members = .ofList l
  | context _ => False
  | _ => True

/-- The objects that iterating places. -/
def Yielded : Object → Prop
  | int _ | str .. | tuple _ | iter _ => True
  | _ => False

/-- Another content of a list, dict or set. -/
def Refills : Object → Object → Prop
  | list _, list _ | dict _, dict _ | set _, set _ => True
  | o, o' => o' = o

/-- An instance or a class with one more attribute. -/
def withAttribute (name : String) (w : Handle) : Object → Object
  | userInstance cls attributes => userInstance cls (attributes.set name w)
  | userClass label members => userClass label (members.set name w)
  | o => o

/-- A context with other variables. -/
def Rebinds : Object → Object → Prop
  | context c, context c' => c'.parent = c.parent
  | o, o' => o' = o

/-- A file with another stream. -/
def Restreams : Object → Object → Prop
  | file f, file f' => ∃ stream, f' = { f with stream }
  | o, o' => o' = o

theorem Yielded.made {o : Object} (h : o.Yielded) : o.Made := by
  cases o with
  | int | str | tuple | iter => trivial
  | _ => exact h.elim

section Observations

variable {β : Type} {p : Object → β} {o o' : Object}

/-- What does not depend on the content of lists, dicts and sets. -/
theorem Refills.observe_eq (h : o.Refills o') (hlist : ∀ a b, p (list a) = p (list b))
    (hdict : ∀ a b, p (dict a) = p (dict b)) (hset : ∀ a b, p (set a) = p (set b)) :
    p o' = p o := by
  cases o with
  | list a =>
    cases o' with
    | list b => exact hlist b a
    | _ => cases h
  | dict a =>
    cases o' with
    | dict b => exact hdict b a
    | _ => cases h
  | set a =>
    cases o' with
    | set b => exact hset b a
    | _ => cases h
  | _ => exact congrArg p h

/-- What does not depend on the variables of contexts. -/
theorem Rebinds.observe_eq (h : o.Rebinds o')
    (hcontext : ∀ c d, d.parent = c.parent → p (context d) = p (context c)) : p o' = p o := by
  cases o with
  | context c =>
    cases o' with
    | context d => exact hcontext c d h
    | _ => cases h
  | _ => exact congrArg p h

/-- What does not depend on the streams of files. -/
theorem Restreams.observe_eq (h : o.Restreams o')
    (hfile : ∀ f stream, p (file { f with stream }) = p (file f)) : p o' = p o := by
  cases o with
  | file f =>
    cases o' with
    | file g =>
      obtain ⟨stream, rfl⟩ := h
      exact hfile f stream
    | _ => cases h
  | _ => exact congrArg p h

end Observations

end Object

/-- What an operation may do besides placing objects. -/
inductive Effect where
  /-- Iterators move on. -/
  | advance
  /-- A list, dict or set gets another content. -/
  | fill (h : Handle)
  | assign (v : Handle) (name : String) (w : Handle)
  /-- A context is placed. -/
  | scope (parent : Option Handle)
  /-- Contexts get other variables. -/
  | contexts
  | globals (ctx : Handle)
  /-- Files are opened, read, written and closed. -/
  | files
  /-- The disk changes otherwise. -/
  | disk

namespace Space

variable {α β γ : Type} {I : Space → Prop} {P Q : Object → Prop} {v h : Handle} {o : Object}

/-! ## Invariants -/

/-- An invariant still holds when certain objects are placed. -/
def Admits (I : Space → Prop) (P : Object → Prop) : Prop :=
  ∀ s o h old heap, I s → P o → Arena.Placed s.heap o.sizeClass o h old heap →
    I { s with heap, disk := settle old s.disk }

/-- An invariant still holds when the object behind a handle changes in a certain way. -/
def Alters (I : Space → Prop) (h : Handle) (R : Object → Object → Prop) : Prop :=
  ∀ s o f, I s → s.heap.get? h = some o → R o (f o) → I { s with heap := s.heap.modify h f }

/-- An invariant still holds after an effect. -/
def Bears (I : Space → Prop) : Effect → Prop
  | .advance => ∀ it, Alters I it fun o o' => ∃ c, o' = o.moveTo c
  | .fill h => Alters I h Object.Refills
  | .assign v name w => Alters I v fun o o' => o' = o.withAttribute name w ∨ o' = o
  | .scope parent => Admits I fun o => ∃ slots, o = .context { slots, parent }
  | .contexts => ∀ c, Alters I c Object.Rebinds
  | .globals ctx => ∀ s, I s → I { s with globals := some ctx }
  | .files => Admits I (fun o => ∃ f, o = .file f) ∧ ∀ f, Alters I f Object.Restreams
  | .disk => ∀ s disk, I s → I { s with disk }

/-- What is interned newly is live and names the constant that it is interned for. -/
structure Interns (s s' : Space) : Prop where
  integers : ∀ e ∈ s'.integers, e ∈ s.integers ∨ s.heap.Has e.2 (.int e.1)
  texts : ∀ e ∈ s'.texts, e ∈ s.texts ∨ s.heap.Has e.2 (.str e.1 (some (Fnv.hashText e.1)))

/-- An invariant about the heap, the disk, the global context and what is interned that bears
certain objects to be placed. -/
structure Places (I : Space → Prop) (P : Object → Prop) : Prop where
  roomy : ∀ {s}, I s → s.heap.Roomy
  other : ∀ {s s'}, I s → s'.heap = s.heap → s'.disk = s.disk → s'.globals = s.globals →
    s.Interns s' → I s'
  place : Admits I P

/-- An invariant that iteration keeps. -/
structure Iterates (I : Space → Prop) : Prop extends Places I Object.Yielded where
  advance : Bears I .advance

/-- There was nothing behind a handle while an invariant held. -/
def Fresh (I : Space → Prop) (h : Handle) : Prop := ∃ s, I s ∧ s.heap.get? h = none

/-- An invariant that bears new objects, and changes of new objects. -/
structure Stable (I : Space → Prop) : Prop extends Places I Object.Made where
  fill : ∀ {h}, Fresh I h → Bears I (.fill h)
  assign : ∀ {h}, Fresh I h → ∀ name w, Bears I (.assign h name w)

theorem Places.mono (k : Places I P) (h : ∀ o, Q o → P o) : Places I Q :=
  ⟨k.roomy, k.other, fun s o g old heap hi ho => k.place s o g old heap hi (h o ho)⟩

theorem Stable.yields (k : Stable I) : Places I Object.Yielded :=
  k.toPlaces.mono fun _ => Object.Yielded.made

theorem Stable.iterates (k : Stable I) (ha : Bears I .advance) : Iterates I := ⟨k.yields, ha⟩

/-- However it ends, a computation leaves a space where the invariant holds. -/
def Keeps (I : Space → Prop) (act : Action α) : Prop := ∀ s, I s → I (leftBy (act s))

/-! ## Rules -/

theorem keeps_pure (a : α) : Keeps I (pure a : Action α) := fun _ hi => hi

theorem keeps_fatal (d : Diagnostic) : Keeps I (fatal d : Action α) := fun _ hi => hi

theorem keeps_violate (e : Violation) : Keeps I (violate e : Action α) := fun _ hi => hi

theorem keeps_bind {act : Action α} {f : α → Action β} (ha : Keeps I act)
    (hf : ∀ a, Keeps I (f a)) : Keeps I (act >>= f) := by
  intro s hi
  have h₁ := ha s hi
  simp only [bind, EStateM.bind]
  cases hact : act s with
  | ok a s' =>
    rw [hact] at h₁
    exact hf a s' h₁
  | error e s' =>
    rw [hact] at h₁
    exact h₁

/-- A query keeps everything. -/
theorem keeps_ask (q : Query α) : Keeps I (liftM q : Action α) := by
  intro s hi
  rw [Trust.ask_eq]
  cases q s.heap with
  | ok a | error e => exact hi

theorem keeps_ask_bind {q : Query α} {f : α → Action β} (hf : ∀ a, Keeps I (f a)) :
    Keeps I (liftM q >>= f) :=
  keeps_bind (keeps_ask q) hf

theorem keeps_check (e : Except Diagnostic α) : Keeps I (liftM e : Action α) :=
  keeps_ask (liftM e)

theorem keeps_check_bind {e : Except Diagnostic α} {f : α → Action β}
    (hf : ∀ a, Keeps I (f a)) : Keeps I (liftM e >>= f) :=
  keeps_bind (keeps_check e) hf

theorem keeps_get_bind {f : Space → Action β} (hf : ∀ s, Keeps I (f s)) :
    Keeps I ((get : Action Space) >>= f) := fun s hi => hf s s hi

theorem keeps_ite {c : Prop} [Decidable c] {p q : Action α} (hp : Keeps I p) (hq : Keeps I q) :
    Keeps I (if c then p else q) := by
  split
  · exact hp
  · exact hq

/-- Going on unless a condition stops the action. -/
theorem keeps_guard {c : Prop} [Decidable c] {d : Diagnostic} {f : Unit → Action β}
    (hf : Keeps I (f ())) : Keeps I (if c then fatal d >>= f else f ()) :=
  keeps_ite (fun _ hi => hi) hf

theorem keeps_inRange {c : Prop} [Decidable c] {e : Violation} {f : PUnit → Action β}
    (hf : Keeps I (f ⟨⟩)) : Keeps I (if c then f ⟨⟩ else violate e >>= f) :=
  keeps_ite hf fun _ hi => hi

section Lists

variable {f : γ → Action β}

theorem keeps_mapM (hf : ∀ x, Keeps I (f x)) (l : List γ) : Keeps I (l.mapM f) := by
  induction l with
  | nil =>
    rw [List.mapM_nil]
    exact keeps_pure _
  | cons x l ih =>
    rw [List.mapM_cons]
    exact keeps_bind (hf x) fun _ => keeps_bind ih fun _ => keeps_pure _

theorem keeps_arrayMapM (hf : ∀ x, Keeps I (f x)) (l : Array γ) : Keeps I (l.mapM f) := by
  rw [Array.mapM_eq_mapM_toList, map_eq_pure_bind]
  exact keeps_bind (keeps_mapM hf _) fun _ => keeps_pure _

theorem keeps_optionMapM (hf : ∀ x, Keeps I (f x)) (o : Option γ) : Keeps I (o.mapM f) := by
  cases o with
  | none => exact keeps_pure _
  | some x => exact keeps_bind (hf x) fun _ => keeps_pure _

theorem keeps_forM {f : γ → Action PUnit} (hf : ∀ x, Keeps I (f x)) (l : List γ) :
    Keeps I (l.forM f) := by
  induction l with
  | nil => exact keeps_pure _
  | cons x l ih => exact keeps_bind (hf x) fun _ => ih

theorem keeps_foldlM {f : β → γ → Action β} (hf : ∀ b x, Keeps I (f b x)) (b : β) (l : List γ) :
    Keeps I (l.foldlM f b) := by
  induction l generalizing b with
  | nil => exact keeps_pure _
  | cons x l ih =>
    rw [List.foldlM_cons]
    exact keeps_bind (hf b x) fun b' => ih b'

theorem keeps_anyM {f : γ → Action Bool} (hf : ∀ x, Keeps I (f x)) (l : List γ) :
    Keeps I (l.anyM f) := by
  induction l with
  | nil => exact keeps_pure _
  | cons x l ih =>
    refine keeps_bind (hf x) fun b => ?_
    cases b with
    | true => exact keeps_pure _
    | false => exact ih

theorem keeps_allM {f : γ → Action Bool} (hf : ∀ x, Keeps I (f x)) (l : List γ) :
    Keeps I (l.allM f) := by
  induction l with
  | nil => exact keeps_pure _
  | cons x l ih =>
    refine keeps_bind (hf x) fun b => ?_
    cases b with
    | true => exact ih
    | false => exact keeps_pure _

end Lists

/-! ## Primitive steps -/

theorem Interns.of_eq {s s' : Space} (hi : s'.integers = s.integers) (ht : s'.texts = s.texts) :
    s.Interns s' :=
  ⟨fun _ he => .inl (hi ▸ he), fun _ he => .inl (ht ▸ he)⟩

theorem Places.alloc (k : Places I P) (ho : P o) : Keeps I (alloc o) := by
  intro s hi
  obtain ⟨h, old, heap, p, heq⟩ := Trust.alloc_placed (k.roomy hi) o
  rw [heq]
  exact k.other (k.place s o h old heap hi ho p) rfl rfl rfl (.of_eq rfl rfl)

/-- What comes after placing an object may rest on the handle being fresh. -/
theorem Places.alloc_bind (k : Places I P) (ho : P o) {f : Handle → Action β}
    (hf : ∀ h, Fresh I h → Keeps I (f h)) : Keeps I (Space.alloc o >>= f) := by
  intro s hi
  have hleft := k.alloc ho s hi
  obtain ⟨h, old, heap, p, heq⟩ := Trust.alloc_placed (k.roomy hi) o
  rw [heq] at hleft
  have hbind : (Space.alloc o >>= f) s =
      f h { s with heap, pending := s.pending + 1, disk := settle old s.disk } := by
    simp only [bind, EStateM.bind, heq]
  rw [hbind]
  exact hf h ⟨s, hi, p.get?_new⟩ _ hleft

/-- Changing an object that is not there stops the action. -/
theorem keeps_update {R : Object → Object → Prop} {f : Object → Object} (ha : Alters I h R)
    (hf : ∀ o, R o (f o)) : Keeps I (update h f) := by
  intro s hi
  by_cases hc : s.heap.isCurrent h = true
  · obtain ⟨o, ho⟩ := Arena.isCurrent_iff.1 hc
    rw [Trust.update_eq ho]
    exact ha s o f hi ho (hf o)
  · have heq : update h f s = .error (.violation (.staleHandle h)) s := by
      simp only [update, bind, EStateM.bind, get_apply, hc]
      rfl
    rw [heq]
    exact hi

theorem Places.write (k : Places I P) (text : String) : Keeps I (write text) :=
  fun _ hi => k.other hi rfl rfl rfl (.of_eq rfl rfl)

theorem Places.takeOutput (k : Places I P) : Keeps I takeOutput :=
  fun _ hi => k.other hi rfl rfl rfl (.of_eq rfl rfl)

theorem keeps_changeDisk (hd : Bears I .disk) (f : Disk → α × Disk) : Keeps I (changeDisk f) :=
  fun s hi => hd s _ hi

/-! ## Permanent and interned values -/

theorem keeps_nothing : Keeps I nothing := keeps_get_bind fun _ => keeps_pure _

theorem keeps_boolean (b : Bool) : Keeps I (boolean b) := keeps_get_bind fun _ => keeps_pure _

theorem keeps_isNone (v : Handle) : Keeps I (isNone v) := keeps_get_bind fun _ => keeps_pure _

theorem keeps_typeObject (k : Kind) : Keeps I (typeObject k) := keeps_get_bind fun _ => keeps_pure _

theorem keeps_methodFunction (m : Method) : Keeps I (methodFunction m) :=
  keeps_get_bind fun _ => keeps_pure _

theorem Places.record (k : Places I P) (ho : P o) {r : Handle → Space → Space}
    (hr : ∀ h s, (r h s).heap = s.heap ∧ (r h s).disk = s.disk ∧ (r h s).globals = s.globals ∧
      (s.heap.Has h o → s.Interns (r h s))) :
    Keeps I (do
      let h ← Space.alloc o
      modify (r h)
      return h) := by
  intro s hi
  have hleft := k.alloc ho s hi
  obtain ⟨h, old, heap, p, heq⟩ := Trust.alloc_placed (k.roomy hi) o
  obtain ⟨hheap, hdisk, hglobals, hinterns⟩ :=
    hr h { s with heap, pending := s.pending + 1, disk := settle old s.disk }
  rw [heq] at hleft
  simp only [bind, EStateM.bind, heq]
  exact k.other hleft hheap hdisk hglobals (hinterns p.has_self)

theorem Stable.internInt (k : Stable I) (n : Int64) : Keeps I (internInt n) := by
  refine keeps_get_bind fun s => ?_
  split
  · exact keeps_pure _
  · refine k.record (o := .int n) trivial fun h s => ⟨rfl, rfl, rfl, fun hh => ⟨?_, fun _ => .inl⟩⟩
    exact List.forall_mem_cons.2 ⟨.inr hh, fun _ => .inl⟩

theorem Stable.internStr (k : Stable I) (text : String) : Keeps I (internStr text) := by
  refine keeps_get_bind fun s => ?_
  split
  · exact keeps_pure _
  · refine k.record (o := .str text _) trivial fun h s =>
      ⟨rfl, rfl, rfl, fun hh => ⟨fun _ => .inl, ?_⟩⟩
    exact List.forall_mem_cons.2 ⟨.inr hh, fun _ => .inl⟩

theorem Stable.newRange (k : Stable I) (start stop step : Int64) :
    Keeps I (newRange start stop step) := by
  unfold Space.newRange
  split
  · exact keeps_fatal _
  · exact k.alloc trivial

/-! ## Iteration -/

theorem Places.iter (k : Places I Object.Yielded) (v : Handle) : Keeps I (iter v) := by
  refine keeps_ask_bind fun o => ?_
  split
  · exact keeps_pure v
  · split
    · exact k.alloc trivial
    · exact keeps_ask_bind fun _ => keeps_fatal _

theorem Places.reversed (k : Places I Object.Yielded) (v : Handle) : Keeps I (reversed v) := by
  refine keeps_ask_bind fun o => ?_
  split
  · exact k.alloc trivial
  · exact keeps_ask_bind fun _ => keeps_fatal _

theorem Places.emit (k : Places I Object.Yielded) (y : Yield) : Keeps I (emit y) := by
  cases y with
  | handle h => exact keeps_pure h
  | int n => exact k.alloc trivial
  | str s => exact k.alloc trivial
  | pair a b => exact k.alloc trivial
  | numbered n h => exact keeps_bind (k.alloc trivial) fun _ => k.alloc trivial

namespace Iterates

variable (k : Iterates I)

include k

/-- The end of each step: the iterator moves, and the value is made. -/
theorem move (it : Handle) (c : Cursor) (y : Option Yield) :
    Keeps I (do
      update it (Object.moveTo c)
      y.mapM Space.emit) :=
  keeps_bind (keeps_update (k.advance it) fun _ => ⟨c, rfl⟩) fun _ => keeps_optionMapM k.emit y

theorem nextWithin (n : Nat) (it : Handle) : Keeps I (nextWithin n it) := by
  induction n generalizing it with
  | zero => exact keeps_violate _
  | succ n ih =>
    unfold Space.nextWithin
    refine keeps_ask_bind fun c => ?_
    dsimp only
    split
    · rename_i inner count
      refine keeps_bind (ih inner) fun r => ?_
      cases r with
      | some w => exact k.move it _ (some (.numbered count w))
      | none => exact k.move it _ none
    · rename_i left right
      refine keeps_bind (ih left) fun r => ?_
      cases r with
      | some a =>
        refine keeps_bind (ih right) fun r => ?_
        cases r with
        | some b => exact k.move it _ (some (.pair a b))
        | none => exact k.move it _ none
      | none => exact k.move it _ none
    · exact keeps_ask_bind fun r => k.move it r.2 r.1

theorem next (it : Handle) : Keeps I (next it) := keeps_ask_bind fun n => k.nextWithin n it

theorem drain (it : Handle) (done : Array Handle) (n : Nat) : Keeps I (drain it done n) := by
  induction n generalizing done with
  | zero => exact keeps_violate _
  | succ n ih =>
    refine keeps_bind (k.next it) fun r => ?_
    cases r with
    | some v => exact ih _
    | none => exact keeps_pure done

theorem collect (v : Handle) : Keeps I (collect v) := by
  refine keeps_ask_bind fun o => ?_
  split
  · exact keeps_pure _
  · exact keeps_pure _
  · exact keeps_pure _
  · refine keeps_bind (k.iter v) fun it => ?_
    exact keeps_ask_bind fun _ => keeps_ask_bind fun _ => k.drain it _ _

end Iterates

end Space

end ObjectSpace

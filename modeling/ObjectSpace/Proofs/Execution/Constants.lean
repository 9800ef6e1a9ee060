import ObjectSpace.Proofs.Effects.Shelter
import ObjectSpace.Proofs.Execution.Arithmetic

/-!
# Constants

None, the Booleans and the interned values are made once. A run may be given any handles here, also
such as name nothing any more (`Space.Goes`); an operation may stop half-way, and a collection that
meets a stale handle ends the run.

**The invariant** (`Anchored`). None and each Boolean are live and have one handle, and what is
recorded for an integer or a text is live and names it. Meanwhile the handles of None and of the
Booleans are the same, and what is recorded stays (`Lasts`).

- An operation is made of primitive steps. They place no None and no Boolean, take no slot of a live
  object, and record a handle only for what has none yet. That what they record is live is not known
  of steps on any handles, but of the effects of operations (`stable_interned`).
- A collection that completes has marked all permanent roots.

**Truth values** (`Tells`). An action that ends with a truth value ends by taking the handle of a
Boolean, so its result is one of the two whatever it was given.

**Theorem (`constants_stable`).** In such a run there are one None and one object for each Boolean,
operations that give a truth value give one of these, and a constant has one handle for all times.
-/

namespace ObjectSpace

open Relation (ReflTransGen)

/-! ## Runs on any handles -/

/-- The trust under which all handles are `ok`. -/
def anyTrust : Trust where
  holds s := s.heap.Roomy
  ok _ _ := True
  roomy hr := hr
  root _ _ := trivial
  child _ _ _ _ := trivial
  step hr st := st.roomy hr
  ok_step _ _ _ := trivial
  ok_placed _ _ := trivial

namespace Object

/-- Integers and texts. -/
def Literal : Object → Prop
  | int _ | str .. => True
  | _ => False

variable {o o' : Object}

theorem Single.fixed (h : o.Single) : o.Fixed := by
  cases o with
  | nothing | bool => exact fun _ he => he
  | _ => exact h.elim

/-- What becomes None or a Boolean was that. -/
theorem Single.eq_of_evolves (h : o'.Single) (he : o.Evolves o') : o = o' := by
  cases he.evolution with
  | same => rfl
  | _ => exact h.elim

theorem Single.not_placeable {ok : Heap → Handle → Prop} {heap : Heap} (h : o.Single) :
    ¬ Placeable ok heap o := by
  cases o with
  | nothing | bool => exact id
  | _ => exact h.elim

end Object

namespace Space

/-- One turn: an operation on any handles, however it ends, or a collection that completes. -/
inductive Goes (s : Space) : Space → Prop
  | operation (op : Operation) : Goes s ((Turn.operation op).leave s)
  | collection {t : Turn} {hs : List Handle} {s' : Space} : t.Collects → t.run s = .ok hs s' →
      Goes s s'

variable {s s' : Space} {v w : Handle} {o : Object} {α : Type}

/-- An action that succeeds as an operation is a turn. -/
theorem Goes.of_ok [Carries α] {act : Action α} {a : α} (op : Operation)
    (hop : op.run = Operation.returned act) (h : act s = .ok a s') : Goes s s' :=
  leave_of_ok op hop h ▸ .operation op

/-! ## What is recorded -/

/-- What is recorded for an integer or a text is live and names it. -/
structure Interned (s : Space) : Prop where
  roomy : s.heap.Roomy
  integers : ∀ e ∈ s.integers, s.heap.Has e.2 (.int e.1)
  texts : ∀ e ∈ s.texts, s.heap.Has e.2 (.str e.1 (some (Fnv.hashText e.1)))

/-- The record survives where live integers and texts do. -/
theorem Interned.of_has {heap : Heap} {disk : Disk} {pending : Nat} (hs : s.Interned)
    (hr : heap.Roomy) (h : ∀ v o, o.Literal → s.heap.Has v o → heap.Has v o) :
    Interned { s with heap, disk, pending } :=
  ⟨hr, fun e he => h _ _ trivial (hs.integers e he), fun e he => h _ _ trivial (hs.texts e he)⟩

theorem admits_interned (P : Object → Prop) : Admits Interned P :=
  fun _ _ _ _ _ hs _ p => hs.of_has (p.roomy hs.roomy) fun _ _ _ => p.has

/-- Integers and texts do not change. -/
theorem alters_interned {R : Object → Object → Prop} (h : ∀ o o', R o o' → o.Literal → o' = o) :
    Alters Interned w R := by
  intro s o f hs hget hf
  have hkeep : Shelters (fun _ o => o.Literal) s { s with heap := s.heap.modify w f } :=
    alters_shelters (fun o o' hl _ hR => h o o' hR hl) s o f (.refl hs.roomy) hget hf
  exact hs.of_has hkeep.roomy hkeep.has

theorem bears_interned (e : Effect) : Bears Interned e := by
  have hliteral : ∀ {o : Object}, o.Literal → (∃ n, o = .int n) ∨ ∃ t x, o = .str t x := by
    intro o ho
    cases o with
    | int n => exact .inl ⟨n, rfl⟩
    | str t x => exact .inr ⟨t, x, rfl⟩
    | _ => exact ho.elim
  cases e with
  | advance =>
    intro it
    refine alters_interned fun o o' hc ho => ?_
    obtain ⟨c, rfl⟩ := hc
    obtain ⟨n, rfl⟩ | ⟨t, x, rfl⟩ := hliteral ho <;> rfl
  | fill h =>
    refine alters_interned fun o o' hR ho => ?_
    obtain ⟨n, rfl⟩ | ⟨t, x, rfl⟩ := hliteral ho <;> exact hR
  | assign v name w =>
    show Alters Interned v fun o o' => o' = o.withAttribute name w ∨ o' = o
    refine alters_interned fun o o' hR ho => ?_
    obtain ⟨n, rfl⟩ | ⟨t, x, rfl⟩ := hliteral ho <;> exact hR.elim id id
  | scope parent => exact admits_interned _
  | contexts =>
    refine fun c => alters_interned fun o o' hR ho => ?_
    obtain ⟨n, rfl⟩ | ⟨t, x, rfl⟩ := hliteral ho <;> exact hR
  | globals ctx => exact fun s hs => ⟨hs.roomy, hs.integers, hs.texts⟩
  | files =>
    refine ⟨admits_interned _, fun f => alters_interned fun o o' hR ho => ?_⟩
    obtain ⟨n, rfl⟩ | ⟨t, x, rfl⟩ := hliteral ho <;> exact hR
  | disk => exact fun s disk hs => ⟨hs.roomy, hs.integers, hs.texts⟩

/-- What is recorded newly is live and names the constant. -/
theorem stable_interned : Stable Interned where
  roomy hs := hs.roomy
  other hs hheap _ _ hnew :=
    { roomy := hheap ▸ hs.roomy
      integers := fun e he => hheap ▸ (hnew.integers e he).elim (hs.integers e) id
      texts := fun e he => hheap ▸ (hnew.texts e he).elim (hs.texts e) id }
  place := admits_interned _
  fill _ := bears_interned _
  assign _ _ _ := bears_interned _

/-! ## What lasts -/

/-- The handle of None or of a Boolean. -/
def single? (s : Space) : Object → Option Handle
  | .nothing => some s.noneValue
  | .bool b => some (s.truth b)
  | _ => none

/-- The handles of None and of the Booleans are the same, and what is recorded stays. -/
structure Lasts (s s' : Space) : Prop where
  single : ∀ o, s'.single? o = s.single? o
  integers : ∀ n h, s.integers.lookup n = some h → s'.integers.lookup n = some h
  texts : ∀ t h, s.texts.lookup t = some h → s'.texts.lookup t = some h

theorem Lasts.refl (s : Space) : Lasts s s := ⟨fun _ => rfl, fun _ _ h => h, fun _ _ h => h⟩

theorem Lasts.trans {s'' : Space} (h₁ : Lasts s s') (h₂ : Lasts s' s'') : Lasts s s'' :=
  ⟨fun o => (h₂.single o).trans (h₁.single o), fun n h hn => h₂.integers n h (h₁.integers n h hn),
    fun t h ht => h₂.texts t h (h₁.texts t h ht)⟩

theorem lookup_cons_of_none {κ β : Type} [BEq κ] [LawfulBEq κ] {l : List (κ × β)} {k j : κ}
    {b c : β} (hk : l.lookup k = none) (hj : l.lookup j = some c) :
    ((k, b) :: l).lookup j = some c := by
  have hne : (j == k) = false := by
    refine beq_eq_false_iff_ne.2 fun he => ?_
    rw [he, hk] at hj
    cases hj
  rw [List.lookup_cons, hne, hj]

end Space

theorem Step.lasts {ok : Heap → Handle → Prop} {s s' : Space} (st : Step ok s s') :
    s.Lasts s' := by
  have hsingle : ∀ o, s'.single? o = s.single? o := fun o => by cases st <;> rfl
  refine ⟨hsingle, ?_, ?_⟩
  · cases st with
    | integer _ _ hnone => exact fun _ _ => Space.lookup_cons_of_none hnone
    | _ => exact fun _ _ h => h
  · cases st with
    | text _ _ hnone => exact fun _ _ => Space.lookup_cons_of_none hnone
    | _ => exact fun _ _ h => h

namespace Space

variable {s s' : Space} {v w : Handle} {o : Object}

theorem single_of_single? (h : s.single? o = some v) : o.Single := by
  cases o with
  | nothing | bool => trivial
  | _ => cases h

theorem mem_permanentRoots_single (h : s.single? o = some v) : v ∈ s.permanentRoots := by
  cases o with
  | nothing =>
    cases h
    simp [permanentRoots]
  | bool b =>
    cases h
    cases b <;> simp [permanentRoots, truth]
  | _ => cases h

/-! ## The invariant -/

/-- None and each Boolean are live and have one handle. -/
def Singles (s : Space) : Prop :=
  ∀ o g, s.single? o = some g → s.heap.Has g o ∧ ∀ v, s.heap.get? v = some o → v = g

/-- What holds in all runs: there are one None and one object for each Boolean, and what is recorded
names its constant. -/
structure Anchored (s : Space) : Prop extends Interned s where
  single : s.Singles

/-- A step places no None and no Boolean, and takes no slot of a live object. -/
theorem Singles.step {ok : Heap → Handle → Prop} (h : s.Singles) (st : Step ok s s') :
    s'.Singles := by
  intro o g hg
  rw [st.lasts.single] at hg
  obtain ⟨hhas, hone⟩ := h o g hg
  have ho := single_of_single? hg
  refine ⟨st.kept.fixed hhas ho.fixed, fun v hv => hone v ?_⟩
  rcases st.object hv with ⟨p, hp, hchange, -⟩ | ⟨-, hplaced, -⟩
  · rwa [ho.eq_of_evolves hchange.evolves] at hp
  · exact absurd hplaced ho.not_placeable

theorem create_anchored {settings : Settings} {disk : Disk} (h : create settings disk = .ok s) :
    s.Anchored := by
  obtain ⟨n, a, hr, -, hs⟩ := create_new h
  refine ⟨⟨hs.roomy hr, by simp [n.integers], by simp [n.texts]⟩, fun o g hg => ?_⟩
  have hone : ∀ v, s.heap.get? v = some o → v = g := by
    intro v hv
    rcases create_single h hv (single_of_single? hg) with ⟨rfl, rfl⟩ | ⟨rfl, rfl⟩ | ⟨rfl, rfl⟩ <;>
      exact Option.some.inj hg
  cases o with
  | nothing =>
    cases hg
    exact ⟨n.nothing, hone⟩
  | bool b =>
    cases hg
    exact ⟨n.boolean b, hone⟩
  | _ => cases hg

/-- An operation keeps the invariant, and lets last what there is. -/
theorem Anchored.operation (i : s.Anchored) (op : Operation) :
    ((Turn.operation op).leave s).Anchored ∧ s.Lasts ((Turn.operation op).leave s) := by
  have l := Trust.later_leave (T := anyTrust) i.roomy op fun _ _ => trivial
  have hsteps : ∀ s s', anyTrust.holds s → Step anyTrust.ok s s' → s.Singles → s'.Singles :=
    fun _ _ _ st h => h.step st
  have hinterned : Interned ((Turn.operation op).leave s) :=
    keeps_operation stable_interned op (fun e _ => bears_interned e) s i.toInterned
  have hlasts : ∀ t, ReflTransGen (Step anyTrust.ok) s t → s.Lasts t := fun t r => by
    induction r with
    | refl => exact .refl s
    | tail _ st ih => exact ih.trans st.lasts
  exact ⟨⟨hinterned, l.always i.roomy hsteps i.single⟩, hlasts _ l.steps⟩

/-- A collection that completes keeps the permanent roots, which are all that is recorded. -/
theorem Anchored.collected (i : s.Anchored) {ctx : Handle} {inFlight : Option Handle}
    (h : collectNow ctx inFlight s = .ok () s') : s'.Anchored ∧ s.Lasts s' := by
  obtain ⟨m, rfl, hstale, rfl⟩ := collected_of_ok h
  have hsame := (Arena.sameObjects_clearMarks s.heap).trans
    (Heap.sameObjects_markFrom s.heap.clearMarks 0 (s.roots ctx inFlight).reverse)
  have hroot : ∀ g o, g ∈ s.permanentRoots → s.heap.Has g o →
      (Heap.markFrom s.heap.clearMarks 0 (s.roots ctx inFlight).reverse).heap.Has g o := by
    intro g o hg ho
    refine ⟨Heap.live_of_markFrom _ _ _ hstale (.inr ?_), (hsame.get?_eq g).trans ho.2⟩
    exact List.mem_reverse.2 (List.mem_append_left _ hg)
  refine ⟨⟨⟨hsame.roomy i.roomy, fun e he => ?_, fun e he => ?_⟩, fun o g hg => ?_⟩,
    fun _ => rfl, fun _ _ h => h, fun _ _ h => h⟩
  · exact hroot _ _ (mem_permanentRoots_of_integer he) (i.integers e he)
  · exact hroot _ _ (mem_permanentRoots_of_text he) (i.texts e he)
  · obtain ⟨hhas, hone⟩ := i.single o g hg
    refine ⟨hroot g o (mem_permanentRoots_single hg) hhas, fun v hv => hone v ?_⟩
    exact (hsame.get?_eq v).symm.trans hv

/-- **One turn** keeps the invariant, and lets last what there is. -/
theorem Anchored.goes (i : s.Anchored) (h : Goes s s') : s'.Anchored ∧ s.Lasts s' := by
  cases h with
  | operation op => exact i.operation op
  | collection ht h =>
    rcases Turn.of_collects ht h with rfl | ⟨ctx, inFlight, h⟩
    · exact ⟨i, .refl _⟩
    · exact i.collected h

/-- **A run** keeps the invariant, and lets last what there is. -/
theorem Anchored.run (i : s.Anchored) (r : ReflTransGen Goes s s') : s'.Anchored ∧ s.Lasts s' := by
  induction r with
  | refl => exact ⟨i, .refl s⟩
  | tail _ h ih =>
    obtain ⟨i', hlasts⟩ := ih.1.goes h
    exact ⟨i', ih.2.trans hlasts⟩

/-! ## Interning -/

section Interning

variable {κ : Type} [BEq κ] [LawfulBEq κ] {table : Space → List (κ × Handle)} {obj : κ → Object}
  {intern : κ → Action Handle}

/-- An action that makes the constants of one kind: each is recorded in a table, and what is
recorded there lasts. -/
structure Interning (table : Space → List (κ × Handle)) (obj : κ → Object)
    (intern : κ → Action Handle) : Prop where
  injective : ∀ {k j}, obj k = obj j → k = j
  recorded : ∀ {s}, s.Interned → ∀ e ∈ table s, s.heap.Has e.2 (obj e.1)
  lasts : ∀ {s s'}, Lasts s s' → ∀ k h, (table s).lookup k = some h → (table s').lookup k = some h
  intern : ∀ {s}, s.Anchored → ∀ k, ∃ v s', intern k s = .ok v s' ∧ Goes s s' ∧
    (table s').lookup k = some v

theorem Interning.has (c : Interning table obj intern) (i : s.Interned) {k : κ}
    (h : (table s).lookup k = some v) : s.heap.Has v (obj k) :=
  c.recorded i _ (Trust.mem_of_lookup h)

/-- A constant that is had names itself from then on, and it is had again exactly for itself. -/
theorem Interning.stable (c : Interning table obj intern) (i : s.Anchored) (k : κ) :
    ∃ v s', intern k s = .ok v s' ∧ ∀ t, ReflTransGen Goes s' t → t.heap.Has v (obj k) ∧
      ∀ j, ∃ w t', intern j t = .ok w t' ∧ (w = v ↔ j = k) := by
  obtain ⟨v, s', hv, hgo, hlookup⟩ := c.intern i k
  refine ⟨v, s', hv, fun t r => ?_⟩
  obtain ⟨it, hlasts⟩ := (i.goes hgo).1.run r
  have hkeep := c.lasts hlasts k v hlookup
  refine ⟨c.has it.toInterned hkeep, fun j => ?_⟩
  obtain ⟨w, t', hw, hgo, hj⟩ := c.intern it j
  obtain ⟨it', hlasts⟩ := it.goes hgo
  have hk := c.lasts hlasts k v hkeep
  refine ⟨w, t', hw, fun he => ?_, fun he => ?_⟩
  · subst he
    exact c.injective ((c.has it'.toInterned hj).unique (c.has it'.toInterned hk))
  · subst he
    exact Option.some.inj (hj.symm.trans hk)

end Interning

/-- Making a constant and recording it. -/
theorem record_ok (hr : s.heap.Roomy) (o : Object) (record : Handle → Space → Space) :
    ∃ v s', (do
      let h ← alloc o
      modify (record h)
      return h : Action Handle) s = .ok v (record v s') := by
  obtain ⟨v, old, heap, -, heq⟩ := Trust.alloc_placed hr o
  exact ⟨v, _, bind_of_ok heq⟩

theorem interning_int : Interning Space.integers .int internInt where
  injective := Object.int.inj
  recorded h := h.integers
  lasts h := h.integers
  intern {s} i n := by
    rcases hl : s.integers.lookup n with _ | v
    · obtain ⟨v, s', hnew⟩ := record_ok i.roomy (.int n) fun h s =>
        { s with integers := (n, h) :: s.integers }
      have hok : internInt n s = .ok v { s' with integers := (n, v) :: s'.integers } := by
        rw [internInt, bind_of_ok (get_apply s), hl]
        exact hnew
      exact ⟨v, _, hok, .of_ok (.internInt n) rfl hok, List.lookup_cons_self⟩
    · have hok : internInt n s = .ok v s := by
        rw [internInt, bind_of_ok (get_apply s), hl]
        rfl
      exact ⟨v, s, hok, .of_ok (.internInt n) rfl hok, hl⟩

theorem interning_str :
    Interning Space.texts (fun text => .str text (some (Fnv.hashText text))) internStr where
  injective h := (Object.str.inj h).1
  recorded h := h.texts
  lasts h := h.texts
  intern {s} i text := by
    rcases hl : s.texts.lookup text with _ | v
    · obtain ⟨v, s', hnew⟩ :=
        record_ok i.roomy (.str text (some (Fnv.hashText text))) fun h s =>
          { s with texts := (text, h) :: s.texts }
      have hok : internStr text s = .ok v { s' with texts := (text, v) :: s'.texts } := by
        rw [internStr, bind_of_ok (get_apply s), hl]
        exact hnew
      exact ⟨v, _, hok, .of_ok (.internStr text) rfl hok, List.lookup_cons_self⟩
    · have hok : internStr text s = .ok v s := by
        rw [internStr, bind_of_ok (get_apply s), hl]
        rfl
      exact ⟨v, s, hok, .of_ok (.internStr text) rfl hok, hl⟩

/-! ## Truth values -/

/-- If an action ends with a value, that is one of the Booleans. -/
def Tells (act : Action Handle) : Prop :=
  ∀ s v s', act s = .ok v s' → ∃ b, v = s'.truth b

theorem tells_boolean (b : Bool) : Tells (boolean b) := by
  intro s v s' h
  cases h
  exact ⟨b, rfl⟩

theorem tells_bind {α : Type} {act : Action α} {f : α → Action Handle} (hf : ∀ a, Tells (f a)) :
    Tells (act >>= f) := by
  intro s v s' h
  obtain ⟨a, s₁, -, hv⟩ := bind_eq_ok.1 h
  exact hf a s₁ v s' hv

theorem tells_guard {c : Prop} [Decidable c] {d : Diagnostic} {f : Unit → Action Handle}
    (hf : Tells (f ())) : Tells (if c then fatal d >>= f else f ()) := by
  split
  · exact tells_bind fun _ => hf
  · exact hf

theorem tells_refused {q : Query Handle} (hq : Heap.Refuses q) : Tells (liftM q) := by
  intro s v s' h
  exact absurd (ask_eq_ok.1 h).1 (hq _ _)

theorem tells_construct (args : List Handle) (kwargs : Option Handle) :
    Tells (construct .bool args kwargs) := by
  unfold construct
  refine tells_guard (tells_bind fun _ => ?_)
  cases args with
  | nil => exact tells_boolean _
  | cons v rest => exact tells_bind fun _ => tells_boolean _

end Space

/-- The built-in functions and methods that give a truth value. -/
def Entry.Tests : Entry → Prop
  | .builtin .all _ | .builtin .any _ | .builtin .isinstance _ => True
  | .method (.str .startswith) | .method (.str .endswith) => True
  | _ => False

/-- What gives a truth value when it is called. -/
def Object.Tests (heap : Heap) : Object → Prop
  | .type .bool => True
  | .function _ entry => entry.Tests
  | .boundMethod _ f => ∀ name entry, heap.get? f = some (.function name entry) → entry.Tests
  | _ => False

/-- It matters only which functions there are. -/
theorem Object.Tests.mono {a b : Heap} {o : Object} (h : o.Tests a)
    (hback : ∀ f name entry, b.get? f = some (.function name entry) →
      a.get? f = some (.function name entry)) : o.Tests b := by
  cases o with
  | boundMethod receiver f => exact fun name entry hf => h name entry (hback f name entry hf)
  | type kind => cases kind <;> exact h
  | _ => exact h

/-- The operations that give a truth value. -/
inductive Operation.Tests (heap : Heap) : Operation → Prop
  | boolean (b : Bool) : Tests heap (.boolean b)
  | not (v : Handle) : Tests heap (.unary .not v)
  | compare (op : Comparison) (a b : Handle) : Tests heap (.compare op a b)
  | contains (container item : Handle) : Tests heap (.contains container item)
  | notContains (container item : Handle) : Tests heap (.notContains container item)
  | logical {op : BinaryOp} {a b : Handle} {p q : Bool} : op.IsLogical →
      heap.get? a = some (.bool p) → heap.get? b = some (.bool q) → Tests heap (.binary op a b)
  | call {callee : Handle} {o : Object} (ctx args : Handle) (kwargs : Option Handle) :
      heap.get? callee = some o → o.Tests heap → Tests heap (.call ctx callee args kwargs)
  | callWith {callee : Handle} {o : Object} (ctx : Handle) (args : List Handle) :
      heap.get? callee = some o → o.Tests heap → Tests heap (.callWith ctx callee args)

namespace Space

variable {s s' : Space} {v w : Handle} {o : Object}

/-- The methods of texts that give a truth value. -/
theorem tells_runMethod {m : StrMethod} (hm : (Entry.method (.str m)).Tests) (receiver : Handle)
    (args : List Handle) : Tells (runMethod (.str m) receiver args) := by
  refine tells_bind fun o => ?_
  cases o with
  | str text hash =>
    cases m with
    | startswith | endswith => exact tells_bind fun _ => tells_bind fun _ => tells_boolean _
    | _ => exact hm.elim
  | _ => exact tells_refused (Heap.refuses_badArgument _ _ _)

theorem tells_callFunction {entry : Entry} (he : entry.Tests) (ctx : Handle) (name : String)
    (receiver : Option Handle) (args : Handle) (kwargs : Option Handle) :
    Tells (callFunction noCode ctx name entry receiver args kwargs) := by
  cases entry with
  | compiled n => exact he.elim
  | builtin f keywords =>
    have hrun : ∀ args, Tells (runBuiltin f args kwargs) := fun args => by
      cases f with
      | all | any | isinstance =>
        exact tells_bind fun _ => tells_bind fun _ => tells_bind fun _ => tells_boolean _
      | _ => exact he.elim
    cases kwargs with
    | none => exact tells_bind fun _ => hrun _
    | some kw => exact tells_bind fun _ => tells_bind fun _ => hrun _
  | method m =>
    unfold callFunction
    refine tells_guard (tells_bind fun items => ?_)
    cases items with
    | nil => exact fun _ _ _ => nofun
    | cons r rest =>
      cases m with
      | str m => exact tells_runMethod he r rest
      | _ => exact he.elim

/-- Calling what gives a truth value, if it names anything. -/
theorem tells_call {callee : Handle}
    (ht : ∀ o, s.heap.get? callee = some o → o.Tests s.heap) (ctx args : Handle)
    (kwargs : Option Handle) (h : call noCode ctx callee args kwargs s = .ok v s') :
    ∃ b, v = s'.truth b := by
  obtain ⟨present, s₁, hpresent, hcall⟩ := bind_eq_ok.1 h
  obtain rfl : s₁ = s := by
    have hleft := keeps_presentKeywords (I := (· = s)) kwargs s rfl
    rwa [hpresent] at hleft
  obtain ⟨o, s₁, hget, hcall⟩ := bind_eq_ok.1 hcall
  obtain ⟨ho, rfl⟩ := ask_eq_ok.1 hget
  have ht := ht o (Heap.get_eq_ok.1 ho)
  cases o with
  | type kind =>
    cases kind with
    | bool => exact tells_bind (fun _ => tells_construct _ _) _ _ _ hcall
    | _ => exact ht.elim
  | function name entry => exact tells_callFunction ht _ _ _ _ _ _ _ _ hcall
  | boundMethod receiver f =>
    obtain ⟨p, s₁, hget, hcall⟩ := bind_eq_ok.1 hcall
    obtain ⟨hp, rfl⟩ := ask_eq_ok.1 hget
    cases p with
    | function name entry =>
      exact tells_callFunction (ht name entry (Heap.get_eq_ok.1 hp)) _ _ _ _ _ _ _ _ hcall
    | _ =>
      have hrefused : Tells (do fatal (.notCallable (← Heap.typeName f)) : Action Handle) :=
        tells_bind fun _ _ _ _ => nofun
      exact hrefused _ _ _ hcall
  | _ => exact ht.elim

/-- Packing the arguments leaves what the callee names, or lets it name nothing. -/
theorem tells_callWith {callee : Handle} (hr : s.heap.Roomy) (ho : s.heap.get? callee = some o)
    (ht : o.Tests s.heap) (ctx : Handle) (args : List Handle)
    (h : callWith noCode ctx callee args s = .ok v s') : ∃ b, v = s'.truth b := by
  obtain ⟨pack, old, heap, p, heq⟩ := Trust.alloc_placed hr (.tuple args.toArray)
  obtain ⟨pack', s₁, hpack, hcall⟩ := bind_eq_ok.1 h
  cases heq.symm.trans hpack
  refine tells_call (fun o' ho' => ?_) ctx pack none hcall
  rcases p.get?_eq ho' with ⟨rfl, -⟩ | ⟨-, hold⟩
  · rw [p.get?_new] at ho
    cases ho
  obtain rfl := Option.some.inj (ho.symm.trans hold)
  refine ht.mono fun f name entry hf => ?_
  rcases p.get?_eq hf with ⟨-, hf⟩ | ⟨-, hf⟩
  · cases hf
  · exact hf

/-- **Truth values.** An operation that gives a truth value gives one of the two Booleans. -/
theorem Anchored.tells (i : s.Anchored) {op : Operation} {hs : List Handle} (ht : op.Tests s.heap)
    (h : op.run s = .ok hs s') : ∃ b, hs = [s'.truth b] := by
  have hone : ∀ {act : Action Handle}, Operation.returned act s = .ok hs s' →
      (∀ v, act s = .ok v s' → ∃ b, v = s'.truth b) → ∃ b, hs = [s'.truth b] := by
    intro act h hact
    obtain ⟨v, hv, rfl⟩ := exists_of_returned h
    obtain ⟨b, rfl⟩ := hact v hv
    exact ⟨b, rfl⟩
  have hsingle : ∀ {v b}, s.heap.get? v = some (.bool b) → s.heap.Has v (.bool b) := by
    intro v b hv
    obtain ⟨hhas, honly⟩ := i.single (.bool b) (s.truth b) rfl
    exact honly v hv ▸ hhas
  cases ht with
  | boolean b => exact hone h fun v hv => tells_boolean b s v s' hv
  | not v => exact hone h fun _ => tells_bind (fun _ => tells_boolean _) s _ s'
  | compare | contains | notContains =>
    exact hone h fun _ => tells_bind (fun _ => tells_boolean _) s _ s'
  | @logical op a b p q hop ha hb =>
    refine hone h fun v hv => ?_
    obtain ⟨f, hf⟩ : ∃ f, op.exact? = some f := by
      rcases hop with rfl | rfl | rfl <;> exact ⟨_, rfl⟩
    obtain ⟨c, -, hc⟩ := binary_bools (hsingle ha) (hsingle hb) hop hf
    cases hc.symm.trans hv
    exact ⟨c, rfl⟩
  | call ctx args kwargs ho ht =>
    refine hone h fun v hv => tells_call (fun o' ho' => ?_) ctx args kwargs hv
    exact Option.some.inj (ho.symm.trans ho') ▸ ht
  | callWith ctx args ho ht => exact hone h fun v => tells_callWith i.roomy ho ht ctx args

end Space

open Space

variable {settings : Settings} {disk : Disk} {s₀ s : Space}

/-- **Constants.** In a run on any handles there are one None and one object for each Boolean, those
that the space was made with; a handle is that of None where it names None; operations that give a
truth value give one of the two Booleans; and a constant that is interned is named by its handle
from then on, and has this handle, and no other constant has it, however often it is interned and
whatever collections complete in between. -/
theorem constants_stable (hnew : Space.create settings disk = .ok s₀)
    (r : ReflTransGen Goes s₀ s) :
    (∀ v, s.heap.get? v = some .nothing ↔ v = s₀.noneValue) ∧
    (∀ v b, s.heap.get? v = some (.bool b) ↔ v = s₀.truth b) ∧
    (∀ v, ∃ b, isNone v s = .ok b s ∧ (b = true ↔ s.heap.get? v = some .nothing)) ∧
    (∀ op hs s', Operation.Tests s.heap op → op.run s = .ok hs s' →
      ∃ b, hs = [s₀.truth b] ∧ s'.heap.Has (s₀.truth b) (.bool b)) ∧
    (∀ n, ∃ v s', internInt n s = .ok v s' ∧ ∀ t, ReflTransGen Goes s' t →
      t.heap.Has v (.int n) ∧ ∀ m, ∃ w t', internInt m t = .ok w t' ∧ (w = v ↔ m = n)) ∧
    ∀ text, ∃ v s', internStr text s = .ok v s' ∧ ∀ t, ReflTransGen Goes s' t →
      t.heap.Has v (.str text (some (Fnv.hash text.toUTF8.toList))) ∧
      ∀ other, ∃ w t', internStr other t = .ok w t' ∧ (w = v ↔ other = text) := by
  obtain ⟨i, hlasts⟩ := (create_anchored hnew).run r
  have hone : ∀ {o g}, s₀.single? o = some g → ∀ v, s.heap.get? v = some o ↔ v = g := by
    intro o g hg v
    obtain ⟨hhas, honly⟩ := i.single o g ((hlasts.single o).trans hg)
    exact ⟨honly v, fun hv => hv ▸ hhas.2⟩
  have hnone : ∀ v, s.heap.get? v = some .nothing ↔ v = s₀.noneValue := hone rfl
  refine ⟨hnone, fun v b => hone rfl v, fun v => ⟨_, rfl, ?_⟩, fun op hs s' ht h => ?_,
    interning_int.stable i, interning_str.stable i⟩
  · rw [hnone, decide_eq_true_iff, Option.some.inj (hlasts.single .nothing)]
  · obtain ⟨b, rfl⟩ := i.tells ht h
    obtain ⟨i', hlasts'⟩ := i.goes (.operation op)
    have hleave : (Turn.operation op).leave s = s' := by rw [Turn.leave, Turn.run, h]; rfl
    rw [hleave] at i' hlasts'
    have htruth : s'.truth b = s₀.truth b :=
      Option.some.inj ((hlasts.trans hlasts').single (.bool b))
    exact ⟨b, by rw [htruth], htruth ▸ (i'.single (.bool b) _ rfl).1⟩

/-- Seven is interned before and after a collection: it has the same handle, and eight has not. -/
theorem constants_stable_collection : ∃ s₀ v s₁ s₂ s₃, Space.create {} {} = .ok s₀ ∧
    internInt 7 s₀ = .ok v s₁ ∧ collectNow s₀.noneValue none s₁ = .ok () s₂ ∧
    internInt 7 s₂ = .ok v s₃ ∧ (∃ w s₄, internInt 8 s₂ = .ok w s₄ ∧ w ≠ v) ∧
    ∀ u, s₂.heap.get? u = some .nothing ↔ u = s₀.noneValue := by
  obtain ⟨s₀, h₀⟩ := create_ok {} rfl {}
  obtain ⟨-, -, -, -, hint, -⟩ := constants_stable h₀ .refl
  obtain ⟨v, s₁, hv, hlater⟩ := hint 7
  have hgo₁ : Goes s₀ s₁ := .of_ok (.internInt 7) rfl hv
  have r₁ : LiveRun {} {} s₁ := (LiveRun.start h₀).after (.internInt 7) rfl nofun hv
  have hnone : s₁.heap.isLive s₀.noneValue = true := by
    have i₁ := ((create_anchored h₀).goes hgo₁)
    exact (i₁.1.single .nothing _ (i₁.2.single .nothing)).1.1
  obtain ⟨s₂, hcollect⟩ := (live_closed r₁).2.2.2 s₀.noneValue none (by simpa using hnone) |>.2
  have hgo₂ : Goes s₁ s₂ :=
    .collection (t := .collectNow s₀.noneValue none) trivial (returned_eq_ok hcollect)
  obtain ⟨-, hagain⟩ := hlater s₂ (.single hgo₂)
  obtain ⟨w, s₃, hw, hiff⟩ := hagain 7
  obtain rfl := hiff.2 rfl
  obtain ⟨u, s₄, hu, hiff⟩ := hagain 8
  exact ⟨s₀, w, s₁, s₂, s₃, h₀, hv, hcollect, hw, ⟨u, s₄, hu, fun he => by cases hiff.1 he⟩,
    (constants_stable h₀ (.tail (.single hgo₁) hgo₂)).1⟩

end ObjectSpace

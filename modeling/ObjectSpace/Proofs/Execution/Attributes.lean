import ObjectSpace.Proofs.Effects.Attributes
import ObjectSpace.Proofs.Execution.Instances
import ObjectSpace.Proofs.Execution.Values

/-!
# Attributes

An attribute is set on an instance or a class, and attributes are read.

**Theorem (`attributes_read_back`).** In a run on live handles an attribute that was set is read as
the value it was set to until it is set again, and reading any other attribute of any live value
comes to the same as before, up to the handle of an object that is made: the same value, a new
object with the same content, or the same failure. The exception is an attribute of a class: its
instances that have no attribute of that name read it too.

The name of a class is read under `__name__`, before its members are. So a member of that name can
be set, but the class does not show it (`attributes_read_back_class_name`).
-/

namespace ObjectSpace

/-- An object has a value as the attribute that is read under a name. -/
def Object.Shows (name : String) (w : Handle) : Object → Prop
  | userInstance _ attributes => attributes.get? name = some w
  | userClass _ members => name ≠ "__name__" ∧ members.get? name = some w
  | _ => False

theorem Object.Shows.hasAttributes {name : String} {w : Handle} {o : Object}
    (h : o.Shows name w) : o.HasAttributes := by
  cases o with
  | userInstance | userClass => trivial
  | _ => exact h.elim

theorem Object.Shows.withAttribute {name other : String} {w u : Handle} {o : Object}
    (h : o.Shows name w) (hne : name ≠ other) : (o.withAttribute other u).Shows name w := by
  cases o with
  | userInstance =>
    show Bindings.get? _ name = some w
    rw [Bindings.get?_set, if_neg hne]
    exact h
  | userClass =>
    refine ⟨h.1, ?_⟩
    rw [Bindings.get?_set, if_neg hne]
    exact h.2
  | _ => exact h.elim

namespace Space

variable {s s' : Space} {o p v w : Handle} {name key : String} {x y : Object} {α : Type}

/-! ## Reading an object -/

/-- What comes of looking for an attribute. -/
def found (v : Handle) (name : String) (act : α → Action Handle) : Option α → Action Handle
  | some member => act member
  | none => Heap.unknownAttribute v name

/-- What a value that has no attribute of its own finds in its class. -/
def inherited (v : Handle) (name : String) (cls : Handle) : Action Handle := do
  match ← Heap.get cls with
  | .userClass _ members => found v name (bindMember v) (members.get? name)
  | _ => Heap.unknownAttribute v name

/-- What a value finds under a name, when its type is not asked for. -/
def attributeOf (v : Handle) (name : String) : Object → Action Handle
  | .userInstance cls attributes =>
    match attributes.get? name with
    | some value => pure value
    | none => inherited v name cls
  | .userClass label members =>
    if name = "__name__" then newStr label else found v name pure (members.get? name)
  | .type k =>
    if name = "__name__" then newStr k.name
    else found v name methodFunction (Method.lookup? k name)
  | .function label entry =>
    if name = "__name__" then
      match entry with
      | .method m => newStr m.name
      | _ => newStr label
    else Heap.unknownAttribute v name
  | o => builtinMethod v name o

theorem getAttribute_eq (hname : name ≠ "__class__") (v : Handle) :
    getAttribute v name = liftM (Heap.get v) >>= attributeOf v name := by
  rw [getAttribute, if_neg hname]
  refine congrArg (liftM (Heap.get v) >>= ·) (funext fun o => ?_)
  cases o with
  | userInstance cls attributes =>
    dsimp only [attributeOf]
    cases attributes.get? name with
    | some value => rfl
    | none =>
      refine congrArg (liftM (Heap.get cls) >>= ·) (funext fun z => ?_)
      cases z with
      | userClass label members =>
        dsimp only
        cases members.get? name <;> rfl
      | _ => rfl
  | userClass label members =>
    dsimp only [attributeOf]
    cases members.get? name <;> rfl
  | type k =>
    dsimp only [attributeOf]
    cases Method.lookup? k name <;> rfl
  | _ => rfl

/-- Under `__name__` a class has its name. -/
theorem getAttribute_label {label : String} {members : Bindings}
    (hv : s.heap.get? v = some (.userClass label members)) :
    getAttribute v "__name__" s = newStr label s := by
  rw [getAttribute_eq (by decide), ask_bind_of_ok (Heap.get_eq_ok.2 hv)]
  rfl

theorem getAttribute_of_shows (hv : s.heap.get? v = some x) (hshow : x.Shows name w)
    (hname : name ≠ "__class__") : getAttribute v name s = .ok w s := by
  rw [getAttribute_eq hname, ask_bind_of_ok (Heap.get_eq_ok.2 hv)]
  cases x with
  | userInstance cls attributes =>
    have hget : attributes.get? name = some w := hshow
    simp only [attributeOf, hget]
    rfl
  | userClass label members =>
    obtain ⟨hne, hget⟩ := hshow
    simp only [attributeOf, if_neg hne, hget]
    rfl
  | _ => exact hshow.elim

/-! ## Outcomes -/

/-- What reading comes to: a value that is there, a new object, or a failure. -/
inductive Outcome where
  | value (v : Handle)
  | made (o : Object)
  | failed (e : Halt)

/-- An action with that outcome. -/
def Outcome.act : Outcome → Action Handle
  | value v => pure v
  | made o => alloc o
  | failed e => throw e

/-- Two actions have the same outcome in two spaces, up to the handle of an object that is made. -/
def Agree (s s' : Space) (act act' : Action Handle) : Prop :=
  ∃ out : Outcome, act s = out.act s ∧ act' s' = out.act s'

theorem agree_pure (v : Handle) : Agree s s' (pure v) (pure v) := ⟨.value v, rfl, rfl⟩

theorem agree_alloc (x : Object) : Agree s s' (alloc x) (alloc x) := ⟨.made x, rfl, rfl⟩

theorem agree_violate (e : Violation) : Agree s s' (violate e) (violate e) :=
  ⟨.failed (.violation e), rfl, rfl⟩

theorem agree_ask_bind {q q' : Query α} {f f' : α → Action Handle} (hq : q s.heap = q' s'.heap)
    (hf : ∀ a, q s.heap = .ok a → Agree s s' (f a) (f' a)) :
    Agree s s' (liftM q >>= f) (liftM q' >>= f') := by
  cases hqs : q s.heap with
  | ok a =>
    obtain ⟨out, h, h'⟩ := hf a hqs
    refine ⟨out, ?_, ?_⟩
    · rw [ask_bind_of_ok hqs, h]
    · rw [ask_bind_of_ok (hq.symm.trans hqs), h']
  | error e =>
    exact ⟨.failed e, bind_of_error (ask_of_error hqs),
      bind_of_error (ask_of_error (hq.symm.trans hqs))⟩

theorem agree_ask {q q' : Query Handle} (hq : q s.heap = q' s'.heap) :
    Agree s s' (liftM q) (liftM q') := by
  cases hqs : q s.heap with
  | ok a => exact ⟨.value a, ask_of_ok hqs, ask_of_ok (hq.symm.trans hqs)⟩
  | error e => exact ⟨.failed e, ask_of_error hqs, ask_of_error (hq.symm.trans hqs)⟩

theorem agree_ofInstance {cls : Handle} {attributes attributes' : Bindings}
    (h : attributes'.get? key = attributes.get? key)
    (hcls : attributes.get? key = none → Agree s s' (inherited p key cls) (inherited p key cls)) :
    Agree s s' (attributeOf p key (.userInstance cls attributes))
      (attributeOf p key (.userInstance cls attributes')) := by
  simp only [attributeOf, h]
  cases hown : attributes.get? key with
  | some u => exact agree_pure u
  | none => exact hcls hown

/-! ## Setting an attribute -/

/-- What setting an attribute leaves: the object has it, and the rest is as before. -/
structure Assigned (o : Handle) (name : String) (w : Handle) (x : Object) (s s' : Space) :
    Prop where
  before : s.heap.get? o = some x
  has : x.HasAttributes
  name_ne : name ≠ "__class__"
  read : ∀ g, s'.heap.get? g = if g = o then some (x.withAttribute name w) else s.heap.get? g
  live : ∀ g, s'.heap.isLive g = s.heap.isLive g
  slots : ∀ c, (s'.heap.pool c).slots = (s.heap.pool c).slots
  types : s'.types = s.types
  methods : s'.methods = s.methods

theorem setAttribute_eq (hx : s.heap.get? o = some x) (hset : x.HasAttributes)
    (hname : name ≠ "__class__") (w : Handle) :
    ∃ f : Object → Object, setAttribute o name w s = update o f s ∧
      f x = x.withAttribute name w := by
  rw [setAttribute, ask_bind_of_ok (Heap.get_eq_ok.2 hx)]
  cases x with
  | userInstance | userClass =>
    simp only [Bool.not_true, hname, decide_false, Bool.or_self, Bool.false_eq_true, if_false]
    exact ⟨_, rfl, rfl⟩
  | _ => exact hset.elim

theorem setAttribute_ok (hx : s.heap.get? o = some x) (hset : x.HasAttributes) (name : String)
    (hname : name ≠ "__class__") (w : Handle) : ∃ s', setAttribute o name w s = .ok () s' := by
  obtain ⟨f, hf, -⟩ := setAttribute_eq hx hset hname w
  exact ⟨_, hf.trans (Trust.update_eq hx f)⟩

theorem setAttribute_error (hx : s.heap.get? o = some x)
    (h : ¬ (x.HasAttributes ∧ name ≠ "__class__")) (w : Handle) :
    setAttribute o name w s = (liftM (Heap.unimplemented "setattr" o) : Action Unit) s := by
  rw [setAttribute, ask_bind_of_ok (Heap.get_eq_ok.2 hx)]
  cases x <;> simp_all [Object.HasAttributes]

theorem assigned_of_ok (h : setAttribute o name w s = .ok () s') :
    ∃ x, Assigned o name w x s s' := by
  obtain ⟨x, s₁, hget, -⟩ := bind_eq_ok.1 h
  have hx := Heap.get_eq_ok.1 (ask_eq_ok.1 hget).1
  by_cases hcond : x.HasAttributes ∧ name ≠ "__class__"
  · obtain ⟨f, hf, hfx⟩ := setAttribute_eq hx hcond.1 hcond.2 w
    rw [hf, Trust.update_eq hx] at h
    obtain ⟨-, rfl⟩ := EStateM.Result.ok.inj h
    refine ⟨x, hx, hcond.1, hcond.2, fun g => ?_, Arena.isLive_modify hx f,
      Arena.slots_modify s.heap o f, rfl, rfl⟩
    rw [← hfx]
    exact Arena.get?_modify hx f g
  · rw [setAttribute_error hx hcond] at h
    obtain ⟨_, -, hfatal⟩ := Heap.bind_eq_ok.1 (ask_eq_ok.1 h).1
    cases hfatal

namespace Assigned

variable (a : Assigned o name w x s s')

include a

/-- Every object is there afterwards, perhaps with the attribute. -/
theorem after (hy : s.heap.get? p = some y) :
    ∃ y', s'.heap.get? p = some y' ∧ (y' = y ∨ p = o ∧ y' = y.withAttribute name w) := by
  rw [a.read]
  by_cases hp : p = o
  · subst hp
    rw [if_pos rfl, Option.some.inj (a.before.symm.trans hy)]
    exact ⟨_, rfl, .inr ⟨rfl, rfl⟩⟩
  · rw [if_neg hp]
    exact ⟨y, hy, .inl rfl⟩

/-- The attribute is there, and is read unless it is the name of a class. -/
theorem shows (hname : ∀ label members, x = .userClass label members → name ≠ "__name__") :
    (x.withAttribute name w).Shows name w := by
  have hx := a.has
  cases x with
  | userInstance => exact (Bindings.get?_set ..).trans (if_pos rfl)
  | userClass => exact ⟨hname _ _ rfl, (Bindings.get?_set ..).trans (if_pos rfl)⟩
  | _ => exact hx.elim

/-! ## Reading after it -/

theorem get_error (hp : s.heap.get? p = none) :
    Heap.get p s.heap = .error (.violation (.staleHandle p)) ∧
      Heap.get p s'.heap = .error (.violation (.staleHandle p)) := by
  have hne : p ≠ o := by
    rintro rfl
    rw [a.before] at hp
    cases hp
  have hp' : s'.heap.get? p = none := by rw [a.read, if_neg hne, hp]
  constructor
  · simp only [Heap.get, Arena.fetch, hp]
  · simp only [Heap.get, Arena.fetch, hp']

/-- A query about an object gives the same when it does not look at attributes. -/
theorem get_bind {F : Object → Query α} (hF : ∀ y, F y s.heap = F y s'.heap)
    (hset : ∀ y, F (y.withAttribute name w) s'.heap = F y s'.heap) (p : Handle) :
    (Heap.get p >>= F) s.heap = (Heap.get p >>= F) s'.heap := by
  cases hp : s.heap.get? p with
  | none =>
    obtain ⟨h, h'⟩ := a.get_error hp
    rw [Heap.bind_of_error h, Heap.bind_of_error h']
  | some y =>
    obtain ⟨y', hy', h⟩ := a.after hp
    rw [Heap.bind_of_ok (Heap.get_eq_ok.2 hp), Heap.bind_of_ok (Heap.get_eq_ok.2 hy'), hF]
    rcases h with rfl | ⟨-, rfl⟩
    · rfl
    · exact (hset y).symm

theorem isFunction (p : Handle) : Heap.isFunction p s.heap = Heap.isFunction p s'.heap := by
  refine a.get_bind (fun y => ?_) (fun y => ?_) p
  · cases y <;> rfl
  · cases y <;> rfl

theorem typeName (p : Handle) : Heap.typeName p s.heap = Heap.typeName p s'.heap := by
  refine a.get_bind (fun y => ?_) (fun y => ?_) p
  · cases y with
    | userInstance cls attributes =>
      refine a.get_bind (fun z => ?_) (fun z => ?_) cls
      · cases z <;> rfl
      · cases z <;> rfl
    | _ => rfl
  · cases y <;> rfl

theorem agree_unknown (p : Handle) (key : String) :
    Agree s s' (liftM (Heap.unknownAttribute (α := Handle) p key))
      (liftM (Heap.unknownAttribute (α := Handle) p key)) := by
  refine agree_ask ?_
  simp only [Heap.unknownAttribute, bind, ReaderT.bind, a.typeName p]
  rfl

/-- Reading an object first: it is the same, or it has the attribute besides. -/
theorem agree_get {F : Object → Action Handle}
    (hF : ∀ y, s.heap.get? p = some y → Agree s s' (F y) (F y))
    (hset : ∀ y, s.heap.get? p = some y → p = o →
      Agree s s' (F y) (F (y.withAttribute name w))) :
    Agree s s' (liftM (Heap.get p) >>= F) (liftM (Heap.get p) >>= F) := by
  cases hp : s.heap.get? p with
  | none =>
    obtain ⟨h, h'⟩ := a.get_error hp
    exact ⟨.failed _, bind_of_error (ask_of_error h), bind_of_error (ask_of_error h')⟩
  | some y =>
    obtain ⟨y', hy', hcase⟩ := a.after hp
    have hagree : Agree s s' (F y) (F y') := by
      rcases hcase with rfl | ⟨he, rfl⟩
      · exact hF _ hp
      · exact hset y hp he
    obtain ⟨out, h, h'⟩ := hagree
    refine ⟨out, ?_, ?_⟩
    · rw [ask_bind_of_ok (Heap.get_eq_ok.2 hp), h]
    · rw [ask_bind_of_ok (Heap.get_eq_ok.2 hy'), h']

/-- A reading of an object for which an attribute besides makes no difference. -/
theorem agree_get_same {F : Object → Action Handle}
    (hF : ∀ y, Agree s s' (F y) (F y)) (hset : ∀ y, F (y.withAttribute name w) = F y) :
    Agree s s' (liftM (Heap.get p) >>= F) (liftM (Heap.get p) >>= F) :=
  a.agree_get (fun y _ => hF y) fun y _ _ => hset y ▸ hF y

theorem agree_typeOf (p : Handle) : Agree s s' (typeOf p) (typeOf p) := by
  refine a.agree_get_same (fun y => ?_) (fun y => ?_)
  · split
    · exact agree_pure _
    · split
      · rename_i k _
        refine ⟨.value (s.types.get k.index), rfl, ?_⟩
        rw [← a.types]
        rfl
      · exact agree_violate _
  · cases y <;> rfl

theorem agree_bindMember (receiver member : Handle) :
    Agree s s' (bindMember receiver member) (bindMember receiver member) := by
  refine agree_ask_bind (a.isFunction member) fun b _ => ?_
  cases b with
  | true => exact agree_alloc _
  | false => exact agree_pure member

theorem agree_builtinMethod (p : Handle) (key : String) (y : Object) :
    Agree s s' (builtinMethod p key y) (builtinMethod p key y) := by
  unfold builtinMethod
  split
  · rename_i m _
    refine ⟨.made (.boundMethod p (s.methods.get m.index)), rfl, ?_⟩
    rw [← a.methods]
    rfl
  · exact a.agree_unknown p key

theorem agree_found {act : α → Action Handle} (p : Handle) (key : String)
    (hact : ∀ b, Agree s s' (act b) (act b)) (b? : Option α) :
    Agree s s' (found p key act b?) (found p key act b?) := by
  cases b? with
  | some b => exact hact b
  | none => exact a.agree_unknown p key

theorem agree_methodFunction (m : Method) :
    Agree s s' (methodFunction m) (methodFunction m) := by
  refine ⟨.value (s.methods.get m.index), rfl, ?_⟩
  rw [← a.methods]
  rfl

/-- What is found in the class of a value that has no attribute of its own. -/
theorem agree_inherited (p : Handle) {cls : Handle}
    (hcls : ∀ label members, x = .userClass label members → cls = o → key ≠ name) :
    Agree s s' (inherited p key cls) (inherited p key cls) := by
  refine a.agree_get (fun z _ => ?_) (fun z hz he => ?_)
  · cases z with
    | userClass label members => exact a.agree_found p key (a.agree_bindMember p) _
    | _ => exact a.agree_unknown p key
  · cases z with
    | userClass label members =>
      obtain rfl : x = .userClass label members := Option.some.inj (a.before.symm.trans (he ▸ hz))
      have hsame : (members.set name w).get? key = members.get? key :=
        (Bindings.get?_set ..).trans (if_neg (hcls label members rfl he))
      simp only [Object.withAttribute, hsame]
      exact a.agree_found p key (a.agree_bindMember p) _
    | _ => exact a.agree_unknown p key

/-- What a class finds when its members have the same one under the name. -/
theorem agree_ofClass {label : String} {members members' : Bindings}
    (h : members'.get? key = members.get? key) :
    Agree s s' (attributeOf p key (.userClass label members))
      (attributeOf p key (.userClass label members')) := by
  simp only [attributeOf, h]
  split
  · exact agree_alloc _
  · exact a.agree_found p key agree_pure _

theorem agree_ofOther (p : Handle) (key : String) (hy : ¬ y.HasAttributes) :
    Agree s s' (attributeOf p key y) (attributeOf p key y) := by
  cases y with
  | userInstance | userClass => exact absurd trivial hy
  | type k =>
    simp only [attributeOf]
    split
    · exact agree_alloc _
    · exact a.agree_found p key a.agree_methodFunction _
  | function label entry =>
    simp only [attributeOf]
    split
    · split <;> exact agree_alloc _
    · exact a.agree_unknown p key
  | _ =>
    simp only [attributeOf]
    exact a.agree_builtinMethod p key _

/-- Other attributes are read as before, and so is this one of other values, unless they are
instances of the class that was given the attribute and have none of their own. -/
theorem agree_getAttribute (hp : p = o → key ≠ name)
    (hinst : ∀ label members attributes, x = .userClass label members → key = name →
      s.heap.get? p = some (.userInstance o attributes) → attributes.get? name ≠ none) :
    Agree s s' (getAttribute p key) (getAttribute p key) := by
  by_cases hclass : key = "__class__"
  · rw [getAttribute, if_pos hclass]
    exact a.agree_typeOf p
  rw [getAttribute_eq hclass]
  have hinherited : ∀ cls attributes, s.heap.get? p = some (.userInstance cls attributes) →
      attributes.get? key = none → Agree s s' (inherited p key cls) (inherited p key cls) := by
    intro cls attributes hy hown
    refine a.agree_inherited p fun label members hx hcls hk => ?_
    exact hinst label members attributes hx hk (hcls ▸ hy) (hk ▸ hown)
  refine a.agree_get (fun y hy => ?_) (fun y hy he => ?_)
  · cases y with
    | userInstance cls attributes => exact agree_ofInstance rfl (hinherited cls attributes hy)
    | userClass label members => exact a.agree_ofClass rfl
    | _ => exact a.agree_ofOther p key id
  · have hget : ∀ b : Bindings, (b.set name w).get? key = b.get? key := fun b =>
      (Bindings.get?_set ..).trans (if_neg (hp he))
    cases y with
    | userInstance cls attributes =>
      exact agree_ofInstance (hget attributes) (hinherited cls attributes hy)
    | userClass label members => exact a.agree_ofClass (hget members)
    | _ => exact a.agree_ofOther p key id

/-- What is known of the object from now on. -/
theorem held (hr : s.heap.Roomy) (ho : s.heap.isLive o = true) {P : Object → Prop}
    (hP : P (x.withAttribute name w)) : Held o P s' := by
  refine ⟨fun c => ?_, x.withAttribute name w, ⟨(a.live o).trans ho, ?_⟩, hP⟩
  · rw [a.slots]
    exact hr c
  · rw [a.read, if_pos rfl]

end Assigned

/-- A value is an instance of a class, and has no attribute of its own under a name. -/
def Inherits (s : Space) (p cls : Handle) (name : String) : Prop :=
  (∃ label members, s.heap.get? cls = some (.userClass label members)) ∧
    ∃ attributes, s.heap.get? p = some (.userInstance cls attributes) ∧ attributes.get? name = none

end Space

open Space

variable {settings : Settings} {disk : Disk} {s s₁ : Space} {o w : Handle} {name : String}

theorem LiveRun.newClass (r : LiveRun settings disk s) (label : String)
    (members : List (String × Handle))
    (h : ∀ m ∈ members.map (·.2), s.heap.isLive m = true) :
    ∃ cls s', LiveRun settings disk s' ∧ Space.Frame [] s s' ∧
      s'.heap.Has cls (.userClass label (.ofList members)) :=
  r.making (.newClass label members) rfl h (makes_alloc (steady_of_liveRun r) trivial
    (fun m hm => h m (Trust.mem_handles_ofList hm)) nofun)

/-- **Attributes are read back.** What was set is read until the attribute is set again, unless it
is the name of a class, which stays. Other readings come to the same as before, except that
instances without an attribute of that name read the one that their class was given. -/
theorem attributes_read_back (r : LiveRun settings disk s) (ho : s.heap.isLive o = true)
    (h : setAttribute o name w s = .ok () s₁) :
    (∀ s₂, LeadsWithout (fun op => ∃ u, op = .setAttribute o name u) o s₁ s₂ →
      ((∀ label members, s.heap.get? o = some (.userClass label members) → name ≠ "__name__") →
        getAttribute o name s₂ = .ok w s₂) ∧
      (∀ label members, s.heap.get? o = some (.userClass label members) → name = "__name__" →
        getAttribute o name s₂ = newStr label s₂)) ∧
    ∀ p key, ¬ (p = o ∧ key = name) → ¬ (key = name ∧ s.Inherits p o name) →
      Agree s s₁ (getAttribute p key) (getAttribute p key) := by
  obtain ⟨x, a⟩ := assigned_of_ok h
  have hr := (sound_of_liveRun r).roomy
  refine ⟨fun s₂ l => ⟨fun hname => ?_, fun label members hx hname => ?_⟩,
    fun p key hp hinst => a.agree_getAttribute (fun he hk => hp ⟨he, hk⟩) ?_⟩
  · have hshow : Held o (Object.Shows name w) s₁ :=
      a.held hr ho (a.shows fun label members hx => hname label members (hx ▸ a.before))
    -- another attribute leaves what this one shows
    have hkept := l.held (fun _ => Object.Shows.hasAttributes)
      (fun other u hban y hy => hy.withAttribute fun he => hban ⟨u, he ▸ rfl⟩) hshow
    obtain ⟨-, y, hy, hyshow⟩ := hkept
    exact getAttribute_of_shows hy.2 hyshow a.name_ne
  · obtain rfl := Option.some.inj (a.before.symm.trans hx)
    have hclass : Held o (fun y => ∃ members, y = .userClass label members) s₁ :=
      a.held hr ho ⟨_, rfl⟩
    have hkept := l.held (fun y hy => by obtain ⟨_, rfl⟩ := hy; trivial)
      (fun other u _ y hy => by obtain ⟨_, rfl⟩ := hy; exact ⟨_, rfl⟩) hclass
    obtain ⟨-, y, hy, members', rfl⟩ := hkept
    subst hname
    exact getAttribute_label hy.2
  · intro label members attributes hx hk hy hown
    exact hinst ⟨hk, ⟨label, members, hx ▸ a.before⟩, attributes, hy, hown⟩

theorem liveRun_class (label : String) (n : Int64) :
    ∃ s cls v, LiveRun {} {} s ∧ s.heap.Has cls (.userClass label (.ofList [])) ∧
      s.heap.Has v (.int n) := by
  obtain ⟨s₀, h₀⟩ := create_ok {} rfl {}
  obtain ⟨cls, s', r', -, hcls⟩ := (LiveRun.start h₀).newClass label [] nofun
  obtain ⟨v, s, r, f, hv⟩ := r'.newInt n
  exact ⟨s, cls, v, r, f.keep hcls, hv⟩

/-- Setting the attribute `y` of a class leaves its attribute `x`. -/
theorem attributes_read_back_other :
    ∃ s cls five s₁ s₂, s.heap.Has cls (.userClass "A" (.ofList [])) ∧
      setAttribute cls "x" five s = .ok () s₁ ∧ setAttribute cls "y" cls s₁ = .ok () s₂ ∧
      getAttribute cls "x" s₂ = .ok five s₂ ∧
      Agree s s₁ (getAttribute five "real") (getAttribute five "real") := by
  obtain ⟨s, cls, five, r, hcls, hfive⟩ := liveRun_class "A" 5
  obtain ⟨s₁, h₁⟩ := setAttribute_ok hcls.2 trivial "x" (by decide) five
  obtain ⟨x, a₁⟩ := assigned_of_ok h₁
  obtain rfl := Option.some.inj (a₁.before.symm.trans hcls.2)
  have hcls₁ := (a₁.read cls).trans (if_pos rfl)
  have hlive₁ : s₁.heap.isLive cls = true := (a₁.live cls).trans hcls.1
  obtain ⟨s₂, h₂⟩ := setAttribute_ok hcls₁ trivial "y" (by decide) cls
  obtain ⟨_, a₂⟩ := assigned_of_ok h₂
  have hleave := leave_of_ok (.setAttribute cls "y" cls) rfl h₂
  have l : LeadsWithout (fun op => ∃ u, op = .setAttribute cls "x" u) cls s₁ s₂ := by
    refine hleave ▸ .turn _ .refl (fun op hop hban => ?_) (fun h hh => ?_) ?_
    · obtain ⟨u, rfl⟩ := hban
      simp at hop
    · obtain rfl : h = cls := by simpa [Turn.handles, Operation.handles] using hh
      exact hlive₁
    · rw [hleave, a₂.live]
      exact hlive₁
  obtain ⟨hread, hother⟩ := attributes_read_back r hcls.1 h₁
  refine ⟨s, cls, five, s₁, s₂, hcls, h₁, h₂, (hread s₂ l).1 fun _ _ _ => by decide,
    hother five "real" (fun h => ?_) (fun h => ?_)⟩
  · exact absurd h.2 (by decide)
  · exact absurd h.1 (by decide)

/-- Set to 5, the attribute `__name__` of a class is still read as the name of the class. -/
theorem attributes_read_back_class_name :
    ∃ s cls five s₁ v s₂, LiveRun {} {} s ∧ s.heap.Has cls (.userClass "A" (.ofList [])) ∧
      s.heap.Has five (.int 5) ∧ setAttribute cls "__name__" five s = .ok () s₁ ∧
      getAttribute cls "__name__" s₁ = .ok v s₂ ∧ v ≠ five ∧ s₂.heap.Has v (.str "A" none) := by
  obtain ⟨s, cls, five, r, hcls, hfive⟩ := liveRun_class "A" 5
  obtain ⟨s₁, h₁⟩ := setAttribute_ok hcls.2 trivial "__name__" (by decide) five
  obtain ⟨x, a⟩ := assigned_of_ok h₁
  obtain rfl := Option.some.inj (a.before.symm.trans hcls.2)
  have r₁ : LiveRun {} {} s₁ := r.after (.setAttribute cls "__name__" five) rfl
    (by simp [Operation.handles, hcls.1, hfive.1]) h₁
  have hcls₁ := (a.read cls).trans (if_pos rfl)
  obtain ⟨v, s₂, hmake, hnew, -, hv⟩ := makes_newStr (steady_of_liveRun r₁) "A"
  refine ⟨s, cls, five, s₁, v, s₂, r, hcls, hfive, h₁, (getAttribute_label hcls₁).trans hmake,
    fun he => ?_, hv⟩
  obtain ⟨y, hy, -⟩ := a.after hfive.2
  rw [he, hy] at hnew
  cases hnew

end ObjectSpace

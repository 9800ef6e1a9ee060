import ObjectSpace.Call
import ObjectSpace.Startup
import ObjectSpace.Proofs.Effects.Functions

/-!
# Effects of operations

**Theorem (`keeps_operation`).** An operation keeps every stable invariant that bears the effects of
the operation, also when it stops half-way. `Operation.Has` lists the effects of each: reading and
operators have none, a change of a container fills that container, and a call may do anything but
set attributes, change contexts or name another global context.
-/

namespace ObjectSpace

namespace Space

variable {I : Space → Prop} (k : Stable I) (ha : Bears I .advance)
  (hfill : ∀ h, Bears I (.fill h)) (hf : Files I)

/-! ## Calls -/

include k ha hfill hf in
theorem keeps_runMethod (m : Method) (receiver : Handle) (args : List Handle) :
    Keeps I (runMethod m receiver args) := by
  refine keeps_ask_bind fun o => ?_
  have hr := hfill receiver
  split
  · exact keeps_dictMethod k ha _ hr _
  · exact keeps_listMethod k ha _ hr _
  · exact keeps_setMethod k ha _ hr _
  · exact keeps_strMethod k ha _ _
  · exact keeps_tupleMethod k _ _
  · exact keeps_decodeMethod k _
  · exact keeps_fileMethod k _ hf _
  · exact keeps_ask _

theorem keeps_presentKeywords (kwargs : Option Handle) : Keeps I (presentKeywords kwargs) := by
  cases kwargs with
  | none => exact keeps_pure _
  | some kw =>
    refine keeps_bind (keeps_isNone kw) fun b => keeps_ite (keeps_pure _) ?_
    refine keeps_ask_bind fun o => ?_
    split <;> exact keeps_pure _

section Calls

variable {code : Code} (hcode : ∀ n frame, Keeps I (code n frame)) (ctx : Handle)

include k ha hfill hf hcode

theorem keeps_callFunction (name : String) (entry : Entry) (receiver : Option Handle)
    (args : Handle) (kwargs : Option Handle) :
    Keeps I (callFunction code ctx name entry receiver args kwargs) := by
  cases entry with
  | compiled n =>
    have hrun : ∀ pack, Keeps I (do
        let s ← get
        code n { globals := s.globals.getD ctx, caller := ctx, args := pack, kwargs }) :=
      fun pack => keeps_get_bind fun s => hcode _ _
    cases receiver with
    | none => exact hrun args
    | some r => exact keeps_ask_bind fun _ => keeps_bind (k.alloc trivial) hrun
  | builtin f keywords =>
    have hrun : Keeps I (do
        let args ← liftM (positional receiver args)
        runBuiltin f args kwargs) :=
      keeps_ask_bind fun _ => keeps_runBuiltin k ha f (fun _ => hf) _ _
    cases kwargs with
    | none => exact hrun
    | some kw => exact keeps_ask_bind fun _ => hrun
  | method m =>
    unfold callFunction
    refine keeps_guard (keeps_ask_bind fun items => ?_)
    cases items with
    | nil => exact keeps_fatal _
    | cons v rest => exact keeps_runMethod k ha hfill hf m v rest

omit ha hfill hf hcode in
/-- A function among the members is bound to the instance, which is fresh. -/
theorem keeps_bindMembers {inst : Handle} (hinst : Fresh I inst)
    (members : List (String × Handle)) : Keeps I (bindMembers inst members) := by
  refine keeps_foldlM (fun init? e => ?_) none members
  obtain ⟨name, member⟩ := e
  refine keeps_ask_bind fun b => keeps_ite ?_ (keeps_pure _)
  refine keeps_bind (k.alloc trivial) fun bound => keeps_bind ?_ fun _ => keeps_pure _
  have hset : Alters I inst fun o o' => o' = o.withAttribute name bound ∨ o' = o :=
    k.assign hinst name bound
  refine keeps_update hset fun o => ?_
  cases o with
  | userInstance => exact .inl rfl
  | _ => exact .inr rfl

theorem keeps_instantiate (cls : Handle) (className : String) (members : Bindings)
    (args : Handle) (kwargs : Option Handle) :
    Keeps I (instantiate code ctx cls className members args kwargs) := by
  refine k.alloc_bind (o := .userInstance cls {}) rfl fun inst hinst => ?_
  refine keeps_bind (keeps_bindMembers k hinst _) fun init? => ?_
  cases init? with
  | some init =>
    refine keeps_bind (keeps_presentKeywords kwargs) fun kwargs => keeps_ask_bind fun o => ?_
    split
    · exact keeps_bind (keeps_callFunction k ha hfill hf hcode ctx _ _ _ _ _) fun _ =>
        keeps_pure _
    · exact keeps_ask_bind fun _ => keeps_bind (keeps_fatal _) fun _ => keeps_pure _
  | none => exact keeps_ask_bind fun items => keeps_guard (keeps_guard (keeps_pure _))

theorem keeps_call (callee args : Handle) (kwargs : Option Handle) :
    Keeps I (call code ctx callee args kwargs) := by
  refine keeps_bind (keeps_presentKeywords kwargs) fun kwargs => keeps_ask_bind fun o => ?_
  split
  · exact keeps_callFunction k ha hfill hf hcode ctx _ _ _ _ _
  · refine keeps_ask_bind fun o => ?_
    split
    · exact keeps_callFunction k ha hfill hf hcode ctx _ _ _ _ _
    · exact keeps_ask_bind fun _ => keeps_fatal _
  · exact keeps_instantiate k ha hfill hf hcode ctx _ _ _ _ _
  · exact keeps_ask_bind fun _ => keeps_construct k (fun v _ => (k.iterates ha).collect v) _ _
  · exact keeps_ask_bind fun _ => keeps_fatal _

theorem keeps_callWith (callee : Handle) (args : List Handle) :
    Keeps I (callWith code ctx callee args) :=
  keeps_bind (k.alloc trivial) fun _ => keeps_call k ha hfill hf hcode ctx _ _ _

end Calls

/-! ## Contexts -/

section Contexts

variable (hc : Bears I .contexts) (ctx : Handle)

include hc

theorem keeps_updateContext (c : Handle) {f : Context → Context}
    (hp : ∀ ctx, (f ctx).parent = ctx.parent) : Keeps I (updateContext c f) := by
  refine keeps_ask_bind fun _ => keeps_update (hc c) fun o => ?_
  cases o with
  | context ctx => exact hp ctx
  | _ => rfl

theorem keeps_store (index : Nat) (v : Handle) : Keeps I (store ctx index v) :=
  keeps_updateContext hc ctx fun _ => rfl

theorem keeps_declareGlobal (name : String) : Keeps I (declareGlobal ctx name) :=
  keeps_updateContext hc ctx fun _ => rfl

theorem keeps_storeName (name : String) (v : Handle) : Keeps I (storeName ctx name v) :=
  keeps_get_bind fun _ => keeps_ask_bind fun target => keeps_updateContext hc target fun _ => rfl

omit hc in
theorem keeps_loadName (name : String) : Keeps I (loadName ctx name) := by
  refine keeps_get_bind fun _ => keeps_ask_bind fun start => keeps_ask_bind fun n => ?_
  refine keeps_ask_bind fun w? => ?_
  cases w? with
  | some w => exact keeps_pure w
  | none => exact keeps_fatal _

theorem keeps_bindType (kind : Kind) : Keeps I (bindType ctx kind) :=
  keeps_bind (keeps_typeObject kind) fun _ => keeps_storeName hc ctx _ _

include k

theorem keeps_bindFunction (name : String) (f : Builtin) (keywords : List String) :
    Keeps I (bindFunction ctx name f keywords) :=
  keeps_bind (k.alloc trivial) fun _ => keeps_storeName hc ctx _ _

theorem keeps_initContext (hg : Bears I (.globals ctx)) (argv : List String) :
    Keeps I (initContext ctx argv) := by
  refine keeps_bind (fun s hi => hg s hi) fun _ => ?_
  refine keeps_bind (keeps_forM (fun f => keeps_bindFunction k hc ctx _ f _) _) fun _ => ?_
  refine keeps_bind (keeps_forM (keeps_bindType hc ctx) _) fun _ => keeps_get_bind fun s => ?_
  refine keeps_bind (k.alloc trivial) fun _ => keeps_bind (keeps_storeName hc ctx _ _) fun _ => ?_
  refine keeps_bind (keeps_mapM (fun text => k.alloc (o := .str text none) trivial) argv)
    fun _ => ?_
  exact keeps_bind (k.alloc trivial) fun _ => keeps_storeName hc ctx _ _

end Contexts

end Space

/-! ## Operations -/

/-- The effects of an operation. -/
def Operation.Has : Operation → Effect → Prop
  | .setItem v .., e | .deleteItem v _, e | .dictInsert v .., e | .dictRemove v _, e
  | .setInsert v _, e | .setRemove v _, e => e = .fill v
  | .dictUpdate d _, e => e = .fill d ∨ e = .advance
  | .next _, e | .collect _, e => e = .advance
  | .setAttribute v name w, e => e = .assign v name w
  | .newContext parent _, e => e = .scope parent
  | .store .., e | .declareGlobal .., e | .storeName .., e | .bindFunction .., e
  | .bindType .., e => e = .contexts
  | .initContext ctx _, e => e = .contexts ∨ e = .globals ctx
  | .call .., e | .callWith .., e => e = .advance ∨ (∃ h, e = .fill h) ∨ e = .files ∨ e = .disk
  | .outside _, e => e = .disk
  | _, _ => False

namespace Space

variable {I : Space → Prop} {α : Type} [Carries α]

theorem keeps_returned {act : Action α} (ha : Keeps I act) : Keeps I (Operation.returned act) := by
  intro s hi
  rw [leftBy_returned]
  exact ha s hi

theorem keeps_reading (q : Query α) : Keeps I (Operation.returned (liftM q)) :=
  keeps_returned (keeps_ask q)

/-- **Effects of operations.** A stable invariant that bears the effects of an operation holds after
it, however the operation ends. -/
theorem keeps_operation (k : Stable I) (op : Operation) (h : ∀ e, op.Has e → Bears I e) :
    Keeps I op.run := by
  cases op
  all_goals
    simp only [Operation.Has, forall_eq, forall_eq_or_imp, false_implies, implies_true] at h
    unfold Operation.run
  case nothing => exact keeps_returned keeps_nothing
  case boolean => exact keeps_returned (keeps_boolean _)
  case typeObject => exact keeps_returned (keeps_typeObject _)
  case internInt => exact keeps_returned (k.internInt _)
  case internStr => exact keeps_returned (k.internStr _)
  case newInt | newStr | newBytes | newList | newTuple | newFunction =>
    exact keeps_returned (k.alloc trivial)
  case newDict => exact keeps_returned (keeps_newDict k _)
  case newSet => exact keeps_returned (keeps_newSet k _)
  case newRange => exact keeps_returned (k.newRange _ _ _)
  case newClass _ members => exact keeps_returned (k.alloc ⟨members, rfl⟩)
  case binary => exact keeps_returned (keeps_binary k _ _ _)
  case unary => exact keeps_returned (keeps_unary k _ _)
  case compare | contains | notContains =>
    exact keeps_returned (keeps_ask_bind fun _ => keeps_boolean _)
  case getItem => exact keeps_returned (keeps_getItem k _ _)
  case setItem => exact keeps_returned (keeps_setItem h _ _)
  case deleteItem => exact keeps_returned (keeps_deleteItem h _)
  case slice => exact keeps_returned (keeps_slice k _ _ _)
  case typeOf => exact keeps_returned (keeps_typeOf _)
  case getAttribute => exact keeps_returned (keeps_getAttribute k _ _)
  case setAttribute => exact keeps_returned (keeps_setAttribute h)
  case dictInsert => exact keeps_returned (keeps_dictInsert h _ _)
  case dictRemove => exact keeps_returned (keeps_dictRemove h _)
  case dictUpdate => exact keeps_returned (keeps_dictUpdate ((k.iterates h.2).collect _) h.1)
  case setInsert => exact keeps_returned (keeps_setInsert h _)
  case setRemove => exact keeps_returned (keeps_setRemove h _)
  case iter => exact keeps_returned (k.yields.iter _)
  case next => exact keeps_returned ((k.iterates h).next _)
  case collect => exact keeps_returned ((k.iterates h).collect _)
  case newContext =>
    have hplaces : Places I _ := { k.toPlaces with place := h }
    exact keeps_returned (hplaces.alloc ⟨_, rfl⟩)
  case store => exact keeps_returned (keeps_store h _ _ _)
  case declareGlobal => exact keeps_returned (keeps_declareGlobal h _ _)
  case storeName => exact keeps_returned (keeps_storeName h _ _ _)
  case loadName => exact keeps_returned (keeps_loadName _ _)
  case bindFunction => exact keeps_returned (keeps_bindFunction k h _ _ _ _)
  case bindType => exact keeps_returned (keeps_bindType h _ _)
  case initContext => exact keeps_returned (keeps_initContext k h.1 _ h.2 _)
  case call =>
    have hf : Files I := ⟨h.2 _ (.inr (.inl rfl)), h.2 _ (.inr (.inr rfl))⟩
    exact keeps_returned (keeps_call k h.1 (fun g => h.2 _ (.inl ⟨g, rfl⟩)) hf
      (fun _ _ => keeps_violate _) _ _ _ _)
  case callWith =>
    have hf : Files I := ⟨h.2 _ (.inr (.inl rfl)), h.2 _ (.inr (.inr rfl))⟩
    exact keeps_returned (keeps_callWith k h.1 (fun g => h.2 _ (.inl ⟨g, rfl⟩)) hf
      (fun _ _ => keeps_violate _) _ _ _)
  case write => exact keeps_returned (k.write _)
  case takeOutput => exact keeps_returned k.takeOutput
  case outside => exact keeps_returned (keeps_changeDisk h _)
  all_goals exact keeps_reading _

end Space

end ObjectSpace

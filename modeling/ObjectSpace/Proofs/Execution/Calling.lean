import ObjectSpace.Programs
import ObjectSpace.Proofs.Execution.Startup

/-!
# Calls of a program

What a call comes to: the function or the method that is found by name is run with the arguments, in
a space that differs from the one before by a few new objects only (`Module.callBuiltin`,
`Module.callType`, `callMethod_frame`).
-/

namespace ObjectSpace

namespace Method

theorem lookup?_name (m : Method) : lookup? m.owner m.name = some m := by
  rcases m with m | m | m | m | m | _ | m <;> try cases m
  all_goals decide

theorem of_lookup? {k : Kind} {name : String} {m : Method} (h : lookup? k name = some m) :
    m.owner = k ∧ m.name = name := by
  unfold lookup? at h
  simpa using List.find?_some h

theorem name_ne_name (m : Method) : m.name ≠ "__name__" := by
  rcases m with m | m | m | m | m | _ | m <;> try cases m
  all_goals decide

theorem name_ne_class (m : Method) : m.name ≠ "__class__" := by
  rcases m with m | m | m | m | m | _ | m <;> try cases m
  all_goals decide

end Method

theorem Heap.asInt?_eq {heap : Heap} {v : Handle} {o : Object} (h : heap.Has v o) :
    asInt? v heap = .ok o.asInt? := bind_of_ok (get_eq_ok.2 h.2)

theorem Heap.expectInt_eq {heap : Heap} {v : Handle} {o : Object} {n : Int64} (h : heap.Has v o)
    (ho : o.asInt? = some n) (name : String) : expectInt v name heap = .ok n :=
  bind_of_ok ((asInt?_eq h).trans (congrArg Except.ok ho))

theorem Heap.expectInt_int {heap : Heap} {v : Handle} {n : Int64} (h : heap.Has v (.int n))
    (name : String) : expectInt v name heap = .ok n := expectInt_eq h rfl name

theorem Heap.expectStr_text {heap : Heap} {v : Handle} {text : String}
    (h : Space.IsText heap v text) (name : String) : expectStr v name heap = .ok text := by
  obtain ⟨hash?, h⟩ := h
  have hstr : asStr? v heap = .ok (some text) := bind_of_ok (get_eq_ok.2 h.2)
  exact bind_of_ok hstr

namespace Space

variable {s s' : Space} {ctx v pack : Handle} {c : Context} {o : Object} {args : List Handle}
  {code : Code}

/-! ## Arguments -/

theorem presentKeywords_none : presentKeywords none s = .ok none s := rfl

theorem arguments_eq {items : Array Handle} (h : s.heap.Has pack o)
    (ho : o.asSequence? = some items) : Heap.arguments pack s.heap = .ok items := by
  rw [Heap.arguments, Heap.bind_of_ok (Heap.get_eq_ok.2 h.2), ho]
  rfl

theorem positional_eq {items : Array Handle} (h : s.heap.Has pack o)
    (ho : o.asSequence? = some items) (receiver : Option Handle) :
    positional receiver pack s.heap = .ok (receiver.toList ++ items.toList) :=
  Heap.bind_of_ok (arguments_eq h ho)

/-- The arguments of a call are packed in a new tuple. -/
theorem pack_frame (i : s.Steady) (hargs : ∀ a ∈ args, s.heap.isLive a = true) :
    ∃ pack s', newTuple args.toArray s = .ok pack s' ∧ Frame [] s s' ∧
      s'.heap.Has pack (.tuple args.toArray) := by
  have hlive : ∀ a ∈ args.toArray.toList, s.heap.isLive a = true := hargs
  exact newTuple_frame i hlive

/-! ## Functions and types of the module -/

/-- Calling a built-in function runs it with the arguments. -/
theorem callWith_builtin (code : Code) (ctx : Handle) (i : s.Steady) {callee : Handle}
    {name : String} {f : Builtin} {keywords : List String}
    (hf : s.heap.Has callee (.function name (.builtin f keywords)))
    (hargs : ∀ a ∈ args, s.heap.isLive a = true) :
    ∃ s', Frame [] s s' ∧ callWith code ctx callee args s = runBuiltin f args none s' := by
  obtain ⟨pack, s', hs', fr, hpack⟩ := pack_frame i hargs
  refine ⟨s', fr, ?_⟩
  rw [callWith, bind_of_ok hs', call, bind_of_ok presentKeywords_none,
    get_bind_of_has (fr.keep hf)]
  show callFunction code ctx name (.builtin f keywords) none pack none s' = _
  rw [callFunction]
  show ((liftM (positional none pack) : Action (List Handle)) >>= _) s' = _
  rw [ask_bind_of_ok (positional_eq hpack rfl none)]
  rfl

theorem Module.callBuiltin (m : Module s ctx c) (i : s.Steady) {f : Builtin}
    (hf : f ∈ Builtin.standard) (hargs : ∀ a ∈ args, s.heap.isLive a = true) :
    ∃ s', Frame [] s s' ∧ Program.callName ctx f.name args s = runBuiltin f args none s' := by
  obtain ⟨h, hget, hh⟩ := m.builtin f hf
  obtain ⟨s', fr, hs'⟩ := callWith_builtin noCode ctx i hh hargs
  refine ⟨s', fr, ?_⟩
  rw [Program.callName, bind_of_ok (m.loadName hget), hs']

/-- Calling a built-in type makes a value of it. -/
theorem callWith_type (code : Code) (ctx : Handle) (i : s.Steady) {callee : Handle} {k : Kind}
    (hk : s.heap.Has callee (.type k)) (hargs : ∀ a ∈ args, s.heap.isLive a = true) :
    ∃ s', Frame [] s s' ∧ callWith code ctx callee args s = construct k args none s' := by
  obtain ⟨pack, s', hs', fr, hpack⟩ := pack_frame i hargs
  refine ⟨s', fr, ?_⟩
  rw [callWith, bind_of_ok hs', call, bind_of_ok presentKeywords_none,
    get_bind_of_has (fr.keep hk)]
  show ((liftM (Heap.arguments pack) : Action (Array Handle)) >>= _) s' = _
  rw [ask_bind_of_ok (arguments_eq hpack rfl)]

theorem Module.callType (m : Module s ctx c) (i : s.Steady) {k : Kind} (hk : k ∈ Kind.named)
    (hargs : ∀ a ∈ args, s.heap.isLive a = true) :
    ∃ s', Frame [] s s' ∧ Program.callName ctx k.name args s = construct k args none s' := by
  obtain ⟨h, hget, hh⟩ := m.type k hk
  obtain ⟨s', fr, hs'⟩ := callWith_type noCode ctx i hh hargs
  refine ⟨s', fr, ?_⟩
  rw [Program.callName, bind_of_ok (m.loadName hget), hs']

/-! ## Methods of values -/

/-- A value of a built-in type has its methods as attributes. -/
theorem getAttribute_method (hv : s.heap.Has v o) (m : Method) (ho : o.kind? = some m.owner) :
    getAttribute v m.name s = newBoundMethod v (s.methods.get m.index) s := by
  rw [getAttribute, if_neg m.name_ne_class, get_bind_of_has hv]
  have hbuiltin : builtinMethod v m.name o s = newBoundMethod v (s.methods.get m.index) s := by
    rw [builtinMethod, ho, Option.bind_some, m.lookup?_name]
    rfl
  cases o with
  | userInstance | context => cases ho
  | userClass | type =>
    have hk := (Option.some.inj ho).symm
    rcases m with m | m | m | m | m | _ | m <;> cases hk
  | function _ entry =>
    have hk := (Option.some.inj ho).symm
    cases entry <;> rcases m with m | m | m | m | m | _ | m <;> cases hk
  | _ => exact hbuiltin

/-- Calling a method of a value of a built-in type places two objects, the bound method and the
tuple of the arguments, and runs the method. -/
theorem callMethod_allocs (code : Code) (ctx : Handle) (i : s.Steady) (hv : s.heap.Has v o)
    (m : Method) (ho : o.kind? = some m.owner) (hargs : ∀ a ∈ args, s.heap.isLive a = true) :
    ∃ b s₁ pack s₂, alloc (.boundMethod v (s.methods.get m.index)) s = .ok b s₁ ∧
      alloc (.tuple args.toArray) s₁ = .ok pack s₂ ∧ Frame [] s s₁ ∧ Frame [] s₁ s₂ ∧
      Program.callMethod code ctx v m.name args s = runMethod m v args s₂ := by
  have hfun := i.methods m.index
  rw [show Method.all.get m.index = m from Method.all_index m] at hfun
  obtain ⟨b, s₁, h₁, f₁, hb⟩ :=
    alloc_frame i (o := .boundMethod v (s.methods.get m.index)) trivial
      (by simp [Object.children, hv.1, hfun.1]) nofun
  obtain ⟨pack, s₂, h₂, f₂, hpack⟩ := pack_frame f₁.steady fun a ha => f₁.live (hargs a ha)
  refine ⟨b, s₁, pack, s₂, h₁, h₂, f₁, f₂, ?_⟩
  have hattr : getAttribute v m.name s = .ok b s₁ := (getAttribute_method hv m ho).trans h₁
  rw [Program.callMethod, bind_of_ok hattr, callWith, bind_of_ok h₂, call,
    bind_of_ok presentKeywords_none, get_bind_of_has (f₂.keep hb)]
  show ((liftM (Heap.get (s.methods.get m.index)) : Action Object) >>= _) s₂ = _
  rw [get_bind_of_has ((f₁.again f₂).keep hfun)]
  show callFunction code ctx m.qualifiedName (.method m) (some v) pack none s₂ = _
  rw [callFunction]
  show ((liftM (positional (some v) pack) : Action (List Handle)) >>= _) s₂ = _
  rw [ask_bind_of_ok (positional_eq hpack rfl (some v))]
  rfl

/-- Calling a method of a value of a built-in type runs the method on it. -/
theorem callMethod_frame (code : Code) (ctx : Handle) (i : s.Steady) (hv : s.heap.Has v o)
    (m : Method) (ho : o.kind? = some m.owner) (hargs : ∀ a ∈ args, s.heap.isLive a = true) :
    ∃ s', Frame [] s s' ∧ Program.callMethod code ctx v m.name args s = runMethod m v args s' := by
  obtain ⟨b, s₁, pack, s₂, -, -, f₁, f₂, h⟩ := callMethod_allocs code ctx i hv m ho hargs
  exact ⟨s₂, f₁.again f₂, h⟩

end Space

end ObjectSpace

import ObjectSpace.Proofs.Execution.Operations

/-!
# Instances of a program

Attributes of instances are read as they were last set. A method of an instance that runs code of
the program is called with the instance as the first argument, and the code runs in a context of its
own, with the arguments in its slots (`callBound_frame`, `enter_frame`).
-/

namespace ObjectSpace.Space

variable {s s' : Space} {ctx cls f inst m pack v w : Handle} {attributes : Bindings} {name : String}
  {args : List Handle} {code : Code} {c : Context} {n : Nat}

/-! ## Attributes -/

/-- What binding the members of a class to an instance does for a member. -/
def bindOwn (inst : Handle) (init? : Option Handle) (member : String × Handle) :
    Action (Option Handle) := do
  if ← Heap.isFunction member.2 then
    let bound ← newBoundMethod inst member.2
    setOwnAttribute inst member.1 bound
    return if member.1 = "__init__" then some member.2 else init?
  else return init?

theorem bindMembers_eq (inst : Handle) (members : List (String × Handle)) :
    bindMembers inst members = members.foldlM (bindOwn inst) none := rfl

theorem getAttribute_own (hv : s.heap.Has v (.userInstance cls attributes))
    (hn : name ≠ "__class__") (hw : attributes.get? name = some w) :
    getAttribute v name s = .ok w s := by
  rw [getAttribute, if_neg hn, get_bind_of_has hv]
  dsimp only
  rw [hw]
  rfl

theorem children_set {h : Handle}
    (hh : h ∈ (Object.userInstance cls (attributes.set name w)).children) :
    h = w ∨ h ∈ (Object.userInstance cls attributes).children := by
  rcases List.mem_cons.1 hh with rfl | hh
  · exact .inr List.mem_cons_self
  · exact (Trust.mem_handles_set hh).imp_right (List.mem_cons_of_mem _)

theorem setOwnAttribute_frame (i : s.Steady) (hv : s.heap.Has v (.userInstance cls attributes))
    (name : String) (hw : s.heap.isLive w = true) :
    ∃ s', setOwnAttribute v name w s = .ok () s' ∧ Frame [v] s s' ∧
      s'.heap.Has v (.userInstance cls (attributes.set name w)) := by
  refine update_frame i hv (.attribute cls attributes name w) (fun h hh => ?_) nofun
  rcases children_set hh with rfl | hh
  · exact hw
  · exact i.children hv h hh

theorem setAttribute_frame (i : s.Steady) (hv : s.heap.Has v (.userInstance cls attributes))
    (name : String) (hn : name ≠ "__class__") (hw : s.heap.isLive w = true) :
    ∃ s', setAttribute v name w s = .ok () s' ∧ Frame [v] s s' ∧
      s'.heap.Has v (.userInstance cls (attributes.set name w)) := by
  obtain ⟨g, hg, hgv⟩ : ∃ g : Object → Object, setAttribute v name w s = update v g s ∧
      g (.userInstance cls attributes) = .userInstance cls (attributes.set name w) := by
    rw [setAttribute, get_bind_of_has hv]
    simp only [Bool.not_true, Bool.false_eq_true, hn, decide_false, Bool.or_self, if_false]
    exact ⟨_, rfl, rfl⟩
  obtain ⟨s', hs', f, hv'⟩ := update_frame i hv (f := g) (hgv ▸ .attribute cls attributes name w)
    (fun h hh => by
      rw [hgv] at hh
      rcases children_set hh with rfl | hh
      · exact hw
      · exact i.children hv h hh) (by rw [hgv]; simp [Object.Writes])
  exact ⟨s', hg.trans hs', f, hgv ▸ hv'⟩

/-- A function among the members of a class is bound to a new instance. -/
theorem bindOwn_frame (i : s.Steady) (hv : s.heap.Has v (.userInstance cls attributes))
    {label : String} {entry : Entry} (hf : s.heap.Has f (.function label entry))
    (name : String) (init? : Option Handle) :
    ∃ m s', bindOwn v init? (name, f) s =
        .ok (if name = "__init__" then some f else init?) s' ∧ s.heap.get? m = none ∧
      Frame [v] s s' ∧ s'.heap.Has v (.userInstance cls (attributes.set name m)) ∧
      s'.heap.Has m (.boundMethod v f) := by
  obtain ⟨m, s₁, h₁, f₁, hm⟩ := alloc_frame i (o := .boundMethod v f) trivial
    (by simp [Object.children, hv.1, hf.1]) nofun
  obtain ⟨s₂, h₂, f₂, hv₂⟩ := setOwnAttribute_frame f₁.steady (f₁.keep hv) name hm.1
  refine ⟨m, s₂, ?_, alloc_new i h₁, (f₁.trans f₂).mono (by simp), hv₂,
    f₂.fixed hm fun _ h => h⟩
  have hfun : Heap.isFunction f s.heap = .ok true := Heap.bind_of_ok (Heap.get_eq_ok.2 hf.2)
  have hnew : newBoundMethod v f s = .ok m s₁ := h₁
  rw [bindOwn, ask_bind_of_ok hfun, if_pos rfl, bind_of_ok hnew, bind_of_ok h₂]
  rfl

/-- The first of the members is a function. -/
theorem bindMembers_cons (i : s.Steady) (hv : s.heap.Has v (.userInstance cls attributes))
    {label : String} {entry : Entry} (hf : s.heap.Has f (.function label entry))
    (name : String) (rest : List (String × Handle)) (init? : Option Handle) :
    ∃ m s', (((name, f) :: rest).foldlM (bindOwn v) init?) s =
        rest.foldlM (bindOwn v) (if name = "__init__" then some f else init?) s' ∧
      Frame [v] s s' ∧ s'.heap.Has v (.userInstance cls (attributes.set name m)) ∧
      s'.heap.Has m (.boundMethod v f) := by
  obtain ⟨m, s', hs', -, fr, hv', hm⟩ := bindOwn_frame i hv hf name init?
  refine ⟨m, s', ?_, fr, hv', hm⟩
  rw [List.foldlM_cons, bind_of_ok hs']

/-! ## Calls of compiled methods -/

/-- A compiled method gets its receiver before the arguments. -/
theorem callCompiled_frame (code : Code) (ctx : Handle) (name : String) (n : Nat) (i : s.Steady)
    (hr : s.heap.isLive v = true) (hpack : s.heap.Has pack (.tuple args.toArray)) :
    ∃ g pack' s', callFunction code ctx name (.compiled n) (some v) pack none s =
        code n { globals := g, caller := ctx, args := pack', kwargs := none } s' ∧ Frame [] s s' ∧
      s'.heap.Has pack' (.tuple (v :: args).toArray) := by
  have hlive : ∀ a ∈ v :: args, s.heap.isLive a = true :=
    List.forall_mem_cons.2 ⟨hr, i.children hpack⟩
  obtain ⟨pack', s', hs', fr, hpack'⟩ := pack_frame i hlive
  refine ⟨s'.globals.getD ctx, pack', s', ?_, fr, hpack'⟩
  rw [callFunction]
  dsimp only
  rw [ask_bind_of_ok (positional_eq hpack rfl (some v))]
  exact bind_of_ok hs'

/-- Calling a compiled method of an instance runs its code with the instance. -/
theorem callBound_frame (code : Code) (ctx : Handle) (i : s.Steady)
    (hm : s.heap.Has m (.boundMethod v f)) (hf : s.heap.Has f (.function name (.compiled n)))
    (hargs : ∀ a ∈ args, s.heap.isLive a = true) :
    ∃ g pack s', callWith code ctx m args s =
        code n { globals := g, caller := ctx, args := pack, kwargs := none } s' ∧ Frame [] s s' ∧
      s'.heap.Has pack (.tuple (v :: args).toArray) := by
  obtain ⟨pack, s₁, h₁, f₁, hpack⟩ := pack_frame i hargs
  have hv : s₁.heap.isLive v = true := f₁.live (i.children hm v List.mem_cons_self)
  obtain ⟨g, pack', s₂, h₂, f₂, hpack'⟩ :=
    callCompiled_frame code ctx name n f₁.steady hv hpack
  refine ⟨g, pack', s₂, ?_, f₁.again f₂, hpack'⟩
  rw [callWith, bind_of_ok h₁, call, bind_of_ok presentKeywords_none,
    get_bind_of_has (f₁.keep hm)]
  dsimp only
  rw [get_bind_of_has (f₁.keep hf)]
  exact h₂

/-- A new context within another one. -/
theorem newContext_frame (i : s.Steady) (hctx : s.heap.isLive ctx = true) (slots : Nat) :
    ∃ inner s', newContext (some ctx) slots s = .ok inner s' ∧ s.heap.get? inner = none ∧
      Frame [] s s' ∧ s'.heap.Has inner
        (.context { slots := Array.replicate slots none, parent := some ctx }) := by
  obtain ⟨inner, s', hs', f, hinner⟩ := alloc_frame i
    (o := .context { slots := Array.replicate slots none, parent := some ctx }) trivial
    (fun h hh => by
      have hh : h = ctx := by
        simpa [Object.children, Context.children, Bindings.handles] using hh
      rw [hh, hctx]) nofun
  exact ⟨inner, s', hs', alloc_new i hs', f, hinner⟩

end ObjectSpace.Space

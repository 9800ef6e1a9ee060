import ObjectSpace.Proofs.Effects.Attributes
import ObjectSpace.Proofs.Execution.Attributes
import ObjectSpace.Proofs.Execution.Calling
import ObjectSpace.Proofs.Iteration.Exhaustion
import Mathlib.Data.List.Forall2

/-!
# Calls of classes

**Theorem (`class_instances`).** A class whose `__init__` is not a function is called without
arguments. The result is a new instance, with a new method of its own for every function among the
members and nothing else. Under the names of these it gives the same methods for as long as no
attribute of it is set. Under every other name it gives what the class has for that name at the
time, bound to the instance if it is a function. With arguments the call fails, naming the class.

The loop over the members writes into the instance that it is building. What carries it is that the
names of the members are different (`LiveRun.members_once`), so that every method is bound under a
name that has none yet.
-/

namespace ObjectSpace

theorem Heap.Kept.new {a b c : Heap} {v : Handle} {o : Object} (k : Heap.Kept a b)
    (k' : Heap.Kept b c) (hb : b.get? v = none) (hc : c.Has v o) : a.get? v = none := by
  rcases ha : a.get? v with _ | p
  · rfl
  exfalso
  obtain ⟨x, hx, hxv⟩ := Arena.get?_eq_some.1 ha
  rcases k v x hx with ⟨y, hy, -, hyv⟩ | ⟨-, ht⟩
  · obtain ⟨q, hq, -⟩ := hyv p hxv
    rw [Arena.get?_eq_some.2 ⟨y, hy, hq⟩] at hb
    cases hb
  · -- the slot was handed out again, so the handle is stale for good
    obtain ⟨z, hz, -⟩ := Arena.get?_eq_some.1 hc.2
    rw [Heap.cell?_of_taken (k'.live ht)] at hz
    cases hz

/-! ## Functions among the members -/

def Object.isFunction : Object → Bool
  | function .. => true
  | _ => false

theorem Object.exists_of_isFunction {o : Object} (h : o.isFunction = true) :
    ∃ label entry, o = .function label entry := by
  cases o with
  | function label entry => exact ⟨label, entry, rfl⟩
  | _ => cases h

namespace Heap

/-- A handle names a function. -/
def namesFunction (heap : Heap) (h : Handle) : Bool := (heap.get? h).any Object.isFunction

/-- The functions among the members of a class, with their names. -/
def functions (heap : Heap) (members : List (String × Handle)) : List (String × Handle) :=
  members.filter fun m => heap.namesFunction m.2

variable {heap heap' : Heap} {h : Handle} {o : Object}

theorem namesFunction_eq (ho : heap.get? h = some o) : heap.namesFunction h = o.isFunction := by
  rw [namesFunction, ho]
  rfl

theorem isFunction_eq (ho : heap.get? h = some o) :
    Heap.isFunction h heap = .ok (heap.namesFunction h) := by
  rw [Heap.isFunction, Heap.bind_of_ok (Heap.get_eq_ok.2 ho), namesFunction_eq ho]
  cases o <;> rfl

/-- A live handle names a function for good, or never. -/
theorem Kept.namesFunction_eq (k : Kept heap heap') (ho : heap.Has h o) :
    heap'.namesFunction h = heap.namesFunction h := by
  obtain ⟨o', ho', he⟩ := k.has ho
  rw [Heap.namesFunction_eq ho.2, Heap.namesFunction_eq ho'.2]
  cases o <;> cases o' <;> first
    | rfl
    | cases he

end Heap

namespace Space

variable {s s' s₂ : Space} {cls inst args k v : Handle} {kwargs : Option Handle}
  {members attributes : Bindings} {label name : String} {o pack : Object} {items : Array Handle}
  {settings : Settings} {disk : Disk} {banned : Operation → Prop}

theorem Steady.has_of_live (i : s.Steady) (h : s.heap.isLive v = true) : ∃ o, s.heap.Has v o := by
  obtain ⟨o, ho, -⟩ := i.ordered.sound.get? h
  exact ⟨o, h, ho⟩

theorem Moves.namesFunction_eq {touched : List Handle} (m : Moves touched s s') (i : s.Steady)
    (hv : s.heap.isLive v = true) : s'.heap.namesFunction v = s.heap.namesFunction v := by
  obtain ⟨o, ho⟩ := i.has_of_live hv
  exact m.kept.namesFunction_eq ho

/-! ## Binding the members -/

/-- Around the binding of functions to an instance there is a new method for each of them. -/
def Binds (inst : Handle) (s s' : Space) (functions bound : List (String × Handle)) : Prop :=
  List.Forall₂ (fun f m => m.1 = f.1 ∧ s.heap.get? m.2 = none ∧
    s'.heap.Has m.2 (.boundMethod inst f.2)) functions bound

/-- A member that is no function is passed over. -/
theorem bindOwn_other (ho : s.heap.Has v o) (hv : s.heap.namesFunction v = false) (name : String)
    (init? : Option Handle) : bindOwn inst init? (name, v) s = .ok init? s := by
  rw [bindOwn, ask_bind_of_ok (Heap.isFunction_eq ho.2), hv]
  rfl

theorem Binds.later {s₁ : Space} {fs bound : List (String × Handle)} (b : Binds inst s₁ s' fs bound)
    (k : Heap.Kept s.heap s₁.heap) (k' : Heap.Kept s₁.heap s'.heap) : Binds inst s s' fs bound :=
  List.Forall₂.imp (fun _ _ h => ⟨h.1, k.new k' h.2.1 h.2.2, h.2.2⟩) b

theorem Binds.exists_of_mem {fs bound : List (String × Handle)} (b : Binds inst s s' fs bound)
    {m : String × Handle} (hm : m ∈ bound) : ∃ f ∈ fs, m.1 = f.1 ∧ s.heap.get? m.2 = none ∧
      s'.heap.Has m.2 (.boundMethod inst f.2) := by
  induction b with
  | nil => cases hm
  | cons h _ ih =>
    rcases List.mem_cons.1 hm with rfl | hm
    · exact ⟨_, List.mem_cons_self, h⟩
    · obtain ⟨f, hf, hm⟩ := ih hm
      exact ⟨f, List.mem_cons_of_mem _ hf, hm⟩

theorem Binds.fresh {fs bound : List (String × Handle)} (b : Binds inst s s' fs bound) {m : Handle}
    (hm : s.heap.Has m o) : m ∉ bound.map (·.2) := by
  intro hmem
  obtain ⟨e, he, rfl⟩ := List.mem_map.1 hmem
  obtain ⟨_, -, -, hnone, -⟩ := b.exists_of_mem he
  rw [hm.2] at hnone
  cases hnone

/-- **Binding the members** of a class gives an instance a method for each function, under names of
their own. -/
theorem bindMembers_frame (l : List (String × Handle)) (i : s.Steady)
    (hv : s.heap.Has inst (.userInstance cls attributes))
    (hl : ∀ m ∈ l, s.heap.isLive m.2 = true)
    (hnames : ((attributes.entries ++ l).map (·.1)).Nodup)
    (hinit : ∀ m ∈ l, m.1 = "__init__" → s.heap.namesFunction m.2 = false) :
    ∃ bound s', l.foldlM (bindOwn inst) none s = .ok none s' ∧ Frame [inst] s s' ∧
      s'.heap.Has inst (.userInstance cls ⟨attributes.entries ++ bound⟩) ∧
      Binds inst s s' (s.heap.functions l) bound ∧ (bound.map (·.2)).Nodup := by
  induction l generalizing s attributes with
  | nil =>
    refine ⟨[], s, rfl, .refl i, ?_, .nil, List.nodup_nil⟩
    rw [List.append_nil]
    exact hv
  | cons e rest ih =>
    obtain ⟨name, f⟩ := e
    obtain ⟨hf, hrest⟩ := List.forall_mem_cons.1 hl
    obtain ⟨hinitf, hinit⟩ := List.forall_mem_cons.1 hinit
    obtain ⟨o, ho⟩ := i.has_of_live hf
    cases hfun : s.heap.namesFunction f with
    | false =>
      have hnames : ((attributes.entries ++ rest).map (·.1)).Nodup :=
        hnames.sublist (((List.sublist_cons_self _ rest).append_left _).map _)
      obtain ⟨bound, s', hs', fr, hv', hbinds, hdistinct⟩ := ih i hv hrest hnames hinit
      refine ⟨bound, s', ?_, fr, hv', ?_, hdistinct⟩
      · rw [List.foldlM_cons, bind_of_ok (bindOwn_other ho hfun name none), hs']
      · rwa [Heap.functions, List.filter_cons_of_neg (by simp [hfun])]
    | true =>
      obtain ⟨label, entry, rfl⟩ :=
        Object.exists_of_isFunction ((Heap.namesFunction_eq ho.2).symm.trans hfun)
      have hne : name ≠ "__init__" := fun h => by
        rw [hinitf h] at hfun
        cases hfun
      obtain ⟨m, s₁, h₁, hnew, f₁, hv₁, hm⟩ := bindOwn_frame i hv ho name none
      rw [if_neg hne] at h₁
      -- the name has no method yet
      have hfree : name ∉ attributes.entries.map (·.1) := by
        intro hmem
        rw [List.map_append, List.map_cons] at hnames
        exact (List.nodup_append.1 hnames).2.2 _ hmem _ List.mem_cons_self rfl
      rw [Bindings.set_new m hfree] at hv₁
      have hsame : ∀ e ∈ rest, s₁.heap.namesFunction e.2 = s.heap.namesFunction e.2 :=
        fun e he => f₁.namesFunction_eq i (hrest e he)
      obtain ⟨bound, s', hs', f₂, hv', hbinds, hdistinct⟩ := ih f₁.steady hv₁
        (fun e he => f₁.live (hrest e he)) (by simpa using hnames)
        (fun e he h => (hsame e he).trans (hinit e he h))
      have hfunctions : s₁.heap.functions rest = s.heap.functions rest :=
        List.filter_congr hsame
      rw [hfunctions] at hbinds
      refine ⟨(name, m) :: bound, s', ?_, f₁.again f₂, ?_, ?_,
        List.nodup_cons.2 ⟨hbinds.fresh hm, hdistinct⟩⟩
      · rw [List.foldlM_cons, bind_of_ok h₁, hs']
      · rw [List.append_assoc] at hv'
        exact hv'
      · have hcons : s.heap.functions ((name, f) :: rest) = (name, f) :: s.heap.functions rest :=
          List.filter_cons_of_pos hfun
        rw [hcons]
        exact .cons ⟨rfl, hnew, f₂.fixed hm fun _ h => h⟩ (hbinds.later f₁.kept f₂.kept)

/-! ## Calling the class -/

/-- Keyword arguments that are none: absent, None or an empty dict. -/
inductive NoKeywords (s : Space) : Option Handle → Prop
  | absent : NoKeywords s none
  | none : NoKeywords s (some s.noneValue)
  | empty {k : Handle} {t : Table (Handle × Handle)} :
      s.heap.Has k (.dict t) → t.isEmpty = true → NoKeywords s (some k)

theorem isNone_eq (k : Handle) : isNone k s = .ok (decide (k = s.noneValue)) s := rfl

theorem presentKeywords_of_none (h : s.NoKeywords kwargs) :
    presentKeywords kwargs s = .ok none s := by
  have hnone : presentKeywords (some s.noneValue) s = .ok none s := by
    rw [presentKeywords, bind_of_ok (isNone_eq _), decide_eq_true rfl]
    rfl
  cases h with
  | absent => rfl
  | none => exact hnone
  | @empty k t hk ht =>
    by_cases he : k = s.noneValue
    · rw [he, hnone]
    · rw [presentKeywords, bind_of_ok (isNone_eq k), decide_eq_false he, if_neg (by decide),
        get_bind_of_has hk]
      simp only [ht]
      rfl

theorem presentKeywords_of_some (i : s.Steady) (hk : s.heap.isLive k = true)
    (h : ¬ s.NoKeywords (some k)) : presentKeywords (some k) s = .ok (some k) s := by
  obtain ⟨o, ho⟩ := i.has_of_live hk
  have hne : k ≠ s.noneValue := fun he => h (he ▸ .none)
  rw [presentKeywords, bind_of_ok (isNone_eq k), decide_eq_false hne, if_neg (by decide),
    get_bind_of_has ho]
  cases o with
  | dict t =>
    have ht : t.isEmpty = false := Bool.eq_false_iff.2 fun ht => h (.empty ho ht)
    simp only [ht]
    rfl
  | _ => rfl

theorem presentKeywords_eq (i : s.Steady)
    (hk : ∀ k, kwargs = some k → s.heap.isLive k = true) :
    ∃ present, presentKeywords kwargs s = .ok present s ∧
      (s.NoKeywords kwargs ↔ present = none) := by
  by_cases h : s.NoKeywords kwargs
  · exact ⟨none, presentKeywords_of_none h, iff_of_true h rfl⟩
  · cases kwargs with
    | none => exact absurd .absent h
    | some k => exact ⟨some k, presentKeywords_of_some i (hk k rfl) h, iff_of_false h nofun⟩

/-- What a call of a class makes: a new instance that has the methods for its functions. -/
structure Constructed (cls : Handle) (members : Bindings) (s s' : Space) (inst : Handle)
    (attributes : Bindings) : Prop where
  new : s.heap.get? inst = none
  frame : Frame [] s s'
  has : s'.heap.Has inst (.userInstance cls attributes)
  methods : Binds inst s s' (s.heap.functions members.entries) attributes.entries
  distinct : attributes.handles.Nodup

/-- A class whose `__init__` is no function makes an instance, if it is not given arguments. -/
theorem instantiate_frame (i : s.Steady) (hcls : s.heap.Has cls (.userClass label members))
    (honce : members.Once)
    (hinit : ∀ f, members.get? "__init__" = some f → s.heap.namesFunction f = false) :
    ∃ inst attributes s', Constructed cls members s s' inst attributes ∧
      ∀ code ctx args kwargs, instantiate code ctx cls label members args kwargs s =
        ((do
          let given := (← Heap.arguments args).size
          if 0 < given then fatal (.argumentCount label 0 0 given)
          if kwargs.isSome then fatal (.noKeywordArguments label)
          return inst) : Action Handle) s' := by
  obtain ⟨inst, s₁, h₁, f₁, hinst⟩ := alloc_frame i (o := .userInstance cls {}) rfl
    (by simp [Object.children, Bindings.handles, hcls.1]) nofun
  have hnew := alloc_new i h₁
  have hlive : ∀ m ∈ members.entries, s.heap.isLive m.2 = true := fun m hm =>
    i.children hcls m.2 (List.mem_map_of_mem hm)
  have hsame : ∀ m ∈ members.entries,
      s₁.heap.namesFunction m.2 = s.heap.namesFunction m.2 :=
    fun m hm => f₁.namesFunction_eq i (hlive m hm)
  have hinit₁ : ∀ m ∈ members.entries, m.1 = "__init__" →
      s₁.heap.namesFunction m.2 = false := by
    intro m hm hname
    rw [hsame m hm]
    exact hinit m.2 (honce.get?_eq_some.2 (hname ▸ hm))
  obtain ⟨bound, s', hs', f₂, hinst', hbinds, hdistinct⟩ := bindMembers_frame members.entries
    f₁.steady hinst (fun m hm => f₁.live (hlive m hm)) honce hinit₁
  have hfunctions : s₁.heap.functions members.entries = s.heap.functions members.entries :=
    List.filter_congr hsame
  rw [hfunctions] at hbinds
  refine ⟨inst, ⟨bound⟩, s', ⟨hnew, ?_, hinst', hbinds.later f₁.kept f₂.kept, hdistinct⟩, ?_⟩
  · -- only the instance was written to, and it is new
    refine (f₁.trans f₂).of_new fun v hv => ?_
    obtain rfl : v = inst := by simpa using hv
    exact hnew
  · intro code ctx args kwargs
    rw [instantiate, bind_of_ok h₁, bindMembers_eq, bind_of_ok hs']

theorem call_class {present : Option Handle} (hcls : s.heap.Has cls (.userClass label members))
    (hpresent : presentKeywords kwargs s = .ok present s) (code : Code) (ctx : Handle) :
    call code ctx cls args kwargs s = instantiate code ctx cls label members args present s := by
  rw [call, bind_of_ok hpresent, get_bind_of_has hcls]

/-! ## Afterwards -/

/-- What a live object refers to all the time is kept live by it. -/
theorem LeadsWithout.child {c : Handle} (l : LeadsWithout banned v s s')
    (r : LiveRun settings disk s)
    (hc : ∀ s', LeadsWithout banned v s s' → Held v (fun o => c ∈ o.children) s') :
    Leads c s s' := by
  induction l with
  | refl => exact .refl
  | @turn s' t l hban ht hv ih =>
    have l' : LeadsWithout banned v s (t.leave s') := .turn t l hban ht hv
    obtain ⟨-, o, ho, hmem⟩ := hc _ l'
    exact .turn t ih ht ((steady_of_liveRun (l'.run r)).children ho c hmem)

theorem Leads.has (l : Leads v s s') (r : LiveRun settings disk s) (ho : s.heap.Has v o) :
    ∃ o', s'.heap.Has v o' ∧ o.Evolves o' :=
  l.evolved r ho.1 .refl ho.2

/-- An instance stays as it is until an attribute of it is set. -/
theorem LeadsWithout.untouched
    (l : LeadsWithout (fun op => ∃ name w, op = .setAttribute v name w) v s s')
    (hr : s.heap.Roomy) (hv : s.heap.Has v (.userInstance cls attributes)) :
    Held v (fun o => o = .userInstance cls attributes) s' := by
  refine l.held (fun o ho => ho ▸ trivial) (fun name w hban => ?_) ⟨hr, _, hv, rfl⟩
  exact absurd ⟨name, w, rfl⟩ hban

theorem LeadsWithout.leads_child {g : Handle}
    (l : LeadsWithout (fun op => ∃ name w, op = .setAttribute v name w) v s s')
    (r : LiveRun settings disk s) (hv : s.heap.Has v (.userInstance cls attributes))
    (hg : g ∈ (Object.userInstance cls attributes).children) : Leads g s s' := by
  refine l.child r fun s₂ l₂ => ?_
  obtain ⟨hr, o, ho, rfl⟩ := l₂.untouched (steady_of_liveRun r).roomy hv
  exact ⟨hr, _, ho, hg⟩

/-- Under a name a value has what its class has for it, bound to the value if it is a function. -/
def ShowsMember (s : Space) (v : Handle) (label name : String) : Option Handle → Prop
  | some f =>
    (s.heap.namesFunction f = true → s.Makes (getAttribute v name) (.boundMethod v f)) ∧
      (s.heap.namesFunction f = false → getAttribute v name s = .ok f s)
  | none => getAttribute v name s = .error (.fatal (.unknownAttribute label name)) s

theorem shows_member (i : s.Steady) (hv : s.heap.Has v (.userInstance cls attributes))
    (hcls : s.heap.Has cls (.userClass label members)) (hname : name ≠ "__class__")
    (hown : attributes.get? name = none) : s.ShowsMember v label name (members.get? name) := by
  have hread : getAttribute v name s =
      found v name (bindMember v) (members.get? name) s := by
    rw [getAttribute_eq hname, get_bind_of_has hv]
    simp only [attributeOf, hown]
    rw [inherited, get_bind_of_has hcls]
  cases hmember : members.get? name with
  | none =>
    rw [hmember] at hread
    have htype : Heap.typeName v s.heap = .ok label := by
      rw [Heap.typeName, Heap.bind_of_ok (Heap.get_eq_ok.2 hv.2)]
      dsimp only
      rw [Heap.bind_of_ok (Heap.get_eq_ok.2 hcls.2)]
      rfl
    refine hread.trans (ask_of_error ?_)
    rw [Heap.unknownAttribute, Heap.bind_of_ok htype]
    rfl
  | some f =>
    rw [hmember] at hread
    have hf : s.heap.isLive f = true :=
      i.children hcls f (Trust.mem_handles_of_get? hmember)
    obtain ⟨o, ho⟩ := i.has_of_live hf
    have hbind : bindMember v f s =
        (if s.heap.namesFunction f then newBoundMethod v f else pure f) s := by
      rw [bindMember, ask_bind_of_ok (Heap.isFunction_eq ho.2)]
    constructor
    · intro hfun
      rw [hfun] at hbind
      have hm : s.Makes (newBoundMethod v f) (.boundMethod v f) :=
        makes_alloc i trivial (by simp [Object.children, hv.1, hf])
          (by rintro ⟨x, w, hx, -⟩; cases hx)
      exact hm.of_eq (hread.trans hbind)
    · intro hfun
      rw [hfun] at hbind
      exact hread.trans hbind

theorem Constructed.shows {s₂ : Space} (c : Constructed cls members s s' v attributes)
    (r' : LiveRun settings disk s') (hcls : s.heap.Has cls (.userClass label members))
    (honce : members.Once)
    (l : LeadsWithout (fun op => ∃ name w, op = .setAttribute v name w) v s' s₂)
    (hname : name ≠ "__class__") :
    (∀ m, attributes.get? name = some m → getAttribute v name s₂ = .ok m s₂ ∧
      ∃ f, members.get? name = some f ∧ s₂.heap.Has m (.boundMethod v f)) ∧
    (attributes.get? name = none → ∃ members', s₂.heap.Has cls (.userClass label members') ∧
      s₂.ShowsMember v label name (members'.get? name)) := by
  have hchild : ∀ g ∈ (Object.userInstance cls attributes).children, Leads g s' s₂ :=
    fun g hg => l.leads_child r' c.has hg
  obtain ⟨-, _, hv₂, rfl⟩ := l.untouched c.frame.steady.roomy c.has
  constructor
  · intro m hm
    refine ⟨getAttribute_own hv₂ hname hm, ?_⟩
    obtain ⟨f, hf, hfname, -, hbound⟩ := c.methods.exists_of_mem (Trust.mem_of_lookup hm)
    have hlive := hchild m (List.mem_cons_of_mem _ (Trust.mem_handles_of_get? hm))
    obtain ⟨o, ho, he⟩ := hlive.has r' hbound
    obtain rfl : o = .boundMethod v f.2 := he
    obtain rfl : name = f.1 := hfname
    exact ⟨f.2, honce.get?_eq_some.2 (List.mem_filter.1 hf).1, ho⟩
  · intro hown
    obtain ⟨o, ho, he⟩ := (hchild cls List.mem_cons_self).has r' (c.frame.keep hcls)
    cases o with
    | userClass label' members' =>
      obtain rfl : label' = label := he
      exact ⟨members', ho, shows_member (steady_of_liveRun (l.run r')) hv₂ ho hname hown⟩
    | _ => cases he

theorem call_run (r : LiveRun settings disk s) (hcls : s.heap.isLive cls = true)
    (hargs : s.heap.isLive args = true)
    (hkwargs : ∀ k, kwargs = some k → s.heap.isLive k = true)
    (h : call noCode s.noneValue cls args kwargs s = .ok v s') : LiveRun settings disk s' := by
  refine r.after (.call s.noneValue cls args kwargs) rfl (fun g hg => ?_) h
  have hnone := (steady_of_liveRun r).nothing.1
  have hg : ((g = s.noneValue ∨ g = cls) ∨ g = args) ∨ kwargs = some g := by
    simpa [Operation.handles, or_assoc] using hg
  rcases hg with ((rfl | rfl) | rfl) | hg
  · exact hnone
  · exact hcls
  · exact hargs
  · exact hkwargs g hg

end Space

open Space

variable {settings : Settings} {disk : Disk} {s : Space} {cls args : Handle}
  {kwargs : Option Handle} {members : Bindings} {label : String} {pack : Object}
  {items : Array Handle}

/-- **Instances of a class.** A class whose `__init__` is not a function makes a new instance that
has a method of its own for every function among the members. Until an attribute of the instance is
set it gives these under their names, and under other names it gives what the class has then. With
arguments the call fails. -/
theorem class_instances (r : LiveRun settings disk s)
    (hcls : s.heap.Has cls (.userClass label members))
    (hinit : ∀ f, members.get? "__init__" = some f → s.heap.namesFunction f = false)
    (hargs : s.heap.Has args pack) (hitems : pack.asSequence? = some items)
    (hkwargs : ∀ k, kwargs = some k → s.heap.isLive k = true) :
    (items = #[] → s.NoKeywords kwargs → ∃ inst attributes s',
      (∀ code ctx, call code ctx cls args kwargs s = .ok inst s') ∧
      Constructed cls members s s' inst attributes ∧
      ∀ s₂, LeadsWithout (fun op => ∃ name w, op = .setAttribute inst name w) inst s' s₂ →
        ∀ name, name ≠ "__class__" →
          (∀ m, attributes.get? name = some m → getAttribute inst name s₂ = .ok m s₂ ∧
            ∃ f, members.get? name = some f ∧ s₂.heap.Has m (.boundMethod inst f)) ∧
          (attributes.get? name = none → ∃ members', s₂.heap.Has cls (.userClass label members') ∧
            s₂.ShowsMember inst label name (members'.get? name))) ∧
    (items ≠ #[] → ∃ s', Space.Frame [] s s' ∧ ∀ code ctx, call code ctx cls args kwargs s =
      .error (.fatal (.argumentCount label 0 0 items.size)) s') ∧
    (items = #[] → ¬ s.NoKeywords kwargs → ∃ s', Space.Frame [] s s' ∧
      ∀ code ctx, call code ctx cls args kwargs s =
        .error (.fatal (.noKeywordArguments label)) s') := by
  have i := steady_of_liveRun r
  have honce := r.members_once hcls.2
  obtain ⟨inst, attributes, s', c, hinst⟩ := instantiate_frame i hcls honce hinit
  obtain ⟨present, hpresent, hnone⟩ := presentKeywords_eq i hkwargs
  have hgiven := arguments_eq (c.frame.keep hargs) hitems
  have hcall : ∀ code ctx, call code ctx cls args kwargs s = ((do
      if 0 < items.size then fatal (.argumentCount label 0 0 items.size)
      if present.isSome then fatal (.noKeywordArguments label)
      return inst) : Action Handle) s' := by
    intro code ctx
    rw [call_class hcls hpresent, hinst, ask_bind_of_ok hgiven]
  refine ⟨fun hempty hno => ?_, fun hne => ⟨s', c.frame, fun code ctx => ?_⟩,
    fun hempty hsome => ⟨s', c.frame, fun code ctx => ?_⟩⟩
  · obtain rfl := hnone.1 hno
    subst hempty
    have r' := call_run r hcls.1 hargs.1 hkwargs (hcall noCode s.noneValue)
    exact ⟨inst, attributes, s', hcall, c, fun s₂ l name => c.shows r' hcls honce l⟩
  · rw [hcall, if_pos (Array.size_pos_iff.2 hne)]
    rfl
  · subst hempty
    have hsome : present.isSome = true := by
      rw [Option.isSome_iff_ne_none]
      exact mt hnone.2 hsome
    rw [hcall, hsome]
    rfl

/-- A class with a function `f` and an integer `x` is called: the instance has a method of its own
under `f`, and shows the integer of the class under `x`. -/
theorem class_instances_two :
    ∃ s cls args f five inst s' m,
      s.heap.Has cls (.userClass "A" (.ofList [("f", f), ("x", five)])) ∧
      s.heap.Has args (.tuple #[]) ∧ call noCode s.noneValue cls args none s = .ok inst s' ∧
      getAttribute inst "f" s' = .ok m s' ∧ s'.heap.Has m (.boundMethod inst f) ∧
      getAttribute inst "x" s' = .ok five s' := by
  obtain ⟨s₀, h₀⟩ := create_ok {} rfl {}
  have hplain : ¬ (Object.function "f" (.compiled 0)).Writes := by
    rintro ⟨x, w, hx, -⟩
    cases hx
  obtain ⟨f, s₁, r₁, f₁, hf⟩ := (LiveRun.start h₀).making (.newFunction "f" 0) rfl
    (List.forall_mem_nil _)
    (makes_alloc (create_steady h₀) trivial (List.forall_mem_nil _) hplain)
  obtain ⟨five, s₂, r₂, f₂, hfive⟩ := r₁.newInt 5
  have hf := f₂.keep hf
  obtain ⟨cls, s₃, r₃, f₃, hcls⟩ := r₂.newClass "A" [("f", f), ("x", five)]
    (by simp [hf.1, hfive.1])
  obtain ⟨args, s, r, f₄, hargs⟩ := r₃.making (.newTuple #[]) rfl (List.forall_mem_nil _)
    (makes_newTuple (steady_of_liveRun r₃) (List.forall_mem_nil _))
  have hf := f₄.keep (f₃.keep hf)
  have hfive := f₄.keep (f₃.keep hfive)
  have hcls := f₄.keep hcls
  have hentries : Bindings.ofList [("f", f), ("x", five)] = ⟨[("f", f), ("x", five)]⟩ := by
    simp [Bindings.ofList, Bindings.set, Bindings.setIn]
  have hclass := hcls
  rw [hentries] at hclass
  have hkwargs : ∀ k : Handle, none = some k → s.heap.isLive k = true := by
    intro k hk
    cases hk
  obtain ⟨inst, attributes, s', hcall, c, hafter⟩ := (class_instances r hclass
    (by simp [Bindings.get?, List.lookup_cons]) hargs rfl hkwargs).1 rfl .absent
  have hfunctions : s.heap.functions [("f", f), ("x", five)] = [("f", f)] := by
    simp [Heap.functions, Heap.namesFunction_eq hf.2, Heap.namesFunction_eq hfive.2,
      Object.isFunction]
  obtain ⟨m, rfl⟩ : ∃ m, attributes = ⟨[("f", m)]⟩ := by
    have hmethods := c.methods
    rw [hfunctions] at hmethods
    obtain ⟨entries⟩ := attributes
    cases hmethods with
    | @cons _ e _ _ h hnil =>
      cases hnil
      obtain ⟨name, m⟩ := e
      exact ⟨m, by rw [show name = "f" from h.1]⟩
  obtain ⟨hread, g, hg, hm⟩ := (hafter s' .refl "f" (by decide)).1 m
    (by simp [Bindings.get?])
  obtain ⟨members', hcls', hx⟩ := (hafter s' .refl "x" (by decide)).2
    (by simp [Bindings.get?, List.lookup_cons])
  obtain ⟨-, rfl⟩ := Object.userClass.inj (hcls'.unique (c.frame.keep hclass))
  obtain rfl : f = g := by simpa [Bindings.get?, List.lookup_cons] using hg
  have hfive' := c.frame.keep hfive
  exact ⟨s, cls, args, f, five, inst, s', m, hcls, hargs, hcall _ _, hread, hm,
    hx.2 (Heap.namesFunction_eq hfive'.2)⟩

end ObjectSpace

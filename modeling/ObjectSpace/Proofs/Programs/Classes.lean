import ObjectSpace.Proofs.Execution.Hooks
import ObjectSpace.Proofs.Execution.Instances
import ObjectSpace.Proofs.Programs.Outcome

/-!
# The counter

The classes program makes a counter, an instance of a class of its own, and bumps it twice. Within
`bump` the hook runs in the context of the method; that context keeps the counter in a slot and the
module context as its parent, so nothing that the program goes on with is lost (`bump_frame`).
-/

namespace ObjectSpace.Program

open Space

variable {hook : Hook} {s s' : Space} {ctx here v w : Handle} {c : Context}
  {attributes : Bindings} {n k : Int64} {o : Object}

/-- A value is a counter with the given attributes. -/
structure Counter (heap : Heap) (v : Handle) (attributes : Bindings) : Prop where
  cls : ∃ cls members, heap.Has v (.userInstance cls attributes) ∧
    heap.Has cls (.userClass "Counter" members)
  bump : ∃ m f, attributes.get? "bump" = some m ∧ heap.Has m (.boundMethod v f) ∧
    heap.Has f (.function "bump" (.compiled 1))

/-- A value is a counter at the number `n`. -/
def CounterAt (heap : Heap) (v : Handle) (n : Int64) : Prop :=
  ∃ attributes w, Counter heap v attributes ∧ attributes.get? "n" = some w ∧ heap.Has w (.int n)

namespace Counter

theorem mem_children {cls w : Handle} {name : String} (h : attributes.get? name = some w) :
    w ∈ (Object.userInstance cls attributes).children :=
  List.mem_cons_of_mem _ (List.mem_map_of_mem (f := (·.2)) (Trust.mem_of_lookup h))

/-- A counter stays as it is where no instance and no class is touched. -/
theorem other (h : Counter s.heap v attributes) (f : Space.Frame [w] s s') (hw : s.heap.Has w o)
    (hinst : ∀ cls b, o ≠ .userInstance cls b) (hcls : ∀ label b, o ≠ .userClass label b) :
    Counter s'.heap v attributes := by
  obtain ⟨⟨cls, members, hv, hc⟩, m, g, hm, hm', hg⟩ := h
  exact ⟨⟨cls, members, f.other hw hv (hinst _ _).symm, f.other hw hc (hcls _ _).symm⟩,
    m, g, hm, f.fixed hm' fun _ h => h, f.fixed hg fun _ h => h⟩

theorem frame (h : Counter s.heap v attributes) (f : Space.Frame [] s s') :
    Counter s'.heap v attributes := by
  obtain ⟨⟨cls, members, hv, hc⟩, m, g, hm, hm', hg⟩ := h
  exact ⟨⟨cls, members, f.keep hv, f.keep hc⟩, m, g, hm, f.keep hm', f.keep hg⟩

/-- A counter that can be reached outlives a hook. -/
theorem spared (h : Counter s.heap v attributes) (p : Spared here s s')
    (r : s.heap.Reaches (s.roots here none) v) : Counter s'.heap v attributes := by
  obtain ⟨⟨cls, members, hv, hc⟩, m, g, hm, hm', hg⟩ := h
  have rm := r.child hv.2 (mem_children hm)
  have rg := rm.child hm'.2 (List.mem_cons_of_mem _ List.mem_cons_self)
  exact ⟨⟨cls, members, p.has v _ r hv, p.has cls _ (r.child hv.2 List.mem_cons_self) hc⟩,
    m, g, hm, p.has m _ rm hm', p.has g _ rg hg⟩

/-- A counter whose number is set is a counter. -/
theorem set (h : Counter s.heap v attributes) {cls : Handle} (f : Space.Frame [v] s s')
    (hv : s.heap.Has v (.userInstance cls attributes))
    (hv' : s'.heap.Has v (.userInstance cls (attributes.set "n" w))) :
    Counter s'.heap v (attributes.set "n" w) := by
  obtain ⟨⟨cls', members, hv₀, hc⟩, m, g, hm, hm', hg⟩ := h
  obtain rfl : cls = cls' := by simpa [hv.2] using hv₀.2
  refine ⟨⟨cls, members, hv', f.other hv hc nofun⟩, m, g, ?_, f.fixed hm' fun _ h => h,
    f.fixed hg fun _ h => h⟩
  rw [Bindings.get?_set, if_neg (by decide), hm]

end Counter

/-- Bumping a counter gives the next number. -/
theorem bump_frame (hh : hook.Safe) (i : s.Steady) (md : Module s ctx c)
    (h : CounterAt s.heap v n) (hk : Integer.binary? .add n 1 = some (.ok k)) :
    ∃ r s', callMethod (counterCode hook) ctx v "bump" [] s = .ok r s' ∧ s'.Steady ∧
      Module s' ctx c ∧ CounterAt s'.heap v k ∧ s'.heap.Has r (.int k) ∧
      s'.output = s.output := by
  obtain ⟨attributes, w, hcounter, hw, hn⟩ := h
  obtain ⟨⟨cls, members, hv, hcls⟩, m, f, hm, hm', hf⟩ := id hcounter
  have hnone : ∀ a ∈ ([] : List Handle), s.heap.isLive a = true := List.forall_mem_nil _
  obtain ⟨g, pack, s₁, h₁, f₁, hpack⟩ := callBound_frame (counterCode hook) ctx i hm' hf hnone
  obtain ⟨inner, s₂, h₂, hnew, f₂, hinner⟩ := newContext_frame f₁.steady (f₁.live md.has.1) 1
  obtain ⟨s₃, h₃, f₃, hinner₃⟩ := store_frame f₂.steady hinner 0 (f₂.live (f₁.live hv.1))
  -- storing in the new context changes nothing that there was
  have f₁₃ := f₁.again ((f₂.trans f₃).of_new (List.forall_mem_singleton.2 hnew))
  have hload := load_eq hinner₃ (Context.getElem?_put_self _ 0 v)
  have hv₃ := f₁₃.keep hv
  obtain ⟨one, s₄, h₄, f₄, hone, -⟩ := internInt_frame f₁₃.steady 1
  obtain ⟨bumped, s₅, h₅, f₅, hbumped⟩ :=
    binary_frame f₄.steady (f₄.keep (f₁₃.keep hn)) hone hk
  have f₁₅ := (f₁₃.again f₄).again f₅
  have hv₅ := f₁₅.keep hv
  obtain ⟨s₆, h₆, f₆, hv₆⟩ := setAttribute_frame f₁₅.steady hv₅ "n" (by decide) hbumped.1
  have hinner₆ := f₆.other hv₅ (f₅.keep (f₄.keep hinner₃)) nofun
  have hcounter₆ := (hcounter.frame f₁₅).set f₆ hv₅ hv₆
  have hbumped₆ : s₆.heap.Has bumped (.int k) := f₆.fixed hbumped fun _ h => h
  have md₆ := (md.frame f₁₅).other f₆ hv₅ nofun
  obtain ⟨s₇, h₇, p⟩ := hh inner s₆ f₆.steady hinner₆.1
  have hset : (attributes.set "n" bumped).get? "n" = some bumped := by
    rw [Bindings.get?_set, if_pos rfl]
  have rv : s₆.heap.Reaches (s₆.roots inner none) v :=
    reaches_slot reaches_here hinner₆ (Context.getElem?_put_self _ 0 v)
  have rctx : s₆.heap.Reaches (s₆.roots inner none) ctx :=
    .child reaches_here hinner₆.2 (by simp [Object.children, Context.children])
  have hbumped₇ := p.has bumped _ (rv.child hv₆.2 (Counter.mem_children hset)) hbumped₆
  refine ⟨bumped, s₇, ?_, p.steady, p.module md₆ rctx,
    ⟨_, bumped, hcounter₆.spared p rv, hset, hbumped₇⟩, hbumped₇, ?_⟩
  · rw [callMethod, bind_of_ok (getAttribute_own hv (by decide) hm), h₁]
    show counterBump hook _ s₁ = _
    rw [counterBump, bind_of_ok h₂, ask_bind_of_ok (arguments_eq (f₂.keep hpack) rfl)]
    show (store inner 0 v >>= _) s₂ = _
    rw [bind_of_ok h₃, ask_bind_of_ok hload, bind_of_ok (getAttribute_own hv₃ (by decide) hw),
      bind_of_ok h₄, bind_of_ok h₅, bind_of_ok h₆, bind_of_ok h₇,
      getAttribute_own (p.has v _ rv hv₆) (by decide) hset]
  · rw [p.output, f₆.output, f₁₅.output]

/-- `__init__` gives a counter its number. -/
theorem init_frame (hook : Hook) (g : Handle) (i : s.Steady) (hctx : s.heap.isLive ctx = true)
    {cls ten pack : Handle}
    (hv : s.heap.Has v (.userInstance cls attributes)) (hten : s.heap.isLive ten = true)
    (hpack : s.heap.Has pack (.tuple #[v, ten])) :
    ∃ r s', counterCode hook 0 { globals := g, caller := ctx, args := pack, kwargs := none } s =
        .ok r s' ∧ Space.Frame [v] s s' ∧
      s'.heap.Has v (.userInstance cls (attributes.set "n" ten)) := by
  obtain ⟨inner, s₁, h₁, hnew, f₁, hinner⟩ := newContext_frame i hctx 2
  obtain ⟨s₂, h₂, f₂, hinner₂⟩ := store_frame f₁.steady hinner 0 (f₁.live hv.1)
  obtain ⟨s₃, h₃, f₃, hinner₃⟩ := store_frame f₂.steady hinner₂ 1 (f₂.live (f₁.live hten))
  -- storing in the new context changes nothing that there was
  have f₁₃ : Space.Frame [] s s₃ := by
    refine ((f₁.trans f₂).trans f₃).of_new ?_
    simpa using hnew
  have hload₁ : Heap.load inner 1 s₃.heap = .ok ten :=
    load_eq hinner₃ (Context.getElem?_put_self _ 1 ten)
  have hload₀ : Heap.load inner 0 s₃.heap = .ok v := by
    refine load_eq hinner₃ ?_
    rw [Context.getElem?_put_of_ne _ _ _ (by decide) (by simp [Context.put])]
    exact Context.getElem?_put_self _ 0 v
  obtain ⟨s₄, h₄, f₄, hv₄⟩ :=
    setAttribute_frame f₁₃.steady (f₁₃.keep hv) "n" (by decide) (f₁₃.live hten)
  refine ⟨s₄.noneValue, s₄, ?_, (f₁₃.trans f₄).mono (by simp), hv₄⟩
  show counterInit _ s = _
  rw [counterInit, bind_of_ok h₁, ask_bind_of_ok (arguments_eq (f₁.keep hpack) rfl)]
  show (store inner 0 v >>= fun _ => store inner 1 ten >>= _) s₁ = _
  rw [bind_of_ok h₂, bind_of_ok h₃, ask_bind_of_ok hload₀, ask_bind_of_ok hload₁, bind_of_ok h₄]
  rfl

/-- Calling the class gives a new counter at the number. -/
theorem counter_frame (hook : Hook) (i : s.Steady) (hctx : s.heap.isLive ctx = true)
    {init bump cls ten : Handle}
    (hinit : s.heap.Has init (.function "__init__" (.compiled 0)))
    (hbump : s.heap.Has bump (.function "bump" (.compiled 1)))
    (hcls : s.heap.Has cls
      (.userClass "Counter" (Bindings.ofList [("__init__", init), ("bump", bump)])))
    (hten : s.heap.Has ten (.int n)) :
    ∃ v s', callWith (counterCode hook) ctx cls [ten] s = .ok v s' ∧ Space.Frame [] s s' ∧
      CounterAt s'.heap v n := by
  obtain ⟨pack, s₁, h₁, f₁, hpack⟩ := pack_frame i (List.forall_mem_singleton.2 hten.1)
  obtain ⟨v, s₂, h₂, f₂, hv⟩ := alloc_frame f₁.steady (o := .userInstance cls {}) rfl
    (List.forall_mem_singleton.2 (f₁.live hcls.1)) nofun
  have f₁₂ := f₁.again f₂
  have hnew := alloc_new f₁.steady h₂
  obtain ⟨m, s₃, h₃, f₃, hv₃, -⟩ := bindMembers_cons f₁₂.steady hv (f₁₂.keep hinit) "__init__"
    [("bump", bump)] none
  have hbump₃ : s₃.heap.Has bump (.function "bump" (.compiled 1)) :=
    f₃.fixed (f₁₂.keep hbump) fun _ h => h
  obtain ⟨m', s₄, h₄, f₄, hv₄, hm'⟩ := bindMembers_cons f₃.steady hv₃ hbump₃ "bump" [] (some init)
  have f₂₄ := f₃.again f₄
  have hbind : bindMembers v [("__init__", init), ("bump", bump)] s₂ = .ok (some init) s₄ := by
    rw [bindMembers_eq, h₃, if_pos rfl, h₄, if_neg (by decide)]
    rfl
  have hinit₄ : s₄.heap.Has init (.function "__init__" (.compiled 0)) :=
    f₂₄.fixed (f₁₂.keep hinit) fun _ h => h
  have hpack₄ : s₄.heap.Has pack (.tuple #[ten]) := f₂₄.fixed (f₂.keep hpack) fun _ h => h
  obtain ⟨g, pack', s₅, h₅, f₅, hpack'⟩ := callCompiled_frame (counterCode hook) ctx
    "__init__" 0 f₄.steady hv₄.1 hpack₄
  have f₂₅ := f₂₄.trans f₅
  obtain ⟨r, s₆, h₆, f₆, hv₆⟩ := init_frame hook g f₅.steady
    (f₂₅.live (f₁₂.live hctx)) (f₅.keep hv₄) (f₂₅.live (f₁₂.live hten.1)) hpack'
  -- the only object that was changed is the new instance
  have f : Space.Frame [] s s₆ := by
    refine f₁.again (((f₂.trans f₂₅).trans f₆).of_new ?_)
    simpa using hnew
  refine ⟨v, s₆, ?_, f, _, ten, ⟨⟨cls, _, hv₆, f.keep hcls⟩, m', bump, ?_, ?_, f.keep hbump⟩, ?_,
    f.keep hten⟩
  · rw [callWith, bind_of_ok h₁, call, bind_of_ok presentKeywords_none,
      get_bind_of_has (f₁.keep hcls)]
    show instantiate _ ctx cls "Counter" _ pack none s₁ = _
    rw [instantiate, bind_of_ok h₂]
    show (bindMembers v [("__init__", init), ("bump", bump)] >>= _) s₂ = _
    rw [bind_of_ok hbind]
    dsimp only
    rw [bind_of_ok presentKeywords_none, get_bind_of_has hinit₄]
    dsimp only
    rw [bind_of_ok (h₅.trans h₆)]
    rfl
  · simp [Bindings.get?_set]
  · exact (f₅.trans f₆).fixed hm' fun _ h => h
  · simp [Bindings.get?_set]

theorem CounterAt.other (h : CounterAt s.heap v n) (f : Space.Frame [w] s s')
    (hw : s.heap.Has w (.context c)) : CounterAt s'.heap v n := by
  obtain ⟨attributes, u, hcounter, hu, hn⟩ := h
  exact ⟨attributes, u, hcounter.other f hw nofun nofun, hu, f.other hw hn nofun⟩

theorem CounterAt.spared (h : CounterAt s.heap v n) (p : Spared here s s')
    (r : s.heap.Reaches (s.roots here none) v) : CounterAt s'.heap v n := by
  obtain ⟨attributes, w, hcounter, hw, hn⟩ := h
  obtain ⟨cls, members, hv, -⟩ := hcounter.cls
  exact ⟨attributes, w, hcounter.spared p r, hw,
    p.has w _ (r.child hv.2 (Counter.mem_children hw)) hn⟩

theorem CounterAt.live (h : CounterAt s.heap v n) : s.heap.isLive v = true := by
  obtain ⟨attributes, w, hcounter, -⟩ := h
  obtain ⟨cls, members, hv, -⟩ := hcounter.cls
  exact hv.1

theorem classes_settled {moduleName : String} {disk : Disk} {argv : List String} :
    classes.Settled moduleName disk argv none "12 Counter\n" := by
  intro hook s ctx c hh st
  obtain ⟨init, s₁, h₁, f₁, hinit⟩ := alloc_frame st.steady
    (o := .function "__init__" (.compiled 0)) trivial nofun nofun
  obtain ⟨bump, s₂, h₂, f₂, hbump⟩ := alloc_frame f₁.steady
    (o := .function "bump" (.compiled 1)) trivial nofun nofun
  have hmembers : ∀ h ∈ (Bindings.ofList [("__init__", init), ("bump", bump)]).handles,
      s₂.heap.isLive h = true := by
    show ∀ h ∈ [init, bump], s₂.heap.isLive h = true
    simp [hbump.1, f₂.live hinit.1]
  obtain ⟨cls, s₃, h₃, f₃, hcls⟩ := alloc_frame f₂.steady
    (o := .userClass "Counter" (Bindings.ofList [("__init__", init), ("bump", bump)])) trivial
    hmembers nofun
  have m₃ := ((st.module.frame f₁).frame f₂).frame f₃
  obtain ⟨s₄, h₄, f₄, m₄⟩ := m₃.storeName f₃.steady "Counter" (by decide) hcls.1
  obtain ⟨ten, s₅, h₅, f₅, hten, -⟩ := internInt_frame f₄.steady 10
  have f₄₅ := (f₄.trans f₅)
  obtain ⟨v, s₆, h₆, f₆, hv⟩ := counter_frame hook f₅.steady (m₄.frame f₅).has.1
    (f₄₅.fixed (f₃.keep (f₂.keep hinit)) fun _ h => h)
    (f₄₅.fixed (f₃.keep hbump) fun _ h => h) (f₅.keep (f₄.other m₃.has hcls nofun)) hten
  have m₆ := (m₄.frame f₅).frame f₆
  obtain ⟨s₇, h₇, f₇, m₇⟩ := m₆.storeName f₆.steady "c" (by decide) hv.live
  obtain ⟨r, s₈, h₈, i₈, m₈, hv₈, -, hout₈⟩ :=
    bump_frame (k := 11) hh f₇.steady m₇ (hv.other f₇ m₆.has) (by decide)
  have hc := Context.get?_bind_self (c.bind "Counter" cls) "c" v
  obtain ⟨s₉, h₉, p⟩ := hh ctx s₈ i₈ m₈.has.1
  have m₉ := p.module m₈ reaches_here
  obtain ⟨n, s₁₀, h₁₀, i₁₀, m₁₀, hv₁₀, hn, hout₁₀⟩ :=
    bump_frame (k := 12) hh p.steady m₉ (hv₈.spared p (reaches_name reaches_here m₈.has hc))
      (by decide)
  obtain ⟨attributes, w, hcounter, -⟩ := hv₁₀
  obtain ⟨cls', members, hinst, hcls'⟩ := hcounter.cls
  obtain ⟨s₁₁, f₁₁, h₁₁⟩ := m₁₀.callType (k := .type) i₁₀ (by decide)
    (List.forall_mem_singleton.2 hinst.1)
  have htype : callName ctx "type" [v] s₁₀ = .ok cls' s₁₁ := by
    refine h₁₁.trans ?_
    show typeOf v s₁₁ = _
    rw [typeOf, get_bind_of_has (f₁₁.keep hinst)]
    rfl
  obtain ⟨name, s₁₂, h₁₂, f₁₂, hname⟩ := newStr_frame f₁₁.steady "Counter"
  have hget : getAttribute cls' "__name__" s₁₁ = .ok name s₁₂ := by
    rw [getAttribute, if_neg (by decide), get_bind_of_has (f₁₁.keep hcls')]
    exact h₁₂
  obtain ⟨s₁₃, f₁₃, h₁₃⟩ := ((m₁₀.frame f₁₁).frame f₁₂).printAll f₁₂.steady
    (.cons (.int (f₁₂.keep (f₁₁.keep hn))) (.cons (.text ⟨_, hname⟩) .nil))
  have hrun : classes.script hook ctx s = .ok () (s₁₃.say "12 Counter\n") := by
    have hinit' : newFunction "__init__" 0 s = .ok init s₁ := h₁
    have hbump' : newFunction "bump" 1 s₁ = .ok bump s₂ := h₂
    have hcls' : newClass "Counter" [("__init__", init), ("bump", bump)] s₂ = .ok cls s₃ := h₃
    show (_ >>= _ : Action Unit) s = _
    rw [bind_of_ok hinit', bind_of_ok hbump', bind_of_ok hcls', bind_of_ok h₄,
      bind_of_ok (m₄.loadName (c.get?_bind_self "Counter" cls)), bind_of_ok h₅, bind_of_ok h₆,
      bind_of_ok h₇, bind_of_ok h₈, bind_of_ok h₉, bind_of_ok (m₉.loadName hc), bind_of_ok h₁₀,
      bind_of_ok htype, bind_of_ok hget, h₁₃]
    rfl
  rw [hrun, shown_say, f₁₃.output, f₁₂.output, f₁₁.output, hout₁₀, p.output, hout₈, f₇.output,
    f₆.output, f₄₅.output, f₃.output, f₂.output, f₁.output, st.output]
  rfl

end ObjectSpace.Program

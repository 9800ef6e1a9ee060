import ObjectSpace.Proofs.Execution.Construction
import ObjectSpace.Proofs.Mirroring.Methods
import ObjectSpace.Proofs.Safety.Calls

/-!
# Two routes to a method

**Theorem (`routes_agree`).** A built-in method can be reached through a value, as an attribute that
is bound to the value, and through the type of the value, as a function that gets the value before
the other arguments. From any space of a run both routes end with the same diagnostic or the same
value, new objects being the same when they hold the same, and have the same effect on every live
object, on the disk and on the output. Keyword arguments are refused by both in the same way. A
comparison that follows a value which contains itself may have no end on either route, and then
there is nothing to compare.

A bound method for code of the program runs the code with the receiver before the arguments.

**Why.** The first route places a bound method that the second does not, and both place a tuple of
arguments, which differ by the receiver. The bound method lies in a size class of its own, so the
tuples get the same handle, and what the method places gets the same handles too. The spaces are
twins, and a method ends alike in twins.
-/

namespace ObjectSpace

open Trust

/-! ## Objects in their classes, in runs -/

theorem Object.Evolves.sizeClass_eq {o o' : Object} (h : o.Evolves o') :
    o'.sizeClass = o.sizeClass := by
  cases h.evolution <;> rfl

namespace Heap.Shelved

variable {a b : Heap}

theorem sown (hf : a.AllFresh) (hs : Heap.Sown Object.Permanent a b) : b.Shelved := by
  induction hs with
  | refl =>
    intro c i x o hx ho
    rw [hf c i x hx] at ho
    cases ho
  | place _ _ p ih => exact ih.placed p

theorem same (hs : a.Shelved) (h : Arena.SameObjects a b) : b.Shelved := by
  intro c i x o hx ho
  have he := h.cells_eq c i
  rw [hx, Option.map_some] at he
  obtain ⟨y, hy, hyx⟩ := Option.map_eq_some_iff.1 he.symm
  exact hs c i y o hy ((congrArg Prod.snd hyx).trans ho)

end Heap.Shelved

theorem Step.shelved {ok : Heap → Handle → Prop} {s s' : Space} (st : Step ok s s')
    (hs : s.heap.Shelved) : s'.heap.Shelved := by
  cases st with
  | alloc p => exact hs.placed p
  | update ho _ hch => exact hs.modify ho hch.evolves.sizeClass_eq
  | _ => exact hs

theorem LiveRun.shelved {settings : Settings} {disk : Disk} {s : Space}
    (r : LiveRun settings disk s) : s.heap.Shelved := by
  refine r.always (I := fun s => s.heap.Shelved) (fun s h => ?_) (fun _ _ _ st => st.shelved)
    fun _ _ h _ hs => hs.same h
  obtain ⟨a, -, hf, hs, -⟩ := Space.create_sown h
  exact .sown hf hs

namespace Space

/-! ## The routes -/

/-- The attribute of a value is called with arguments. -/
def throughValue (code : Code) (ctx v : Handle) (name : String) (args : List Handle)
    (kwargs : Option Handle) : Action Handle := do
  let f ← getAttribute v name
  let pack ← newTuple args.toArray
  call code ctx f pack kwargs

/-- The attribute of the type of a value is called with the value and arguments. -/
def throughType (code : Code) (ctx v : Handle) (name : String) (args : List Handle)
    (kwargs : Option Handle) : Action Handle := do
  let f ← getAttribute (← typeOf v) name
  let pack ← newTuple (v :: args).toArray
  call code ctx f pack kwargs

/-- A computation follows a value without end. -/
def Endless {α : Type} (r : EStateM.Result Halt Space α) : Prop :=
  ∃ v s, r = .error (.violation (.endless v)) s

variable {s s' s₁ s₂ t : Space} {a b f p q v ctx pack : Handle} {args items : List Handle}
  {kwargs present receiver? : Option Handle} {o x y y' : Object} {m : Method} {k : Kind}
  {name label : String} {code : Code} {n : Nat}

/-! ## Calls of methods -/

theorem presentKeywords_keep (i : s.Steady) (fr : Frame [] s s')
    (hk : ∀ k, kwargs = some k → s.heap.isLive k = true)
    (h : presentKeywords kwargs s = .ok present s) :
    presentKeywords kwargs s' = .ok present s' := by
  by_cases hno : s.NoKeywords kwargs
  · obtain ⟨rfl, -⟩ := EStateM.Result.ok.inj ((presentKeywords_of_none hno).symm.trans h)
    refine presentKeywords_of_none ?_
    cases hno with
    | absent => exact .absent
    | none => exact fr.noneValue ▸ .none
    | empty hd he => exact .empty (fr.keep hd) he
  · cases kwargs with
    | none => exact absurd .absent hno
    | some k =>
      have hlive := hk k rfl
      obtain ⟨rfl, -⟩ := EStateM.Result.ok.inj ((presentKeywords_of_some i hlive hno).symm.trans h)
      refine presentKeywords_of_some fr.steady (fr.live hlive) fun hno' => hno ?_
      obtain ⟨u, hu⟩ := i.has_of_live hlive
      cases hno' with
      | none => exact fr.noneValue ▸ .none
      | empty hd he =>
        obtain rfl := (fr.keep hu).unique hd
        exact .empty hu he

theorem callFunction_method (hp : positional receiver? pack s.heap = .ok (v :: args)) :
    callFunction code ctx name (.method m) receiver? pack present s =
      (if present.isSome then fatal (.noKeywordArguments m.qualifiedName)
        else runMethod m v args : Action Handle) s := by
  unfold callFunction
  cases present with
  | some k => rfl
  | none => exact ask_bind_of_ok hp

theorem Steady.method (i : s.Steady) (m : Method) : s.heap.Has (s.methods.get m.index)
    (.function m.qualifiedName (.method m)) := by
  have h := i.methods m.index
  rwa [show Method.all.get m.index = m from Method.all_index m] at h

theorem getAttribute_ofType (i : s.Steady) (hv : s.heap.Has v o) (ho : o.kind? = some m.owner) :
    (do
      let ty ← typeOf v
      getAttribute ty m.name : Action Handle) s = .ok (s.methods.get m.index) s := by
  have htype : typeOf v s = .ok (s.types.get m.owner.index) s := by
    rw [typeOf, get_bind_of_has hv]
    cases o with
    | userInstance => cases ho
    | _ =>
      simp only [ho]
      rfl
  have hkind := i.types m.owner.index
  rw [show Kind.all.get m.owner.index = m.owner from Kind.all_index m.owner] at hkind
  rw [bind_of_ok htype, getAttribute, if_neg m.name_ne_class, get_bind_of_has hkind]
  dsimp only
  rw [if_neg m.name_ne_name, m.lookup?_name]
  rfl

/-! ## Twins -/

theorem of_alloc (h : alloc x s = .ok v s') :
    ∃ old heap, s.heap.allocateIn x.sizeClass x = (v, old, heap) ∧
      s' = { s with heap, pending := s.pending + 1, disk := settle old s.disk } := by
  rcases hplaced : s.heap.allocateIn x.sizeClass x with ⟨v', old, heap⟩
  rw [alloc, hplaced] at h
  obtain ⟨rfl, rfl⟩ := EStateM.Result.ok.inj h
  exact ⟨old, heap, rfl, rfl⟩

/-- A new object of the class of bound methods and then another one leave a space that is the twin
of the one with only an object of the same size as the other one. -/
theorem twins_alloc (i : s.Steady) (hs : s.heap.Shelved) (hx : x.sizeClass = wide)
    (hy : y.Narrow) (hy' : y'.sizeClass = y.sizeClass) (h₁ : alloc x s = .ok b s₁)
    (h₂ : alloc y s₁ = .ok p s₂) (h₃ : alloc y' s = .ok q t) (f₁ : Frame [] s s₁)
    (f₂ : Frame [] s₁ s₂) :
    (∃ spare, s₂.Twins [p, b] spare t) ∧ ∀ v, s.heap.isLive v = true → Known [p, b] s₂ v := by
  obtain ⟨old₁, a₁, hall₁, rfl⟩ := of_alloc h₁
  obtain ⟨old₂, a₂, hall₂, rfl⟩ := of_alloc h₂
  obtain ⟨old₃, a₃, hall₃, rfl⟩ := of_alloc h₃
  have p₁ : Arena.Placed s.heap x.sizeClass x b old₁ a₁ := by
    simpa only [hall₁] using Arena.allocateIn_placed i.roomy x.sizeClass x
  have p₂ : Arena.Placed a₁ y.sizeClass y p old₂ a₂ := by
    simpa only [hall₂] using Arena.allocateIn_placed f₁.steady.roomy y.sizeClass y
  have p₃ : Arena.Placed s.heap y'.sizeClass y' q old₃ a₃ := by
    simpa only [hall₃] using Arena.allocateIn_placed i.roomy y'.sizeClass y'
  have hsame : Arena.Twins wide (fun _ _ => False) a₁ s.heap := by
    rw [hx] at hall₁
    simpa only [hall₁] using (Arena.Twins.refl wide s.heap).allocateIn_left x
  have hclass := Object.narrow_iff.1 hy
  obtain ⟨-, hdropped⟩ := hsame.allocateIn_eq_allocateIn f₁.steady.roomy hclass y y'
  have harena := hsame.allocateIn f₁.steady.roomy hclass y y'
  rw [hy'] at hall₃
  simp only [hall₂, hall₃] at hdropped harena
  -- what was live is neither of the new objects
  have hfresh : ∀ v, s.heap.isLive v = true → v ∉ [p, b] := by
    intro v hv
    obtain ⟨u, hu⟩ := i.has_of_live hv
    rw [List.mem_cons, List.mem_singleton]
    rintro (rfl | rfl)
    · exact nomatch p₂.get?_new.symm.trans (p₁.has hu).2
    · exact nomatch p₁.get?_new.symm.trans hu.2
  have hback : ∀ {v o}, Arena.Has a₂ v o → v ∉ [p, b] → s.heap.Has v o := by
    intro v o hv hm
    rw [List.mem_cons, List.mem_singleton, not_or] at hm
    have hv := (p₂.of_has hv).resolve_left fun h => hm.1 h.1
    exact (p₁.of_has hv).resolve_left fun h => hm.2 h.1
  have hapart : Apart [p, b] { s with
      heap := a₂, pending := s.pending + 1 + 1, disk := settle old₂ (settle old₁ s.disk) } :=
    { sound := f₂.steady.ordered.sound
      live := List.forall_mem_cons.2
        ⟨p₂.isLive_self, List.forall_mem_singleton.2 (f₂.live p₁.isLive_self)⟩
      roots := fun g hg => hfresh g (i.ordered.sound.roots g hg)
      closed := fun v o hv hm g hg => hfresh g (i.children (hback hv hm) g hg) }
  refine ⟨⟨_, ⟨hapart, p₃.roomy i.roomy, ⟨(hs.placed p₁).placed p₂, hs.placed p₃⟩, harena,
    fun v o hv ho => ?_, rfl, rfl, rfl, ?_, rfl⟩⟩, fun v hv => ?_⟩
  · obtain ⟨hlive, hm⟩ := known_handle.1 hv
    exact p₃.has (hback ⟨hlive, ho⟩ hm)
  · have hsettle := hs.settle (hx ▸ p₁) s.disk
    dsimp only
    rw [hsettle, hdropped]
  · exact known_handle.2 ⟨f₂.live (f₁.live hv), hfresh v hv⟩

theorem Firm.alloc (i : s.Firm) (h : Space.alloc x s = .ok v s')
    (hp : Placeable (fun heap g => heap.isLive g = true) s.heap x)
    (hc : ∀ c ∈ x.children, s.heap.isLive c = true) : s'.Firm := by
  have hr := (runs_alloc (T := firmTrust) hp hc).result i
  rw [h] at hr
  exact hr.1.holds

/-! ## Where the routes lead -/

/-- The first route places a bound method and the arguments, and runs the method. -/
theorem throughValue_eq (i : s.Steady) (hv : s.heap.Has v o) (ho : o.kind? = some m.owner)
    (hargs : ∀ a ∈ args, s.heap.isLive a = true)
    (hk : ∀ k, kwargs = some k → s.heap.isLive k = true)
    (hpresent : presentKeywords kwargs s = .ok present s) (code : Code) (ctx : Handle) :
    ∃ b s₁ pack s₂, alloc (.boundMethod v (s.methods.get m.index)) s = .ok b s₁ ∧
      alloc (.tuple args.toArray) s₁ = .ok pack s₂ ∧ Frame [] s s₁ ∧ Frame [] s₁ s₂ ∧
      throughValue code ctx v m.name args kwargs s =
        (if present.isSome then fatal (.noKeywordArguments m.qualifiedName)
          else runMethod m v args : Action Handle) s₂ := by
  have hfun := i.method m
  obtain ⟨b, s₁, h₁, f₁, hb⟩ :=
    alloc_frame i (o := .boundMethod v (s.methods.get m.index)) trivial
      (by simp [Object.children, hv.1, hfun.1]) nofun
  obtain ⟨pack, s₂, h₂, f₂, hpack⟩ := pack_frame f₁.steady fun a ha => f₁.live (hargs a ha)
  refine ⟨b, s₁, pack, s₂, h₁, h₂, f₁, f₂, ?_⟩
  have hattr : getAttribute v m.name s = .ok b s₁ := (getAttribute_method hv m ho).trans h₁
  have hkeep := presentKeywords_keep i (f₁.again f₂) hk hpresent
  rw [throughValue, bind_of_ok hattr, bind_of_ok h₂, call, bind_of_ok hkeep,
    get_bind_of_has (f₂.keep hb)]
  dsimp only
  rw [get_bind_of_has ((f₁.again f₂).keep hfun)]
  exact callFunction_method (positional_eq hpack rfl (some v))

/-- The second route places the value and the arguments, and runs the method. -/
theorem throughType_eq (i : s.Steady) (hv : s.heap.Has v o) (ho : o.kind? = some m.owner)
    (hargs : ∀ a ∈ args, s.heap.isLive a = true)
    (hk : ∀ k, kwargs = some k → s.heap.isLive k = true)
    (hpresent : presentKeywords kwargs s = .ok present s) (code : Code) (ctx : Handle) :
    ∃ pack t, alloc (.tuple (v :: args).toArray) s = .ok pack t ∧ Frame [] s t ∧
      throughType code ctx v m.name args kwargs s =
        (if present.isSome then fatal (.noKeywordArguments m.qualifiedName)
          else runMethod m v args : Action Handle) t := by
  obtain ⟨pack, t, ht, fr, hpack⟩ := pack_frame i (List.forall_mem_cons.2 ⟨hv.1, hargs⟩)
  refine ⟨pack, t, ht, fr, ?_⟩
  obtain ⟨ty, s', htype, hattr⟩ := bind_eq_ok.1 (getAttribute_ofType i hv ho)
  have hkeep := presentKeywords_keep i fr hk hpresent
  rw [throughType, bind_of_ok htype, bind_of_ok hattr, bind_of_ok ht, call, bind_of_ok hkeep,
    get_bind_of_has (fr.keep (i.method m))]
  exact callFunction_method (positional_eq hpack rfl none)

/-- A calm action that stops at a violation follows a value without end. -/
theorem Calm.endless_of_breaks {E : Prop} {act : Action Handle} (h : Calm E s act)
    (hb : Breaks (act s)) : E ∧ Endless (act s) := by
  obtain ⟨e, s', he⟩ := hb
  cases h.proper _ s' he with
  | endless hE v => exact ⟨hE, v, s', he⟩

theorem calm_runMethod_later (i : s.Firm) (i' : s'.Firm) (fr : Frame [] s s')
    (hv : s.heap.IsValue v) (hargs : ∀ x ∈ args, s.heap.IsValue x) (m : Method) :
    Calm (∃ x ∈ v :: args, s.heap.Circular x) s' (runMethod m v args) := by
  have hgiven : ∀ x ∈ v :: args, s'.heap.Given (∃ x ∈ v :: args, s.heap.Circular x) x := by
    intro x hx
    have hvalue : s.heap.IsValue x := by
      rcases List.mem_cons.1 hx with rfl | hx
      · exact hv
      · exact hargs x hx
    obtain ⟨u, hu, -⟩ := i.sound.get? hvalue.live
    refine ⟨⟨fr.live hvalue.live, fr.kept.noContext hu hvalue.noContext⟩, ?_⟩
    by_cases hc : s.heap.Circular x
    · exact .inl ⟨x, hx, hc⟩
    · have htame := i.tame_of_not_circular hvalue.live hc
      exact .inr (i.tame_moved hvalue.live (Heap.moved_of_has fun _ _ h => fr.keep h) htame)
  rw [List.forall_mem_cons] at hgiven
  exact i'.calm_runMethod m hgiven.1 hgiven.2

/-- The routes to a method of a value end alike, unless one follows a value without end. -/
theorem routes_builtin (i : s.Firm) (j : s.Steady) (hs : s.heap.Shelved) (hv : s.heap.Has v o)
    (ho : o.kind? = some m.owner) (hargs : ∀ x ∈ args, s.heap.IsValue x)
    (hk : ∀ k, kwargs = some k → s.heap.isLive k = true) (code : Code) (ctx : Handle) :
    EndAlike (fun h => s.heap.isLive h = true) (throughValue code ctx v m.name args kwargs s)
        (throughType code ctx v m.name args kwargs s) ∨
      (∃ x ∈ v :: args, s.heap.Circular x) ∧
        (Endless (throughValue code ctx v m.name args kwargs s) ∨
          Endless (throughType code ctx v m.name args kwargs s)) := by
  have hlive : ∀ a ∈ args, s.heap.isLive a = true := fun a ha => (hargs a ha).live
  have hvalue : s.heap.IsValue v := ⟨hv.1, fun c hc => by
    obtain rfl := Option.some.inj (hv.2.symm.trans hc)
    cases ho⟩
  obtain ⟨present, hpresent, -⟩ := presentKeywords_eq j hk
  obtain ⟨b, s₁, p, s₂, h₁, h₂, f₁, f₂, hthrough⟩ :=
    throughValue_eq j hv ho hlive hk hpresent code ctx
  obtain ⟨q, t, h₃, f₃, htype⟩ := throughType_eq j hv ho hlive hk hpresent code ctx
  have hwide : (Object.boundMethod v (s.methods.get m.index)).sizeClass = wide := rfl
  have hnarrow : (Object.tuple args.toArray).Narrow := trivial
  have hsize : (Object.tuple (v :: args).toArray).sizeClass =
    (Object.tuple args.toArray).sizeClass := rfl
  obtain ⟨⟨spare, w⟩, hknown⟩ := twins_alloc j hs hwide hnarrow hsize h₁ h₂ h₃ f₁ f₂
  rw [hthrough, htype]
  cases present with
  | some kw => exact .inl (.fatal _ (w.sameEffect.mono hknown))
  | none =>
    have hboth : ∀ x ∈ v :: args, s.heap.isLive x = true := List.forall_mem_cons.2 ⟨hv.1, hlive⟩
    have i₁ := i.alloc h₁ trivial (by simp [Object.children, hv.1, (j.method m).1])
    have i₂ := i₁.alloc h₂ trivial fun c hc => f₁.live (hlive c hc)
    have i₃ := i.alloc h₃ trivial hboth
    have hend := concludes_runMethod w m (hknown v hv.1) fun x hx => hknown x (hlive x hx)
    rcases hend with h | h | h
    · exact .inl (h.mono hknown)
    · have hc := (calm_runMethod_later i i₂ (f₁.again f₂) hvalue hargs m).endless_of_breaks h
      exact .inr ⟨hc.1, .inl hc.2⟩
    · have hc := (calm_runMethod_later i i₃ f₃ hvalue hargs m).endless_of_breaks h
      exact .inr ⟨hc.1, .inr hc.2⟩

/-! ## Bound methods of the program -/

theorem call_compiled (hpresent : presentKeywords kwargs s = .ok present s)
    (hf : s.heap.Has f (.function label (.compiled n))) (code : Code) (ctx pack : Handle) :
    call code ctx f pack kwargs s = code n
      { globals := s.globals.getD ctx, caller := ctx, args := pack, kwargs := present } s := by
  rw [call, bind_of_ok hpresent, get_bind_of_has hf]
  rfl

theorem call_bound_compiled (i : s.Steady) (hpresent : presentKeywords kwargs s = .ok present s)
    (hb : s.heap.Has b (.boundMethod v f)) (hf : s.heap.Has f (.function label (.compiled n)))
    (hpack : s.heap.Has pack o) {items : Array Handle} (ho : o.asSequence? = some items)
    (code : Code) (ctx : Handle) :
    ∃ pack' s', newTuple (v :: items.toList).toArray s = .ok pack' s' ∧ Frame [] s s' ∧
      s'.heap.Has pack' (.tuple (v :: items.toList).toArray) ∧
      call code ctx b pack kwargs s = code n
        { globals := s.globals.getD ctx, caller := ctx, args := pack', kwargs := present } s' := by
  have hitems : ∀ a ∈ items.toList, s.heap.isLive a = true := by
    cases o <;> cases ho <;> exact i.children hpack
  have hlive : ∀ a ∈ v :: items.toList, s.heap.isLive a = true :=
    List.forall_mem_cons.2 ⟨i.children hb v List.mem_cons_self, hitems⟩
  obtain ⟨pack', s', hs', fr, hpack'⟩ := pack_frame i hlive
  refine ⟨pack', s', hs', fr, hpack', ?_⟩
  rw [call, bind_of_ok hpresent, get_bind_of_has hb]
  dsimp only
  rw [get_bind_of_has hf]
  dsimp only [callFunction]
  rw [ask_bind_of_ok (positional_eq hpack ho (some v))]
  exact (bind_of_ok hs').trans (by rw [← fr.globals]; rfl)

end Space

open Space

variable {settings : Settings} {disk : Disk} {s : Space}

/-- **Routes to methods.** A built-in method that is called through a value and one that is called
through its type end alike, for all that is live and with any arguments; unless one of them follows
a value that contains itself without end. A bound method for code of the program runs it with the
receiver before the arguments, as calling the function with them does. -/
theorem routes_agree (r : LiveRun settings disk s) (code : Code) (ctx : Handle) :
    (∀ v o k m name args kwargs, s.heap.Has v o → o.kind? = some k →
      Method.lookup? k name = some m → (∀ x ∈ args, s.heap.IsValue x) →
      (∀ kw, kwargs = some kw → s.heap.isLive kw = true) →
      EndAlike (fun h => s.heap.isLive h = true) (throughValue code ctx v name args kwargs s)
          (throughType code ctx v name args kwargs s) ∨
        (∃ x ∈ v :: args, s.heap.Circular x) ∧
          (Endless (throughValue code ctx v name args kwargs s) ∨
            Endless (throughType code ctx v name args kwargs s))) ∧
    (∀ b v f label n pack o items kwargs, s.heap.Has b (.boundMethod v f) →
      s.heap.Has f (.function label (.compiled n)) → s.heap.Has pack o →
      o.asSequence? = some items → (∀ kw, kwargs = some kw → s.heap.isLive kw = true) →
      ∃ pack' s' present, presentKeywords kwargs s = .ok present s ∧
        s.heap.get? pack' = none ∧ Space.Frame [] s s' ∧
        s'.heap.Has pack' (.tuple (v :: items.toList).toArray) ∧
        call code ctx b pack kwargs s = code n
          { globals := s.globals.getD ctx, caller := ctx, args := pack', kwargs := present } s' ∧
        call code ctx f pack' kwargs s' = code n
          { globals := s.globals.getD ctx, caller := ctx, args := pack', kwargs := present } s' ∧
        call code ctx f pack kwargs s = code n
          { globals := s.globals.getD ctx, caller := ctx, args := pack, kwargs := present } s) := by
  have j := steady_of_liveRun r
  constructor
  · intro v o k m name args kwargs hv hk hm hargs hkwargs
    obtain ⟨rfl, rfl⟩ := Method.of_lookup? hm
    exact routes_builtin r.firm j r.shelved hv hk hargs hkwargs code ctx
  · intro b v f label n pack o items kwargs hb hf hpack ho hkwargs
    obtain ⟨present, hpresent, -⟩ := presentKeywords_eq j hkwargs
    obtain ⟨pack', s', hs', fr, hpack', hcall⟩ :=
      call_bound_compiled j hpresent hb hf hpack ho code ctx
    have hkeep := presentKeywords_keep j fr hkwargs hpresent
    refine ⟨pack', s', present, hpresent, alloc_new j hs', fr, hpack', hcall, ?_,
      call_compiled hpresent hf code ctx pack⟩
    rw [call_compiled hkeep (fr.keep hf), fr.globals]

theorem liveRun_boundMethod :
    ∃ s l b v f pack, LiveRun {} {} s ∧ s.heap.Has l (.list #[]) ∧
      s.heap.Has b (.boundMethod v f) ∧ s.heap.Has f (.function "f" (.compiled 0)) ∧
      s.heap.Has pack (.tuple #[]) := by
  obtain ⟨s₀, h₀⟩ := create_ok {} rfl {}
  have hplain : ¬ (Object.function "f" (.compiled 0)).Writes := by
    rintro ⟨x, w, hx, -⟩
    cases hx
  obtain ⟨f, s₁, r₁, f₁, hf⟩ := (LiveRun.start h₀).making (.newFunction "f" 0) rfl
    (List.forall_mem_nil _)
    (makes_alloc (create_steady h₀) trivial (List.forall_mem_nil _) hplain)
  have hempty : ∀ x ∈ (#[] : Array Handle).toList, s₁.heap.isLive x = true := List.forall_mem_nil _
  obtain ⟨l, s₂, r₂, f₂, hl⟩ := r₁.newList hempty
  have hf := f₂.keep hf
  obtain ⟨cls, s₃, r₃, f₃, hcls⟩ := r₂.newClass "A" [("f", f)] (by simp [hf.1])
  obtain ⟨pack, s, r, f₄, hpack⟩ := r₃.making (.newTuple #[]) rfl (List.forall_mem_nil _)
    (makes_newTuple (steady_of_liveRun r₃) (List.forall_mem_nil _))
  have hf := f₄.keep (f₃.keep hf)
  have hentries : Bindings.ofList [("f", f)] = ⟨[("f", f)]⟩ := by
    simp [Bindings.ofList, Bindings.set, Bindings.setIn]
  have hclass := f₄.keep hcls
  rw [hentries] at hclass
  have honce : (⟨[("f", f)]⟩ : Bindings).Once := r.members_once hclass.2
  obtain ⟨inst, attributes, s', c, hinst⟩ := instantiate_frame (steady_of_liveRun r) hclass honce
    (by simp [Bindings.get?, List.lookup_cons])
  have hcall : call noCode s.noneValue cls pack none s = .ok inst s' := by
    rw [call_class hclass presentKeywords_none, hinst,
      ask_bind_of_ok (arguments_eq (c.frame.keep hpack) rfl)]
    rfl
  have hmethods := c.methods
  rw [show s.heap.functions [("f", f)] = [("f", f)] by
    simp [Heap.functions, Heap.namesFunction_eq hf.2, Object.isFunction]] at hmethods
  obtain ⟨entries⟩ := attributes
  cases hmethods with
  | cons h _ =>
    have hnone := (steady_of_liveRun r).nothing
    refine ⟨s', l, _, inst, f, pack, ?_, c.frame.keep (f₄.keep (f₃.keep hl)), h.2.2,
      c.frame.keep hf, c.frame.keep hpack⟩
    refine r.after (.call s.noneValue cls pack none) rfl (fun g hg => ?_) hcall
    obtain rfl | rfl | rfl : g = s.noneValue ∨ g = cls ∨ g = pack := by
      simpa [Operation.handles] using hg
    · exact hnone.1
    · exact hclass.1
    · exact hpack.1

/-- Appending None to an empty list by both routes, and calling a method of the program that gives
back its arguments. -/
theorem routes_agree_append :
    ∃ s l u b v f pack pack' s', LiveRun {} {} s ∧ s.heap.Has l (.list #[]) ∧
      s.heap.Has u .nothing ∧ s.heap.Has b (.boundMethod v f) ∧
      EndAlike (fun h => s.heap.isLive h = true)
        (throughValue (fun _ frame => pure frame.args) u l "append" [u] none s)
        (throughType (fun _ frame => pure frame.args) u l "append" [u] none s) ∧
      call (fun _ frame => pure frame.args) u b pack none s = .ok pack' s' ∧
      s'.heap.Has pack' (.tuple #[v]) := by
  obtain ⟨s, l, b, v, f, pack, r, hl, hb, hf, hpack⟩ := liveRun_boundMethod
  have hnone := (steady_of_liveRun r).nothing
  have hkwargs : ∀ k : Handle, none = some k → s.heap.isLive k = true := by
    intro k hk
    cases hk
  obtain ⟨hbuiltin, hcompiled⟩ :=
    routes_agree r (fun _ frame => pure frame.args) s.noneValue
  obtain ⟨pack', s', present, -, -, -, hpack', hcall, -⟩ :=
    hcompiled b v f "f" 0 pack _ #[] none hb hf hpack rfl hkwargs
  have hvalue : ∀ x ∈ [s.noneValue], s.heap.IsValue x := by
    intro x hx
    obtain rfl := List.mem_singleton.1 hx
    exact ⟨hnone.1, fun c hc => nomatch hnone.2.symm.trans hc⟩
  have hlookup : Method.lookup? .list "append" = some (.list .append) := by decide
  rcases hbuiltin l _ .list _ "append" [s.noneValue] none hl rfl hlookup hvalue hkwargs with
    hend | ⟨⟨x, hx, hc⟩, -⟩
  · exact ⟨s, l, _, b, v, f, pack, pack', s', r, hl, hnone, hb, hend, hcall, hpack'⟩
  · obtain rfl | rfl : x = l ∨ x = s.noneValue := by simpa using hx
    · exact absurd hc (Heap.not_circular hl.2 rfl rfl)
    · exact absurd hc (Heap.not_circular hnone.2 rfl rfl)

end ObjectSpace

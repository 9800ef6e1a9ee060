import ObjectSpace.Proofs.Execution.Calling
import ObjectSpace.Proofs.Iteration.Exhaustion
import ObjectSpace.Proofs.Safety.Methods

/-!
# Calls of what is built in

**Theorem (`call_builtIn`).** In every space that turns on live handles lead to, a call of a
function, a method or a type that is built in, with any values as arguments and anything live as
keyword arguments, gives a result or stops with a diagnostic. It never breaks what it relies on: a
text has the position that it is read at, a list the one that it is changed at, a view its dict, and
a check of the number of arguments comes before an argument is read.

The one other thing that can happen needs an argument that contains itself (`Heap.Circular`): a
comparison may follow it without end.

What a call does is put together of calm parts. Keyword arguments are checked first, so a function
gets them in a dict, and a type or a method gets none.
-/

namespace ObjectSpace

/-- A function is built in when it is not code of the program. -/
def Entry.IsBuiltIn : Entry → Prop
  | .compiled _ => False
  | .builtin .. => True
  | .method _ => True

/-- A live value that can be called and is built in, with the receiver that comes before the
arguments of the call if it has one. -/
inductive Heap.BuiltIn (heap : Heap) (callee : Handle) : Option Handle → Prop
  | function {name : String} {entry : Entry} :
      heap.Has callee (.function name entry) → entry.IsBuiltIn → BuiltIn heap callee none
  | bound {receiver f : Handle} {name : String} {entry : Entry} :
      heap.Has callee (.boundMethod receiver f) → heap.get? f = some (.function name entry) →
      entry.IsBuiltIn → BuiltIn heap callee (some receiver)
  | type {k : Kind} : heap.Has callee (.type k) → BuiltIn heap callee none

namespace Space

/-- An action gives a result or stops with a diagnostic. -/
def Settles {α : Type} (s : Space) (act : Action α) : Prop :=
  (∃ a s', act s = .ok a s') ∨ ∃ d s', act s = .error (.fatal d) s'

variable {α : Type} {E : Prop} {s s' : Space} {act : Action α} {callee ctx kw pack : Handle}
  {args : List Handle} {receiver? kwargs kwargs' : Option Handle} {name : String} {o : Object}

/-- A calm action settles or follows a value without end. -/
theorem Calm.outcome (h : Calm E s act) :
    s.Settles act ∨ E ∧ ∃ v s', act s = .error (.violation (.endless v)) s' := by
  cases hres : act s with
  | ok a s' => exact .inl (.inl ⟨a, s', hres⟩)
  | error e s' =>
    cases h.proper e s' hres with
    | fatal d => exact .inl (.inr ⟨d, s', hres⟩)
    | endless hE v => exact .inr ⟨hE, v, s', rfl⟩

/-! ## Keyword arguments -/

theorem of_presentKeywords (h : presentKeywords kwargs s = .ok kwargs' s') :
    s' = s ∧ (kwargs' = none ∨ kwargs' = kwargs) := by
  cases kwargs with
  | none =>
    obtain ⟨rfl, rfl⟩ := EStateM.Result.ok.inj h
    exact ⟨rfl, .inl rfl⟩
  | some k =>
    obtain ⟨b, s₁, hb, h⟩ := bind_eq_ok.1 h
    obtain ⟨-, rfl⟩ := EStateM.Result.ok.inj hb
    split at h
    · obtain ⟨rfl, rfl⟩ := EStateM.Result.ok.inj h
      exact ⟨rfl, .inl rfl⟩
    · obtain ⟨o, s₂, ho, h⟩ := bind_eq_ok.1 h
      obtain ⟨-, rfl⟩ := ask_eq_ok.1 ho
      split at h
      all_goals obtain ⟨rfl, rfl⟩ := EStateM.Result.ok.inj h
      · exact ⟨rfl, ite_eq_or_eq ..⟩
      · exact ⟨rfl, .inr rfl⟩

theorem dict_of_checkKeywords {heap : Heap} {allowed : List String} {u : Unit}
    (h : checkKeywords name kw allowed heap = .ok u) : ∃ t, heap.get? kw = some (.dict t) := by
  obtain ⟨o, ho, h⟩ := Heap.bind_eq_ok.1 h
  rw [Heap.get_eq_ok] at ho
  split at h
  · exact ⟨_, ho⟩
  · obtain ⟨_, -, h⟩ := Heap.bind_eq_ok.1 h
    cases h

namespace Firm

variable (i : s.Firm)

include i

theorem calm_presentKeywords (hk : ∀ kw, kwargs = some kw → s.heap.isLive kw = true) :
    Calm E s (presentKeywords kwargs) := by
  cases kwargs with
  | none => exact .pure _
  | some k =>
    refine .bind_of_ok (calm_isNone k) fun b s₁ h => ?_
    obtain ⟨-, rfl⟩ := EStateM.Result.ok.inj h
    refine .ite (fun _ => .pure _) fun _ => .ask_bind (i.calm_get (hk k rfl)) fun o _ => ?_
    split <;> exact .pure _

theorem calm_checkKeywords (allowed : List String) (hk : s.heap.isLive kw = true) :
    s.heap.Calm E (checkKeywords name kw allowed) := by
  obtain ⟨o, ho, hlive⟩ := i.sound.get? hk
  refine .get_bind ho ?_
  split
  · refine .guard fun _ => .forM fun (key, w) he => ?_
    have hkey := (Object.entries_of_parts hlive (key, w) he).1
    refine .bind (i.calm_asStr? hkey) fun text? _ => .ite (fun _ => .pure _) fun _ => ?_
    exact .bind (i.calm_str hkey) fun _ _ => .fatal _
  · exact i.calm_badArgument hk

/-! ## Calls -/

/-- Built-in functions and methods are calm, whatever the keyword arguments are. -/
theorem calm_callFunction (code : Code) (ctx : Handle) {entry : Entry} (he : entry.IsBuiltIn)
    (hp : positional receiver? pack s.heap = .ok args) (ha : ∀ x ∈ args, s.heap.Given E x)
    (hk : ∀ kw, kwargs = some kw → s.heap.isLive kw = true) :
    Calm E s (callFunction code ctx name entry receiver? pack kwargs) := by
  cases entry with
  | compiled n => exact he.elim
  | builtin f keywords =>
    cases kwargs with
    | none =>
      have hnone : s.heap.Keywords none := fun _ h => nomatch h
      exact .pure_bind (.ask_bind_of_ok hp (i.calm_runBuiltin f ha hnone))
    | some kw =>
      have hkw := hk kw rfl
      refine .ask_bind (i.calm_checkKeywords keywords hkw) fun _ hcheck => ?_
      obtain ⟨t, ht⟩ := dict_of_checkKeywords hcheck
      refine .ask_bind_of_ok hp (i.calm_runBuiltin f ha fun kw' h => ?_)
      obtain rfl := Option.some.inj h
      exact ⟨t, hkw, ht⟩
  | method m =>
    unfold callFunction
    refine .guard fun _ => .ask_bind_of_ok hp ?_
    cases args with
    | nil => exact .fatal _
    | cons v rest =>
      rw [List.forall_mem_cons] at ha
      exact i.calm_runMethod m ha.1 ha.2

theorem calm_call (code : Code) (ctx : Handle) (hb : s.heap.BuiltIn callee receiver?)
    (hpack : s.heap.Has pack o) {items : Array Handle} (ho : o.asSequence? = some items)
    (ha : ∀ x ∈ receiver?.toList ++ items.toList, s.heap.Given E x)
    (hk : ∀ kw, kwargs = some kw → s.heap.isLive kw = true) :
    Calm E s (call code ctx callee pack kwargs) := by
  refine .bind_of_ok (i.calm_presentKeywords hk) fun kwargs' s' h => ?_
  obtain ⟨rfl, hkw⟩ := of_presentKeywords h
  have hk' : ∀ kw, kwargs' = some kw → s'.heap.isLive kw = true := by
    rcases hkw with rfl | rfl
    · exact nofun
    · exact hk
  have hp := positional_eq hpack ho receiver?
  cases hb with
  | function hcallee he => exact .get_bind hcallee.2 (i.calm_callFunction code ctx he hp ha hk')
  | bound hcallee hf he =>
    exact .get_bind hcallee.2 (.get_bind hf (i.calm_callFunction code ctx he hp ha hk'))
  | type hcallee =>
    exact .get_bind hcallee.2 (.ask_bind_of_ok (arguments_eq hpack ho) (i.calm_construct _ ha))

end Firm

end Space

variable {settings : Settings} {disk : Disk} {s : Space} {callee pack : Handle} {o : Object}
  {items : Array Handle} {receiver? kwargs : Option Handle}

/-- **Calls.** A call of what is built in settles when no argument contains itself, and otherwise it
settles or follows a value without end. -/
theorem call_builtIn (r : LiveRun settings disk s) (hb : s.heap.BuiltIn callee receiver?)
    (hpack : s.heap.Has pack o) (ho : o.asSequence? = some items)
    (hv : ∀ v ∈ receiver?.toList ++ items.toList, s.heap.IsValue v)
    (hk : ∀ kw, kwargs = some kw → s.heap.isLive kw = true) (code : Code) (ctx : Handle) :
    ((∀ v ∈ receiver?.toList ++ items.toList, ¬ s.heap.Circular v) →
      s.Settles (Space.call code ctx callee pack kwargs)) ∧
    (s.Settles (Space.call code ctx callee pack kwargs) ∨
      ∃ v s', Space.call code ctx callee pack kwargs s = .error (.violation (.endless v)) s') := by
  have i := r.firm
  constructor
  · intro hc
    have hgiven : ∀ v ∈ receiver?.toList ++ items.toList, s.heap.Given False v := fun v hm =>
      ⟨hv v hm, .inr (i.tame_of_not_circular (hv v hm).live (hc v hm))⟩
    exact (i.calm_call code ctx hb hpack ho hgiven hk).outcome.resolve_right fun h => h.1
  · have hgiven : ∀ v ∈ receiver?.toList ++ items.toList, s.heap.Given True v := fun v hm =>
      ⟨hv v hm, .inl trivial⟩
    exact (i.calm_call code ctx hb hpack ho hgiven hk).outcome.imp_right And.right

theorem Heap.not_circular {heap : Heap} {v : Handle} (ho : heap.get? v = some o)
    (hparts : o.parts = []) (hdraws : o.draws = []) : ¬ heap.Circular v := by
  have hpart : ∀ p, ¬ Grounded.Part heap.get? v p := by
    rintro p ⟨o', ho', hp⟩
    obtain rfl := Option.some.inj (ho.symm.trans ho')
    rw [hparts] at hp
    cases hp
  rintro ⟨u, w, hu, hw, hloop⟩
  obtain rfl | ⟨p, ⟨o', ho', hp⟩, -⟩ := hu.cases_head
  · obtain rfl | ⟨p, hp, -⟩ := hw.cases_head
    · obtain ⟨p, hp, -⟩ := Relation.TransGen.head'_iff.1 hloop
      exact hpart p hp
    · exact hpart p hp
  · obtain rfl := Option.some.inj (ho.symm.trans ho')
    rw [hdraws] at hp
    cases hp

theorem call_builtIn_append :
    ∃ s append l u pack, LiveRun {} {} s ∧
      s.heap.Has append (.function "list.append" (.method (.list .append))) ∧
      s.heap.Has l (.list #[]) ∧ s.heap.Has u .nothing ∧ s.heap.Has pack (.tuple #[l, u]) ∧
      s.Settles (Space.call noCode u append pack none) := by
  obtain ⟨s₀, h₀⟩ := Space.create_ok {} rfl {}
  have i₀ := Space.create_steady h₀
  obtain ⟨l, s₁, h₁, f₁, hl⟩ := Space.newList_frame i₀ (fun x (hx : x ∈ #[].toList) => nomatch hx)
  have r₁ : LiveRun {} {} s₁ :=
    Space.leave_of_ok (.newList #[]) rfl h₁ ▸ .turn _ (.start h₀) nofun
  have hlive : ∀ x ∈ #[l, s₁.noneValue].toList, s₁.heap.isLive x = true := by
    simp [hl.1, f₁.steady.nothing.1]
  obtain ⟨pack, s₂, h₂, f₂, hpack⟩ := Space.newTuple_frame f₁.steady hlive
  have r₂ : LiveRun {} {} s₂ := Space.leave_of_ok (.newTuple #[l, s₁.noneValue]) rfl h₂ ▸
    .turn (.operation (.newTuple #[l, s₁.noneValue])) r₁ hlive
  have hu := f₂.keep f₁.steady.nothing
  have hl₂ := f₂.keep hl
  have happend := f₂.steady.methods (Method.list .append).index
  rw [show Method.all.get (Method.list .append).index = .list .append from
    Method.all_index (.list .append)] at happend
  have hvalues : ∀ v ∈ (none : Option Handle).toList ++ #[l, s₁.noneValue].toList,
      s₂.heap.IsValue v ∧ ¬ s₂.heap.Circular v := by
    intro v hv
    obtain rfl | rfl : v = l ∨ v = s₁.noneValue := by simpa using hv
    · exact ⟨⟨hl₂.1, fun c hc => nomatch hl₂.2.symm.trans hc⟩,
        Heap.not_circular hl₂.2 rfl rfl⟩
    · exact ⟨⟨hu.1, fun c hc => nomatch hu.2.symm.trans hc⟩, Heap.not_circular hu.2 rfl rfl⟩
  have hnone : ∀ kw, (none : Option Handle) = some kw → s₂.heap.isLive kw = true := nofun
  refine ⟨s₂, _, l, s₁.noneValue, pack, r₂, happend, hl₂, hu, hpack, ?_⟩
  exact (call_builtIn r₂ (.function happend trivial) hpack rfl (fun v hv => (hvalues v hv).1)
    hnone noCode s₁.noneValue).1 fun v hv => (hvalues v hv).2

end ObjectSpace

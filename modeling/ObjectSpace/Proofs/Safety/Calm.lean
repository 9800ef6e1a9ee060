import ObjectSpace.Proofs.Iteration.Listing

/-!
# Calm computations

A computation is `Calm` when it succeeds or stops with a diagnostic: no promise of the caller turns
out to be broken, and no case is met that an earlier check rules out. The one other way to stop is
to follow a value that contains itself; `E` says whether it is allowed.

A computation put together of calm ones is calm. What follows an action starts in a later state, so
the rules for actions also ask that the first part `Runs` under the trust in live handles.
-/

namespace ObjectSpace

variable {α β γ : Type} {E : Prop}

/-- A way to stop that is not a defect: with a diagnostic or, if `E` holds, by following a value
that contains itself. -/
inductive Halt.Proper (E : Prop) : Halt → Prop
  | fatal (d : Diagnostic) : Proper E (.fatal d)
  | endless (h : E) (v : Handle) : Proper E (.violation (.endless v))

/-! ## Queries -/

namespace Heap

/-- A query that answers or stops properly. -/
structure Calm (E : Prop) (heap : Heap) (q : Query α) : Prop where
  proper : ∀ e, q heap = .error e → e.Proper E

namespace Calm

variable {heap : Heap} {q : Query α} {f : α → Query β} {a : α}

protected theorem of_ok (h : q heap = .ok a) : Calm E heap q :=
  ⟨fun e he => by rw [h] at he; cases he⟩

protected theorem pure (a : α) : Calm E heap (pure a) := .of_ok rfl

protected theorem fatal (d : Diagnostic) : Calm E heap (fatal d : Query α) :=
  ⟨fun _ he => Except.error.inj he ▸ .fatal d⟩

/-- Following a value without end, where that is allowed. -/
protected theorem endless (h : E) (v : Handle) :
    Calm E heap (violate (.endless v) : Query α) :=
  ⟨fun _ he => Except.error.inj he ▸ .endless h v⟩

protected theorem bind (hq : Calm E heap q) (hf : ∀ a, q heap = .ok a → Calm E heap (f a)) :
    Calm E heap (q >>= f) := by
  refine ⟨fun e he => ?_⟩
  rcases bind_eq_error.1 he with he | ⟨a, ha, he⟩
  · exact hq.proper e he
  · exact (hf a ha).proper e he

protected theorem attempt (hq : Calm E heap q) : Calm E heap (attempt q) := by
  refine ⟨fun e he => ?_⟩
  unfold Heap.attempt at he
  split at he
  case h_3 v h => exact Except.error.inj he ▸ hq.proper _ h
  all_goals cases he

/-- What follows an answer that is known. -/
protected theorem bind_of_ok (h : q heap = .ok a) (hf : Calm E heap (f a)) :
    Calm E heap (q >>= f) :=
  .bind (.of_ok h) fun b hb => by
    obtain rfl := Except.ok.inj (h.symm.trans hb)
    exact hf

/-- What follows the reading of an object that is known. -/
protected theorem get_bind {v : Handle} {o : Object} {f : Object → Query β}
    (ho : heap.get? v = some o) (hf : Calm E heap (f o)) : Calm E heap (get v >>= f) :=
  .bind_of_ok (get_eq_ok.2 ho) hf

protected theorem ite {c : Prop} [Decidable c] {p q : Query α} (hp : c → Calm E heap p)
    (hq : ¬ c → Calm E heap q) : Calm E heap (if c then p else q) := by
  split
  · exact hp ‹_›
  · exact hq ‹_›

/-- Going on unless a condition stops the query with a diagnostic. -/
protected theorem guard {c : Prop} [Decidable c] {d : Diagnostic} {f : Unit → Query α}
    (hf : ¬ c → Calm E heap (f ())) : Calm E heap (if c then fatal d >>= f else f ()) :=
  .ite (fun _ => .bind (.fatal d) fun _ h => nomatch h) hf

section Lists

variable {l : List γ}

protected theorem mapM {f : γ → Query β} (hf : ∀ x ∈ l, Calm E heap (f x)) :
    Calm E heap (l.mapM f) := by
  refine ⟨fun e he => ?_⟩
  obtain ⟨x, hx, he⟩ := error_of_mapM he
  exact (hf x hx).proper e he

protected theorem forM {f : γ → Query PUnit} (hf : ∀ x ∈ l, Calm E heap (f x)) :
    Calm E heap (l.forM f) := by
  refine ⟨fun e he => ?_⟩
  obtain ⟨x, hx, he⟩ := error_of_forM he
  exact (hf x hx).proper e he

/-- A fold is calm when each step is, from what the steps before it left. -/
protected theorem foldlM {P : β → Prop} {f : β → γ → Query β} {b : β} (hb : P b)
    (hf : ∀ b, P b → ∀ x ∈ l, Calm E heap (f b x) ∧ ∀ b', f b x heap = .ok b' → P b') :
    Calm E heap (l.foldlM f b) := by
  induction l generalizing b with
  | nil => exact .pure _
  | cons x l ih =>
    rw [List.foldlM_cons]
    obtain ⟨hx, hP⟩ := hf b hb x List.mem_cons_self
    exact .bind hx fun b' h' =>
      ih (hP b' h') fun c hc y hy => hf c hc y (List.mem_cons_of_mem x hy)

protected theorem allM {f : γ → Query Bool} (hf : ∀ x ∈ l, Calm E heap (f x)) :
    Calm E heap (l.allM f) := by
  refine ⟨fun e he => ?_⟩
  obtain ⟨x, hx, he⟩ := error_of_allM he
  exact (hf x hx).proper e he

protected theorem anyM {f : γ → Query Bool} (hf : ∀ x ∈ l, Calm E heap (f x)) :
    Calm E heap (l.anyM f) := by
  refine ⟨fun e he => ?_⟩
  obtain ⟨x, hx, he⟩ := error_of_anyM he
  exact (hf x hx).proper e he

protected theorem findM? {f : γ → Query Bool} (hf : ∀ x ∈ l, Calm E heap (f x)) :
    Calm E heap (l.findM? f) := by
  refine ⟨fun e he => ?_⟩
  obtain ⟨x, hx, he⟩ := error_of_findM? he
  exact (hf x hx).proper e he

protected theorem findPlace {test : γ → Query Bool} (h : ∀ x ∈ l, Calm E heap (test x)) :
    Calm E heap (findPlace test l) := by
  refine ⟨fun e he => ?_⟩
  obtain ⟨x, hx, he⟩ := error_of_findPlace he
  exact (h x hx).proper e he

protected theorem allPairs {related : Handle → Handle → Query Bool} {xs ys : List Handle}
    (h : ∀ x ∈ xs, ∀ y ∈ ys, Calm E heap (related x y)) : Calm E heap (allPairs related xs ys) := by
  refine ⟨fun e he => ?_⟩
  obtain ⟨x, hx, y, hy, he⟩ := error_of_allPairs he
  exact (h x hx y hy).proper e he

end Lists

end Calm

end Heap

/-! ## Actions -/

namespace Space

/-- An action that succeeds or stops properly. -/
structure Calm (E : Prop) (s : Space) (act : Action α) : Prop where
  proper : ∀ e s', act s = .error e s' → e.Proper E

namespace Calm

variable {s : Space} {act : Action α} {f : α → Action β} {q : Query α}

protected theorem of_ok {a : α} {s' : Space} (h : act s = .ok a s') : Calm E s act :=
  ⟨fun e _ he => by rw [h] at he; cases he⟩

protected theorem pure (a : α) : Calm E s (pure a) := .of_ok rfl

protected theorem fatal (d : Diagnostic) : Calm E s (fatal d : Action α) := by
  refine ⟨fun e s' he => ?_⟩
  cases he
  exact .fatal d

protected theorem ite {c : Prop} [Decidable c] {p q : Action α} (hp : c → Calm E s p)
    (hq : ¬ c → Calm E s q) : Calm E s (if c then p else q) := by
  split
  · exact hp ‹_›
  · exact hq ‹_›

/-- What follows a first part that is calm, in any state where it may end. -/
protected theorem bind_of_ok (ha : Calm E s act) (hf : ∀ a s', act s = .ok a s' → Calm E s' (f a)) :
    Calm E s (act >>= f) := by
  refine ⟨fun e s'' he => ?_⟩
  rcases bind_eq_error.1 he with he | ⟨a, s', ha', he⟩
  · exact ha.proper e s'' he
  · exact (hf a s' ha').proper e s'' he

/-- What follows a value that is given back. -/
protected theorem pure_bind {a : α} (hf : Calm E s (f a)) : Calm E s (pure a >>= f) := ⟨hf.proper⟩

/-- Going on unless a condition stops the action with a diagnostic. -/
protected theorem guard {c : Prop} [Decidable c] {d : Diagnostic} {f : Unit → Action β}
    (hf : ¬ c → Calm E s (f ())) : Calm E s (if c then fatal d >>= f else f ()) :=
  .ite (fun _ => .bind_of_ok (.fatal d) fun _ _ h => nomatch h) hf

/-- Going on at a position that is in range. -/
protected theorem inRange {c : Prop} [Decidable c] {v : Violation} {f : PUnit → Action β} (hc : c)
    (hf : Calm E s (f ⟨⟩)) : Calm E s (if c then f ⟨⟩ else violate v >>= f) := by
  rw [if_pos hc]
  exact hf

protected theorem ask (hq : s.heap.Calm E q) : Calm E s (liftM q : Action α) := by
  refine ⟨fun e s' he => ?_⟩
  rw [Trust.ask_eq] at he
  cases h : q s.heap with
  | ok a =>
    rw [h] at he
    cases he
  | error e' =>
    rw [h] at he
    obtain ⟨rfl, rfl⟩ := EStateM.Result.error.inj he
    exact hq.proper _ h

/-- After a query the space is as before. -/
protected theorem ask_bind (hq : s.heap.Calm E q) (hf : ∀ a, q s.heap = .ok a → Calm E s (f a)) :
    Calm E s ((liftM q : Action α) >>= f) :=
  .bind_of_ok (.ask hq) fun a s' h => by
    obtain ⟨ha, rfl⟩ := ask_eq_ok.1 h
    exact hf a ha

/-- What follows a query whose answer is known. -/
protected theorem ask_bind_of_ok {a : α} (h : q s.heap = .ok a) (hf : Calm E s (f a)) :
    Calm E s ((liftM q : Action α) >>= f) :=
  .ask_bind (Heap.Calm.of_ok h) fun b hb => by
    obtain rfl := Except.ok.inj (h.symm.trans hb)
    exact hf

protected theorem get_bind {v : Handle} {o : Object} {f : Object → Action β}
    (ho : s.heap.get? v = some o) (hf : Calm E s (f o)) :
    Calm E s ((liftM (Heap.get v) : Action Object) >>= f) :=
  .ask_bind_of_ok (Heap.get_eq_ok.2 ho) hf

protected theorem check (e : Except Diagnostic α) : Calm E s (liftM e : Action α) := by
  refine .ask (q := liftM e) ⟨fun x hx => ?_⟩
  rw [Trust.check_eq] at hx
  cases e with
  | ok a => cases hx
  | error d => exact Except.error.inj hx ▸ .fatal d

/-- Going on after a check of arguments. -/
protected theorem check_bind {e : Except Diagnostic α} (hf : ∀ a, e = .ok a → Calm E s (f a)) :
    Calm E s ((liftM e : Action α) >>= f) := by
  refine .bind_of_ok (.check e) fun a s' h => ?_
  cases e with
  | ok b =>
    obtain ⟨rfl, rfl⟩ := EStateM.Result.ok.inj h
    exact hf b rfl
  | error d => cases h

protected theorem state_bind {f : Space → Action β} (hf : Calm E s (f s)) :
    Calm E s ((get : Action Space) >>= f) :=
  .bind_of_ok (.of_ok (get_apply s)) fun _ _ h => by
    obtain ⟨rfl, rfl⟩ := EStateM.Result.ok.inj h
    exact hf

protected theorem optionMapM {o : Option γ} {f : γ → Action β}
    (hf : ∀ x, o = some x → Calm E s (f x)) : Calm E s (o.mapM f) := by
  cases o with
  | none => exact .pure _
  | some x => exact .bind_of_ok (hf x rfl) fun _ _ _ => .pure _

end Calm

/-! ## Later states -/

namespace Firm

variable {s : Space} {act : Action α} {f : α → Action β} [Carries α] (i : s.Firm)

include i

/-- What follows a first part starts in a later state, and gets `ok` handles. -/
theorem calm_bind (hr : firmTrust.Runs s act) (ha : Calm E s act)
    (hf : ∀ a s', act s = .ok a s' → firmTrust.Later s s' → firmTrust.Ok s' a → Calm E s' (f a)) :
    Calm E s (act >>= f) :=
  .bind_of_ok ha fun a s' h => by
    have hres := hr.result i
    rw [h] at hres
    exact hf a s' h hres.1 hres.2

/-- What follows a query gets `ok` handles. -/
theorem calm_ask_bind {q : Query α} (ha : firmTrust.Asks s q) (hq : s.heap.Calm E q)
    (hf : ∀ a, q s.heap = .ok a → firmTrust.Ok s a → Calm E s (f a)) :
    Calm E s ((liftM q : Action α) >>= f) :=
  .ask_bind hq fun a h => by
    have hok := ha.answer i
    rw [h] at hok
    exact hf a h hok

section Lists

variable {l : List γ}

theorem calm_mapM {f : γ → Action α}
    (hf : ∀ x ∈ l, ∀ s', firmTrust.Later s s' → firmTrust.Runs s' (f x) ∧ Calm E s' (f x)) :
    Calm E s (l.mapM f) := by
  induction l generalizing s with
  | nil =>
    rw [List.mapM_nil]
    exact .pure _
  | cons x l ih =>
    rw [List.mapM_cons]
    obtain ⟨hr, hx⟩ := hf x List.mem_cons_self s (.refl i)
    refine i.calm_bind hr hx fun _ s₁ _ l₁ _ => .bind_of_ok (ih l₁.holds ?_) fun _ _ _ =>
      .pure _
    exact fun y hy s₂ l₂ => hf y (List.mem_cons_of_mem x hy) s₂ (l₁.trans l₂)

theorem calm_arrayMapM {l : Array γ} {f : γ → Action α}
    (hf : ∀ x ∈ l.toList, ∀ s', firmTrust.Later s s' → firmTrust.Runs s' (f x) ∧ Calm E s' (f x)) :
    Calm E s (l.mapM f) := by
  rw [Array.mapM_eq_mapM_toList, map_eq_pure_bind]
  exact .bind_of_ok (i.calm_mapM hf) fun _ _ _ => .pure _

omit [Carries α] in
theorem calm_forM {f : γ → Action PUnit}
    (hf : ∀ x ∈ l, ∀ s', firmTrust.Later s s' → firmTrust.Runs s' (f x) ∧ Calm E s' (f x)) :
    Calm E s (l.forM f) := by
  induction l generalizing s with
  | nil => exact .pure _
  | cons x l ih =>
    obtain ⟨hr, hx⟩ := hf x List.mem_cons_self s (.refl i)
    refine i.calm_bind hr hx fun _ s₁ _ l₁ _ => ih l₁.holds ?_
    exact fun y hy s₂ l₂ => hf y (List.mem_cons_of_mem x hy) s₂ (l₁.trans l₂)

omit [Carries α] in
theorem calm_anyM {f : γ → Action Bool}
    (hf : ∀ x ∈ l, ∀ s', firmTrust.Later s s' → firmTrust.Runs s' (f x) ∧ Calm E s' (f x)) :
    Calm E s (l.anyM f) := by
  induction l generalizing s with
  | nil => exact .pure _
  | cons x l ih =>
    obtain ⟨hr, hx⟩ := hf x List.mem_cons_self s (.refl i)
    refine i.calm_bind hr hx fun b s₁ _ l₁ _ => ?_
    cases b with
    | true => exact .pure _
    | false => exact ih l₁.holds fun y hy s₂ l₂ => hf y (List.mem_cons_of_mem x hy) s₂ (l₁.trans l₂)

omit [Carries α] in
theorem calm_allM {f : γ → Action Bool}
    (hf : ∀ x ∈ l, ∀ s', firmTrust.Later s s' → firmTrust.Runs s' (f x) ∧ Calm E s' (f x)) :
    Calm E s (l.allM f) := by
  induction l generalizing s with
  | nil => exact .pure _
  | cons x l ih =>
    obtain ⟨hr, hx⟩ := hf x List.mem_cons_self s (.refl i)
    refine i.calm_bind hr hx fun b s₁ _ l₁ _ => ?_
    cases b with
    | true => exact ih l₁.holds fun y hy s₂ l₂ => hf y (List.mem_cons_of_mem x hy) s₂ (l₁.trans l₂)
    | false => exact .pure _

end Lists

end Firm

end Space

end ObjectSpace

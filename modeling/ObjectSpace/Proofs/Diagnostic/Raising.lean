import ObjectSpace.Proofs.Diagnostic.Sources
import ObjectSpace.Proofs.Run.Values

/-!
# Computations and their diagnostics

A computation `Raises S` when the message of every diagnostic it stops with is accounted for by the
names and texts of `S` and of the heap it stops in. The rules for putting such computations together
need no invariant, because they look at the heap only where a computation stops. What a computation
does not stop with, a violation for one, does not count here.
-/

namespace ObjectSpace

variable {α β γ : Type}

/-! ## Queries -/

namespace Heap

variable {S : Sources} {heap : Heap}

/-- A query whose diagnostics are accounted for. -/
structure Raises (S : Sources) (heap : Heap) (q : Query α) : Prop where
  accounts : ∀ d, q heap = .error (.fatal d) → (S.plus heap).Accounts d

namespace Raises

variable {q : Query α} {f : α → Query β}

protected theorem pure (a : α) : heap.Raises S (pure a) := ⟨nofun⟩

protected theorem violate (v : Violation) : heap.Raises S (violate v : Query α) := ⟨nofun⟩

protected theorem fatal {d : Diagnostic} (h : (S.plus heap).Accounts d) :
    heap.Raises S (fatal d : Query α) :=
  ⟨fun _ he => Halt.fatal.inj (Except.error.inj he) ▸ h⟩

protected theorem bind (hq : heap.Raises S q) (hf : ∀ a, q heap = .ok a → heap.Raises S (f a)) :
    heap.Raises S (q >>= f) := by
  refine ⟨fun d hd => ?_⟩
  rcases bind_eq_error.1 hd with hd | ⟨a, ha, hd⟩
  · exact hq.accounts d hd
  · exact (hf a ha).accounts d hd

protected theorem get (v : Handle) : heap.Raises S (get v) := by
  refine ⟨fun d hd => ?_⟩
  unfold Heap.get at hd
  split at hd <;> cases hd

/-- What follows the reading of an object. -/
protected theorem get_bind {v : Handle} {f : Object → Query β}
    (hf : ∀ o, heap.get? v = some o → heap.Raises S (f o)) : heap.Raises S (get v >>= f) :=
  .bind (.get v) fun o ho => hf o (get_eq_ok.1 ho)

protected theorem ite {c : Prop} [Decidable c] {p q : Query α} (hp : c → heap.Raises S p)
    (hq : ¬ c → heap.Raises S q) : heap.Raises S (if c then p else q) := by
  split
  · exact hp ‹_›
  · exact hq ‹_›

/-- Going on at a position that is in range. -/
protected theorem inRange {c : Prop} [Decidable c] {v : Violation} {f : PUnit → Query β}
    (hf : heap.Raises S (f ⟨⟩)) : heap.Raises S (if c then f ⟨⟩ else violate v >>= f) :=
  .ite (fun _ => hf) fun _ => .bind (.violate v) fun _ h => nomatch h

protected theorem depth : heap.Raises S depth := ⟨nofun⟩

/-- What an attempt raises it keeps to itself. -/
protected theorem attempt : heap.Raises S (attempt q) := by
  refine ⟨fun d hd => ?_⟩
  unfold Heap.attempt at hd
  split at hd <;> cases hd

protected theorem dict (d : Handle) : heap.Raises S (dict d) := .get_bind fun o _ => by
  split
  · exact .pure _
  · exact .violate _

protected theorem set (u : Handle) : heap.Raises S (set u) := .get_bind fun o _ => by
  split
  · exact .pure _
  · exact .violate _

section Lists

variable {f : γ → Query β} {test : γ → Query Bool}

protected theorem mapM (hf : ∀ x, heap.Raises S (f x)) (l : List γ) :
    heap.Raises S (l.mapM f) := by
  refine ⟨fun d hd => ?_⟩
  obtain ⟨x, -, hd⟩ := error_of_mapM hd
  exact (hf x).accounts d hd

protected theorem forM {f : γ → Query PUnit} (hf : ∀ x, heap.Raises S (f x)) (l : List γ) :
    heap.Raises S (l.forM f) := by
  refine ⟨fun d hd => ?_⟩
  obtain ⟨x, -, hd⟩ := error_of_forM hd
  exact (hf x).accounts d hd

protected theorem foldlM {f : β → γ → Query β} (hf : ∀ b x, heap.Raises S (f b x)) (l : List γ)
    (b : β) : heap.Raises S (l.foldlM f b) := by
  induction l generalizing b with
  | nil => exact .pure _
  | cons x l ih =>
    rw [List.foldlM_cons]
    exact .bind (hf b x) fun b' _ => ih b'

protected theorem allM (h : ∀ x, heap.Raises S (test x)) (l : List γ) :
    heap.Raises S (l.allM test) := by
  refine ⟨fun d hd => ?_⟩
  obtain ⟨x, -, hd⟩ := error_of_allM hd
  exact (h x).accounts d hd

protected theorem anyM (h : ∀ x, heap.Raises S (test x)) (l : List γ) :
    heap.Raises S (l.anyM test) := by
  refine ⟨fun d hd => ?_⟩
  obtain ⟨x, -, hd⟩ := error_of_anyM hd
  exact (h x).accounts d hd

protected theorem findM? (h : ∀ x, heap.Raises S (test x)) (l : List γ) :
    heap.Raises S (l.findM? test) := by
  refine ⟨fun d hd => ?_⟩
  obtain ⟨x, -, hd⟩ := error_of_findM? hd
  exact (h x).accounts d hd

protected theorem filterM (h : ∀ x, heap.Raises S (test x)) (l : List γ) :
    heap.Raises S (l.filterM test) := by
  have key (done : List γ) : heap.Raises S (List.filterAuxM test l done) := by
    induction l generalizing done with
    | nil => exact .pure _
    | cons x l ih => exact .bind (h x) fun _ _ => ih _
  exact .bind (key []) fun _ _ => .pure _

protected theorem findPlace (h : ∀ x, heap.Raises S (test x)) (l : List γ) :
    heap.Raises S (findPlace test l) := by
  refine ⟨fun d hd => ?_⟩
  obtain ⟨x, -, hd⟩ := error_of_findPlace hd
  exact (h x).accounts d hd

protected theorem allPairs {related : Handle → Handle → Query Bool}
    (h : ∀ x y, heap.Raises S (related x y)) (xs ys : List Handle) :
    heap.Raises S (allPairs related xs ys) := by
  refine ⟨fun d hd => ?_⟩
  obtain ⟨x, -, y, -, hd⟩ := error_of_allPairs hd
  exact (h x y).accounts d hd

end Lists

end Raises

/-! ## Text forms -/

/-- A query for a text form: the text is composed of lines and names. -/
structure Writes (heap : Heap) (q : Query String) : Prop where
  raises : ∀ S, heap.Raises S q
  composed : ∀ t, q heap = .ok t → Composed heap.HasName t

namespace Writes

variable {q : Query String} {f : String → Query String} {t : String}

protected theorem pure (h : Composed heap.HasName t) : heap.Writes (pure t) :=
  ⟨fun _ => .pure t, fun _ ht => pure_eq_ok.1 ht ▸ h⟩

protected theorem line (h : OneLine t) : heap.Writes (pure t) := .pure (.line h)

protected theorem violate (v : Violation) : heap.Writes (violate v) := ⟨fun _ => .violate v, nofun⟩

/-- A message may show the text. -/
theorem shown (hq : heap.Writes q) (ht : q heap = .ok t) : Composed (S.plus heap).name t :=
  (hq.composed t ht).mono fun _ => .inr

/-- A diagnostic whose one field is the text. -/
theorem raises_fatal (hq : heap.Writes q) {d : String → Diagnostic}
    (hd : ∀ t, (d t).fields = [t]) : heap.Raises S (q >>= fun t => fatal (d t) : Query α) :=
  .bind (hq.raises S) fun t ht => .fatal (.field (hd t) (hq.shown ht))

/-- What follows a query of any kind. -/
protected theorem after {p : Query α} {f : α → Query String} (hp : ∀ S, heap.Raises S p)
    (hf : ∀ a, p heap = .ok a → heap.Writes (f a)) : heap.Writes (p >>= f) := by
  refine ⟨fun S => .bind (hp S) fun a ha => (hf a ha).raises S, fun t ht => ?_⟩
  obtain ⟨a, ha, ht⟩ := bind_eq_ok.1 ht
  exact (hf a ha).composed t ht

protected theorem bind (hq : heap.Writes q)
    (hf : ∀ t, Composed heap.HasName t → heap.Writes (f t)) : heap.Writes (q >>= f) :=
  .after hq.raises fun t ht => hf t (hq.composed t ht)

protected theorem get {v : Handle} {f : Object → Query String}
    (hf : ∀ o, heap.get? v = some o → heap.Writes (f o)) : heap.Writes (get v >>= f) :=
  .after (fun _ => .get v) fun o ho => hf o (get_eq_ok.1 ho)

protected theorem ite {c : Prop} [Decidable c] {p q : Query String} (hp : heap.Writes p)
    (hq : heap.Writes q) : heap.Writes (if c then p else q) := by
  split
  · exact hp
  · exact hq

/-- What follows the text forms of parts. -/
protected theorem mapM {l : List γ} {part : γ → Query String} {f : List String → Query String}
    (hpart : ∀ x, heap.Writes (part x))
    (hf : ∀ ts, (∀ t ∈ ts, Composed heap.HasName t) → heap.Writes (f ts)) :
    heap.Writes (l.mapM part >>= f) := by
  induction l generalizing f with
  | nil =>
    rw [List.mapM_nil]
    exact hf [] nofun
  | cons x l ih =>
    rw [List.mapM_cons, bind_assoc]
    refine .bind (hpart x) fun t ht => ?_
    rw [bind_assoc]
    refine ih fun ts hts => ?_
    rw [pure_bind]
    exact hf _ (List.forall_mem_cons.2 ⟨ht, hts⟩)

end Writes

end Heap

/-! ## Actions -/

namespace Space

variable {S : Sources} {s : Space}

/-- An action whose diagnostics are accounted for, with what is in the heap that it leaves. -/
structure Raises (S : Sources) (s : Space) (act : Action α) : Prop where
  accounts : ∀ d s', act s = .error (.fatal d) s' → (S.plus s'.heap).Accounts d

namespace Raises

variable {act : Action α} {f : α → Action β} {q : Query α}

protected theorem of_ok {a : α} {s' : Space} (h : act s = .ok a s') : Raises S s act :=
  ⟨fun _ _ he => by rw [h] at he; cases he⟩

protected theorem pure (a : α) : Raises S s (pure a) := .of_ok rfl

protected theorem violate (v : Violation) : Raises S s (violate v : Action α) :=
  ⟨fun d s' h => by cases h⟩

protected theorem fatal {d : Diagnostic} (h : (S.plus s.heap).Accounts d) :
    Raises S s (fatal d : Action α) := by
  refine ⟨fun d' s' he => ?_⟩
  cases he
  exact h

protected theorem bind (ha : Raises S s act) (hf : ∀ a s', act s = .ok a s' → Raises S s' (f a)) :
    Raises S s (act >>= f) := by
  refine ⟨fun d s'' hd => ?_⟩
  rcases bind_eq_error.1 hd with hd | ⟨a, s', ha', hd⟩
  · exact ha.accounts d s'' hd
  · exact (hf a s' ha').accounts d s'' hd

/-- What follows a value that is given back. -/
protected theorem pure_bind {a : α} (hf : Raises S s (f a)) : Raises S s (pure a >>= f) :=
  ⟨hf.accounts⟩

protected theorem ite {c : Prop} [Decidable c] {p q : Action α} (hp : c → Raises S s p)
    (hq : ¬ c → Raises S s q) : Raises S s (if c then p else q) := by
  split
  · exact hp ‹_›
  · exact hq ‹_›

/-- Going on unless a condition stops the action with a diagnostic. -/
protected theorem guard {c : Prop} [Decidable c] {d : Diagnostic} {f : Unit → Action β}
    (hd : (S.plus s.heap).Accounts d) (hf : Raises S s (f ())) :
    Raises S s (if c then fatal d >>= f else f ()) :=
  .ite (fun _ => .bind (.fatal hd) fun _ _ h => nomatch h) fun _ => hf

/-- Going on at a position that is in range. -/
protected theorem inRange {c : Prop} [Decidable c] {v : Violation} {f : PUnit → Action β}
    (hf : Raises S s (f ⟨⟩)) : Raises S s (if c then f ⟨⟩ else violate v >>= f) :=
  .ite (fun _ => hf) fun _ => .bind (.violate v) fun _ _ h => nomatch h

protected theorem ask (hq : s.heap.Raises S q) : Raises S s (liftM q : Action α) := by
  refine ⟨fun d s' he => ?_⟩
  cases h : q s.heap with
  | ok a =>
    rw [ask_of_ok h] at he
    cases he
  | error e =>
    rw [ask_of_error h] at he
    obtain ⟨rfl, rfl⟩ := EStateM.Result.error.inj he
    exact hq.accounts d h

/-- After a query the space is as before. -/
protected theorem ask_bind (hq : s.heap.Raises S q)
    (hf : ∀ a, q s.heap = .ok a → Raises S s (f a)) : Raises S s ((liftM q : Action α) >>= f) :=
  .bind (.ask hq) fun a s' h => by
    obtain ⟨ha, rfl⟩ := ask_eq_ok.1 h
    exact hf a ha

protected theorem get_bind {v : Handle} {f : Object → Action β}
    (hf : ∀ o, s.heap.get? v = some o → Raises S s (f o)) :
    Raises S s ((liftM (Heap.get v) : Action Object) >>= f) :=
  .ask_bind (.get v) fun o ho => hf o (Heap.get_eq_ok.1 ho)

/-- A diagnostic whose one field is a text form. -/
protected theorem mention {q : Query String} (hq : s.heap.Writes q) {d : String → Diagnostic}
    (hd : ∀ t, (d t).fields = [t]) :
    Raises S s ((liftM q : Action String) >>= fun t => fatal (d t) : Action α) :=
  .ask_bind (hq.raises S) fun t ht => .fatal (.field (hd t) (hq.shown ht))

protected theorem state_bind {f : Space → Action β} (hf : Raises S s (f s)) :
    Raises S s ((get : Action Space) >>= f) := ⟨hf.accounts⟩

/-- A check of arguments. -/
protected theorem check {e : Except Diagnostic α}
    (he : ∀ d, e = .error d → (S.plus s.heap).Accounts d) :
    Raises S s (liftM e : Action α) := by
  cases e with
  | ok a => exact .of_ok rfl
  | error d => exact .fatal (he d rfl)

protected theorem check_bind {e : Except Diagnostic α} {f : α → Action β}
    (he : ∀ d, e = .error d → (S.plus s.heap).Accounts d)
    (hf : ∀ a, e = .ok a → Raises S s (f a)) : Raises S s ((liftM e : Action α) >>= f) := by
  cases e with
  | ok a => exact ⟨(hf a rfl).accounts⟩
  | error d => exact .bind (.fatal (he d rfl)) fun _ _ h => nomatch h

protected theorem alloc (o : Object) : Raises S s (alloc o) := .of_ok rfl

protected theorem update (v : Handle) (g : Object → Object) : Raises S s (update v g) :=
  .state_bind (.inRange (.of_ok rfl))

section Lists

protected theorem mapM {f : γ → Action β} (hf : ∀ x s, Raises S s (f x)) (l : List γ) :
    Raises S s (l.mapM f) := by
  induction l generalizing s with
  | nil =>
    rw [List.mapM_nil]
    exact .pure _
  | cons x l ih =>
    rw [List.mapM_cons]
    exact .bind (hf x s) fun _ _ _ => .bind ih fun _ _ _ => .pure _

protected theorem arrayMapM {f : γ → Action β} (hf : ∀ x s, Raises S s (f x)) (l : Array γ) :
    Raises S s (l.mapM f) := by
  rw [Array.mapM_eq_mapM_toList, map_eq_pure_bind]
  exact .bind (.mapM hf _) fun _ _ _ => .pure _

protected theorem optionMapM {f : γ → Action β} (hf : ∀ x, Raises S s (f x)) (o : Option γ) :
    Raises S s (o.mapM f) := by
  cases o with
  | none => exact .pure _
  | some x => exact .bind (hf x) fun _ _ _ => .pure _

protected theorem forM {f : γ → Action PUnit} (hf : ∀ x s, Raises S s (f x)) (l : List γ) :
    Raises S s (l.forM f) := by
  induction l generalizing s with
  | nil => exact .pure _
  | cons x l ih => exact .bind (hf x s) fun _ _ _ => ih

protected theorem foldlM {f : β → γ → Action β} (hf : ∀ b x s, Raises S s (f b x)) (l : List γ)
    (b : β) : Raises S s (l.foldlM f b) := by
  induction l generalizing b s with
  | nil => exact .pure _
  | cons x l ih =>
    rw [List.foldlM_cons]
    exact .bind (hf b x s) fun b' _ _ => ih b'

protected theorem anyM {f : γ → Action Bool} (hf : ∀ x s, Raises S s (f x)) (l : List γ) :
    Raises S s (l.anyM f) := by
  induction l generalizing s with
  | nil => exact .pure _
  | cons x l ih =>
    refine .bind (hf x s) fun b _ _ => ?_
    cases b with
    | true => exact .pure _
    | false => exact ih

protected theorem allM {f : γ → Action Bool} (hf : ∀ x s, Raises S s (f x)) (l : List γ) :
    Raises S s (l.allM f) := by
  induction l generalizing s with
  | nil => exact .pure _
  | cons x l ih =>
    refine .bind (hf x s) fun b _ _ => ?_
    cases b with
    | true => exact ih
    | false => exact .pure _

end Lists

end Raises

end Space

end ObjectSpace

import ObjectSpace.Proofs.Effects.Shelter
import ObjectSpace.Proofs.Execution.Values
import ObjectSpace.Proofs.Value.Coherence

/-!
# Values that are made of others

Operators, items, slices, readings, copies, `sorted` and the constructors make values of others
(`Evaluation`). Lists, dicts and sets have a content that can be replaced (`Mutation`).

**Theorem (`evaluations_isolated`).** In a run on live handles an evaluation changes no live object,
whether it succeeds or fails. A list, dict or set that it gives is new, but for an item that is read
out of a container. So mutations of the new one leave the operands as they are, and mutations of an
operand leave the new one, whatever is evaluated in between.

The frame is the invariant `Shelters`: an evaluation has no effect on what there was before, and a
mutation has one on a single container and on iterators (`Mutated.has`).
-/

namespace ObjectSpace

open Space (leftBy)

/-! ## Containers -/

/-- The types with a content that can be replaced. -/
inductive Container where
  | list
  | dict
  | set

/-- The method that copies a container. -/
def Container.copy : Container → Method
  | list => .list .copy
  | dict => .dict .copy
  | set => .set .copy

/-- The objects with a content that can be replaced. -/
def Object.IsContainer : Object → Prop
  | list _ | dict _ | set _ => True
  | _ => False

/-- A live container. -/
def Heap.IsContainer (heap : Heap) (v : Handle) : Prop := ∃ o, heap.Has v o ∧ o.IsContainer

/-! ## Evaluations and mutations -/

/-- What a program makes of values without changing them. -/
inductive Evaluation where
  | binary (op : BinaryOp) (a b : Handle)
  | unary (op : UnaryOp) (v : Handle)
  | compare (op : Comparison) (a b : Handle)
  | contains (container item : Handle)
  | getItem (container key : Handle)
  | slice (v : Handle) (start stop step : Option Handle)
  | percentFormat (format : String) (v : Handle)
  | hash (v : Handle)
  | repr (v : Handle)
  | copy (kind : Container) (v : Handle) (args : List Handle)
  | sorted (args : List Handle)
  | construct (k : Kind) (args : List Handle) (kwargs : Option Handle)

namespace Evaluation

/-- The values that are evaluated. -/
def operands : Evaluation → List Handle
  | unary _ v | percentFormat _ v | hash v | repr v => [v]
  | binary _ a b | compare _ a b | contains a b | getItem a b => [a, b]
  | slice v start stop step => v :: (start.toList ++ stop.toList ++ step.toList)
  | copy _ v args => v :: args
  | sorted args => args
  | construct _ args kwargs => args ++ kwargs.toList

/-- The values that are iterated over. -/
def sources : Evaluation → List Handle
  | sorted args | construct _ args _ => args
  | _ => []

theorem sources_subset (e : Evaluation) : e.sources ⊆ e.operands := by
  cases e with
  | sorted args => exact List.Subset.refl args
  | construct k args kwargs => exact List.subset_append_left args _
  | _ => exact List.nil_subset _

/-- Evaluate, giving the handle of the value, if it has one. -/
def run : Evaluation → Action (List Handle)
  | binary op a b => (Operation.binary op a b).run
  | unary op v => (Operation.unary op v).run
  | compare op a b => (Operation.compare op a b).run
  | contains a b => (Operation.contains a b).run
  | getItem a b => (Operation.getItem a b).run
  | slice v start stop step => (Operation.slice v start stop step).run
  | percentFormat format v => (Operation.percentFormat format v).run
  | hash v => (Operation.hash v).run
  | repr v => (Operation.repr v).run
  | copy kind v args => Operation.returned (Space.runMethod kind.copy v args)
  | sorted args => Operation.returned (Space.runBuiltin .sorted args none)
  | construct k args kwargs => Operation.returned (Space.construct k args kwargs)

/-- The space after an evaluation. -/
def leave (e : Evaluation) (s : Space) : Space := leftBy (e.run s)

/-- No iterator is iterated over, and `type`, which makes nothing, is left out. -/
def Admissible (s : Space) (e : Evaluation) : Prop :=
  (∀ v ∈ e.sources, ∀ c, ¬ s.heap.Has v (.iter c)) ∧ ∀ args kwargs, e ≠ construct .type args kwargs

end Evaluation

/-- What changes the content of a container, or the attributes of an instance or a class. -/
inductive Mutation where
  | setItem (key value : Handle)
  | deleteItem (key : Handle)
  | setAttribute (name : String) (value : Handle)
  | dictInsert (key value : Handle)
  | dictRemove (key : Handle)
  | dictUpdate (source : Handle)
  | setInsert (member : Handle)
  | setRemove (member : Handle)
  | list (m : ListMethod) (args : List Handle)
  | dict (m : DictMethod) (args : List Handle)
  | set (m : SetMethod) (args : List Handle)

/-- Mutate the object behind a handle. -/
def Mutation.run (w : Handle) : Mutation → Action (List Handle)
  | setItem key value => (Operation.setItem w key value).run
  | deleteItem key => (Operation.deleteItem w key).run
  | setAttribute name value => (Operation.setAttribute w name value).run
  | dictInsert key value => (Operation.dictInsert w key value).run
  | dictRemove key => (Operation.dictRemove w key).run
  | dictUpdate source => (Operation.dictUpdate w source).run
  | setInsert member => (Operation.setInsert w member).run
  | setRemove member => (Operation.setRemove w member).run
  | list m args => Operation.returned (Space.runMethod (.list m) w args)
  | dict m args => Operation.returned (Space.runMethod (.dict m) w args)
  | set m args => Operation.returned (Space.runMethod (.set m) w args)

/-- Mutations of one object, with evaluations in between. -/
inductive Mutated (w : Handle) (s : Space) : Space → Prop
  | refl : Mutated w s s
  | mutation {t : Space} (m : Mutation) : Mutated w s t → Mutated w s (leftBy (m.run w t))
  | evaluation {t : Space} (e : Evaluation) : Mutated w s t → Mutated w s (e.leave t)

namespace Space

variable {I : Space → Prop} {w : Handle} {args : List Handle}

/-! ## Effects -/

theorem keeps_copy (k : Stable I) (kind : Container) (v : Handle) (args : List Handle) :
    Keeps I (runMethod kind.copy v args) := by
  refine keeps_ask_bind fun o => ?_
  cases kind <;> cases o <;> first
    | exact keeps_ask _
    | exact keeps_check_bind fun _ => k.alloc trivial

theorem keeps_sorted (k : Stable I) (hc : ∀ v ∈ args, Keeps I (collect v)) :
    Keeps I (runBuiltin .sorted args none) := by
  rcases args with _ | ⟨v, _ | ⟨w, rest⟩⟩
  · exact keeps_fatal _
  · have hlist : Keeps I (collect v >>= fun items => do
        newList (← Heap.sort items.toList).toArray) :=
      keeps_bind (hc v List.mem_cons_self) fun items =>
        keeps_ask_bind fun l => k.alloc (o := .list l.toArray) trivial
    exact hlist
  · exact keeps_fatal _

/-- An evaluation has no effect but those of iterating. -/
theorem keeps_evaluation (k : Stable I) (e : Evaluation)
    (hc : ∀ v ∈ e.sources, Keeps I (collect v)) : Keeps I e.run := by
  cases e with
  | binary op a b => exact keeps_operation k (.binary op a b) fun _ => False.elim
  | unary op v => exact keeps_operation k (.unary op v) fun _ => False.elim
  | compare op a b => exact keeps_operation k (.compare op a b) fun _ => False.elim
  | contains a b => exact keeps_operation k (.contains a b) fun _ => False.elim
  | getItem a b => exact keeps_operation k (.getItem a b) fun _ => False.elim
  | slice v i j n => exact keeps_operation k (.slice v i j n) fun _ => False.elim
  | percentFormat format v => exact keeps_operation k (.percentFormat format v) fun _ => False.elim
  | hash v => exact keeps_operation k (.hash v) fun _ => False.elim
  | repr v => exact keeps_operation k (.repr v) fun _ => False.elim
  | copy kind v args => exact keeps_returned (keeps_copy k kind v args)
  | sorted args => exact keeps_returned (keeps_sorted k hc)
  | construct kind args kwargs => exact keeps_returned (keeps_construct k hc kind kwargs)

/-- A mutation fills one container, or it sets an attribute of one object. -/
theorem keeps_mutation (k : Stable I) (ha : Bears I .advance) (hw : Bears I (.fill w))
    (hs : ∀ name x, Bears I (.assign w name x)) (m : Mutation) : Keeps I (m.run w) := by
  cases m with
  | setItem key value => exact keeps_returned (keeps_setItem hw key value)
  | deleteItem key => exact keeps_returned (keeps_deleteItem hw key)
  | setAttribute name value => exact keeps_returned (keeps_setAttribute (hs name value))
  | dictInsert key value => exact keeps_returned (keeps_dictInsert hw key value)
  | dictRemove key => exact keeps_returned (keeps_dictRemove hw key)
  | dictUpdate source =>
    exact keeps_returned (keeps_dictUpdate ((k.iterates ha).collect source) hw)
  | setInsert member => exact keeps_returned (keeps_setInsert hw member)
  | setRemove member => exact keeps_returned (keeps_setRemove hw member)
  | list m args =>
    refine keeps_returned (keeps_ask_bind fun o => ?_)
    cases o with
    | list items => exact keeps_listMethod k ha m hw items
    | _ => exact keeps_ask _
  | dict m args =>
    refine keeps_returned (keeps_ask_bind fun o => ?_)
    cases o with
    | dict t => exact keeps_dictMethod k ha m hw t
    | _ => exact keeps_ask _
  | set m args =>
    refine keeps_returned (keeps_ask_bind fun o => ?_)
    cases o with
    | set t => exact keeps_setMethod k ha m hw t
    | _ => exact keeps_ask _

end Space

open Space in
/-- Mutations of one object leave the others as they are, iterators apart. -/
theorem Mutated.has {s t : Space} {v w : Handle} {o : Object} (m : Mutated w s t)
    (hr : s.heap.Roomy) (hv : v ≠ w) (ho : ∀ c, o ≠ .iter c) (h : s.heap.Has v o) :
    t.heap.Has v o := by
  let P : Handle → Object → Prop := fun u p => u ≠ w ∧ ∀ c, p ≠ .iter c
  have k := stable_shelters P s
  have ha : Bears (Shelters P s) .advance := shelters_advance fun _ c hP => hP.2 c rfl
  have hw : ∀ p, ¬ P w p := fun p hP => hP.1 rfl
  have hs : Shelters P s t := by
    induction m with
    | refl => exact .refl hr
    | mutation m _ ih =>
      exact keeps_mutation k ha (shelters_fill hw) (fun name x => shelters_assign hw name x) m _ ih
    | evaluation e _ ih =>
      exact keeps_evaluation k e (fun v _ => (k.iterates ha).collect v) _ ih
  exact hs.has v o ⟨hv, ho⟩ h

namespace Space

variable {s s' : Space} {a b v r : Handle} {o : Object} {args : List Handle}
  {kwargs : Option Handle}

/-! ## What evaluations give -/

/-- A container is new, and no operand is an iterator. -/
structure Built (s : Space) (operands : List Handle) (r : Handle) : Prop where
  new : ∀ o, ¬ s.heap.Has r o
  operands : ∀ v ∈ operands, ∀ c, ¬ s.heap.Has v (.iter c)

/-- A container that an action gives is built of operands. -/
def Builds (s₀ : Space) (operands : List Handle) (act : Action Handle) (s : Space) : Prop :=
  ∀ r s', act s = .ok r s' → s'.heap.IsContainer r → Built s₀ operands r

section Rules

variable {s₀ : Space} {operands : List Handle} {α : Type}

theorem builds_bind {act : Action α} {f : α → Action Handle}
    (h : ∀ x s₁, act s = .ok x s₁ → Builds s₀ operands (f x) s₁) :
    Builds s₀ operands (act >>= f) s := by
  intro r s' hr hc
  obtain ⟨x, s₁, hx, hr⟩ := bind_eq_ok.1 hr
  exact h x s₁ hx r s' hr hc

theorem builds_ask_bind {q : Query α} {f : α → Action Handle}
    (h : ∀ x, q s.heap = .ok x → Builds s₀ operands (f x) s) :
    Builds s₀ operands (liftM q >>= f) s := by
  refine builds_bind fun x s₁ hx => ?_
  obtain ⟨hq, rfl⟩ := ask_eq_ok.1 hx
  exact h x hq

theorem builds_keeps_bind {act : Action α} {f : α → Action Handle}
    (hs : Shelters (fun _ _ => True) s₀ s) (hact : Keeps (Shelters (fun _ _ => True) s₀) act)
    (h : ∀ x s₁, Shelters (fun _ _ => True) s₀ s₁ → Builds s₀ operands (f x) s₁) :
    Builds s₀ operands (act >>= f) s := by
  refine builds_bind fun x s₁ hx => h x s₁ ?_
  have hleft := hact s hs
  rwa [hx] at hleft

theorem builds_check_bind {e : Except Diagnostic α} {f : α → Action Handle}
    (h : ∀ x, e = .ok x → Builds s₀ operands (f x) s) :
    Builds s₀ operands (liftM e >>= f) s := by
  cases e with
  | ok x => exact h x rfl
  | error d => exact fun r s' hr => by cases hr

theorem builds_fatal (d : Diagnostic) : Builds s₀ operands (fatal d) s := fun _ _ h => by cases h

theorem builds_refused {q : Query Handle} (h : Heap.Refuses q) :
    Builds s₀ operands (liftM q) s := by
  intro r s' hr
  obtain ⟨e, he⟩ := h.error s.heap
  rw [ask_of_error he] at hr
  cases hr

/-- A container that is placed is new. -/
theorem builds_alloc (hs : Shelters (fun _ _ => True) s₀ s)
    (h : o.IsContainer → ∀ v ∈ operands, ∀ c, ¬ s₀.heap.Has v (.iter c)) :
    Builds s₀ operands (alloc o) s := by
  intro r s' hr hc
  obtain ⟨g, old, heap, p, heq⟩ := Trust.alloc_placed hs.roomy o
  obtain ⟨rfl, rfl⟩ := EStateM.Result.ok.inj (heq.symm.trans hr)
  obtain ⟨q, hq, hq'⟩ := hc
  obtain rfl := hq.unique p.has_self
  refine ⟨fun u hu => ?_, h hq'⟩
  have hget := (hs.has g u trivial hu).2
  rw [p.get?_new] at hget
  cases hget

theorem builds_newSet (hs : Shelters (fun _ _ => True) s₀ s) (items : List Handle)
    (h : ∀ v ∈ operands, ∀ c, ¬ s₀.heap.Has v (.iter c)) :
    Builds s₀ operands (newSet items) s := by
  intro r s' hr _
  obtain ⟨u, s₁, hu, hr⟩ := bind_eq_ok.1 hr
  obtain ⟨-, s₂, -, hr⟩ := bind_eq_ok.1 hr
  obtain ⟨rfl, -⟩ := EStateM.Result.ok.inj hr
  have hnew := builds_alloc hs (fun _ => h) u s₁ hu
  obtain ⟨g, old, heap, p, heq⟩ := Trust.alloc_placed hs.roomy (.set .empty)
  obtain ⟨rfl, rfl⟩ := EStateM.Result.ok.inj (heq.symm.trans hu)
  exact hnew ⟨_, p.has_self, trivial⟩

theorem builds_newRange (hs : Shelters (fun _ _ => True) s₀ s) (start stop step : Int64) :
    Builds s₀ operands (newRange start stop step) s := by
  unfold newRange
  split
  · exact builds_fatal _
  · exact builds_alloc hs False.elim

end Rules

/-- Joining and repeating is for sequences and numbers. -/
theorem sequenceBinary?_not_iter {op : BinaryOp} {x y : Object}
    {result : Except Diagnostic Object} (h : Object.sequenceBinary? op x y = some result) :
    (∀ c, x ≠ .iter c) ∧ ∀ c, y ≠ .iter c := by
  refine ⟨?_, ?_⟩
  · rintro c rfl
    cases op with
    | mul => cases y <;> cases h
    | _ => cases h
  · rintro c rfl
    cases op with
    | add | mul => cases x <;> cases h
    | _ => cases h

section Operators

variable (hs : s.heap.Roomy) (htruth : ∀ b, s.heap.Has (s.truth b) (.bool b))

include htruth

/-- The Booleans are no containers. -/
theorem builds_boolean (x : Bool) {operands : List Handle} :
    Builds s operands (boolean x) s := by
  intro r s' h hc
  obtain ⟨rfl, rfl⟩ := EStateM.Result.ok.inj h
  obtain ⟨o, ho, hc⟩ := hc
  obtain rfl := ho.unique (htruth x)
  exact hc.elim

include hs

theorem builds_integerBinary (op : BinaryOp) (i j : Int64) (both : Bool) :
    Builds s [a, b] (integerBinary op a b i j both) s := by
  unfold integerBinary
  split
  · exact builds_refused (Heap.refuses_unsupported _ _ _)
  · refine builds_check_bind fun n _ => ?_
    split
    · exact builds_boolean htruth _
    · exact builds_alloc (.refl hs) False.elim

theorem builds_binary (op : BinaryOp) : Builds s [a, b] (binary op a b) s := by
  refine builds_ask_bind fun x hx => builds_ask_bind fun y hy => ?_
  rw [Heap.get_eq_ok] at hx hy
  have hnot : ∀ {p : Prop}, (∀ c, x ≠ .iter c) ∧ (∀ c, y ≠ .iter c) → p →
      ∀ v ∈ [a, b], ∀ c, ¬ s.heap.Has v (.iter c) := by
    intro p hne _ v hv c hc
    rcases List.mem_pair.1 hv with rfl | rfl
    · exact hne.1 c (Option.some.inj (hx.symm.trans hc.2))
    · exact hne.2 c (Option.some.inj (hy.symm.trans hc.2))
  split
  · exact builds_integerBinary hs htruth op _ _ _
  · split
    · rename_i result hresult
      refine builds_check_bind fun o _ => ?_
      exact builds_alloc (.refl hs) (hnot (sequenceBinary?_not_iter hresult))
    · split
      · exact builds_ask_bind fun text _ => builds_alloc (.refl hs) False.elim
      · refine builds_ask_bind fun members _ => ?_
        split
        · exact builds_newSet (.refl hs) _ (hnot ⟨nofun, nofun⟩ trivial)
        · exact builds_refused (Heap.refuses_unsupported _ _ _)
      · exact builds_refused (Heap.refuses_unsupported _ _ _)

theorem builds_unary (op : UnaryOp) : Builds s [v] (unary op v) s := by
  unfold unary
  split
  · exact builds_ask_bind fun _ _ => builds_boolean htruth _
  · refine builds_ask_bind fun n? _ => ?_
    split
    · exact builds_refused (Heap.refuses_unimplemented _ _)
    · split
      · exact builds_check_bind fun n _ => builds_alloc (.refl hs) False.elim
      all_goals exact builds_alloc (.refl hs) False.elim

end Operators

section Parts

variable (i : s.Steady)

include i

/-- Bounds of slices are None or integers. -/
theorem sliceBound_not_iter {bound : Option Handle} {n : Option Int64}
    (h : Heap.sliceBound s.noneValue bound s.heap = .ok n) :
    ∀ u ∈ bound.toList, ∀ c, ¬ s.heap.Has u (.iter c) := by
  intro u hu c hc
  obtain rfl : bound = some u := Option.mem_toList.1 hu
  have hne : u ≠ s.noneValue := hc.ne i.nothing nofun
  rw [Heap.sliceBound, if_neg hne] at h
  obtain ⟨m, hm, -⟩ := Heap.bind_eq_ok.1 h
  obtain ⟨n?, hn, hm⟩ := Heap.bind_eq_ok.1 hm
  obtain rfl := Except.ok.inj ((Heap.asInt?_eq hc).symm.trans hn)
  exact Heap.refuses_badArgument _ _ _ _ _ hm

theorem builds_slice (start stop step : Option Handle) :
    Builds s (v :: (start.toList ++ stop.toList ++ step.toList)) (slice v start stop step) s := by
  refine builds_bind fun x s₁ hx => ?_
  obtain ⟨rfl, rfl⟩ := EStateM.Result.ok.inj hx
  refine builds_ask_bind fun m₁ h₁ => builds_ask_bind fun m₂ h₂ => builds_ask_bind fun m₃ h₃ => ?_
  refine builds_ask_bind fun o ho => ?_
  rw [Heap.get_eq_ok] at ho
  have hbounds : ∀ u ∈ start.toList ++ stop.toList ++ step.toList, ∀ c,
      ¬ s.heap.Has u (.iter c) := by
    intro u hu
    simp only [List.mem_append] at hu
    rcases hu with (hu | hu) | hu
    · exact sliceBound_not_iter i h₁ u hu
    · exact sliceBound_not_iter i h₂ u hu
    · exact sliceBound_not_iter i h₃ u hu
  have hs : Shelters (fun _ _ => True) s s := .refl i.roomy
  split
  case h_1 =>
    refine builds_check_bind fun _ _ => builds_alloc hs fun _ => ?_
    refine List.forall_mem_cons.2 ⟨fun c hc => ?_, hbounds⟩
    cases ho.symm.trans hc.2
  case h_2 | h_3 | h_4 => exact builds_check_bind fun _ _ => builds_alloc hs False.elim
  case h_5 =>
    exact builds_check_bind fun _ _ => builds_check_bind fun _ _ => builds_newRange hs _ _ _
  case h_6 => exact builds_refused (Heap.refuses_unimplemented _ _)

theorem builds_copy (kind : Container) : Builds s (v :: args) (runMethod kind.copy v args) s := by
  refine builds_ask_bind fun o ho => ?_
  rw [Heap.get_eq_ok] at ho
  have hs : Shelters (fun _ _ => True) s s := .refl i.roomy
  have hcopy : ∀ {p : Object} {m : Method}, (∀ c, o ≠ .iter c) →
      Builds s (v :: args) (do m.noArgument args; alloc p) s := by
    intro p m hne
    refine builds_check_bind fun _ hargs => builds_alloc hs fun _ => ?_
    have hnil : args = [] := by
      cases args with
      | nil => rfl
      | cons => simp [Method.noArgument, Method.checkCount, checkCount] at hargs
    subst hnil
    refine List.forall_mem_singleton.2 fun c hc => ?_
    exact hne c (Option.some.inj (ho.symm.trans hc.2))
  cases kind with
  | list =>
    cases o with
    | list => exact hcopy nofun
    | _ => exact builds_refused (Heap.refuses_badArgument _ _ _)
  | dict =>
    cases o with
    | dict => exact hcopy nofun
    | _ => exact builds_refused (Heap.refuses_badArgument _ _ _)
  | set =>
    cases o with
    | set => exact hcopy nofun
    | _ => exact builds_refused (Heap.refuses_badArgument _ _ _)

/-- An item that is a container was there before, and reading it changes nothing. -/
theorem getItem_container (hab : ∀ v ∈ [a, b], s.heap.isLive v = true)
    (h : getItem a b s = .ok r s') (hc : s'.heap.IsContainer r) :
    s' = s ∧ s.heap.isLive r = true := by
  have hr := (Trust.runs_getItem (T := liveTrust) (hab a (by simp)) (hab b (by simp))).result
    i.ordered.sound
  rw [h] at hr
  have hlive : s'.heap.isLive r = true := (Trust.ok_handle r).1 hr.2
  suffices heq : s' = s from ⟨heq, heq ▸ hlive⟩
  obtain ⟨o, s₁, ho, h⟩ := bind_eq_ok.1 h
  obtain ⟨-, rfl⟩ := ask_eq_ok.1 ho
  have hindex : ∀ {length : Nat} {type : String} {f : Nat → Action Handle}, (do
      f (← normalizeIndex (← Heap.indexArgument a b "getitem") length type) : Action Handle) s =
        .ok r s' → ∃ n, f n s = .ok r s' := by
    intro length type f hf
    obtain ⟨m, s₁, hm, hf⟩ := bind_eq_ok.1 hf
    obtain ⟨-, rfl⟩ := ask_eq_ok.1 hm
    obtain ⟨n, s₁, hn, hf⟩ := bind_eq_ok.1 hf
    obtain ⟨-, rfl⟩ := ask_eq_ok.1 hn
    exact ⟨n, hf⟩
  have hnew : ∀ {p : Object}, alloc p s = .ok r s' → p.IsContainer := by
    intro p hp
    obtain ⟨g, old, heap, q, heq⟩ := Trust.alloc_placed i.roomy p
    obtain ⟨rfl, rfl⟩ := EStateM.Result.ok.inj (heq.symm.trans hp)
    obtain ⟨p', hp', hc⟩ := hc
    exact hp'.unique q.has_self ▸ hc
  dsimp only at h
  simp only [bind_assoc] at h
  cases o with
  | list | tuple =>
    obtain ⟨n, h⟩ := hindex h
    exact (EStateM.Result.ok.inj h).2.symm
  | str | bytes | range =>
    obtain ⟨n, h⟩ := hindex h
    exact (hnew h).elim
  | _ => exact (ask_eq_ok.1 h).2.symm

end Parts

section Sources

variable (hs : s.heap.Roomy) (hargs : ∀ v ∈ args, ∀ c, ¬ s.heap.Has v (.iter c))
  (hlive : ∀ v ∈ args, ∃ o, s.heap.Has v o)

include hargs hlive

/-- What is no iterator is listed without any change. -/
theorem keeps_collect_args : ∀ v ∈ args, Keeps (Shelters (fun _ _ => True) s) (collect v) := by
  intro v hv
  obtain ⟨o, ho⟩ := hlive v hv
  exact keeps_collect trivial ho fun c hc => hargs v hv c (hc ▸ ho)

include hs

theorem builds_sorted : Builds s args (runBuiltin .sorted args none) s := by
  have hc := keeps_collect_args hargs hlive
  rcases args with _ | ⟨v, _ | ⟨w, rest⟩⟩
  · exact builds_fatal _
  · have hlist : Builds s [v] (collect v >>= fun items => do
        newList (← Heap.sort items.toList).toArray) s :=
      builds_keeps_bind (.refl hs) (hc v List.mem_cons_self) fun items s₁ hs₁ =>
        builds_ask_bind fun l _ => builds_alloc hs₁ fun _ => hargs
    exact hlist
  · exact builds_fatal _

theorem builds_construct (htruth : ∀ b, s.heap.Has (s.truth b) (.bool b)) (k : Kind)
    (hk : k ≠ .type) : Builds s (args ++ kwargs.toList) (construct k args kwargs) s := by
  have hc := keeps_collect_args hargs hlive
  have k₀ := stable_shelters (fun _ _ => True) s
  have hr : Shelters (fun _ _ => True) s s := .refl hs
  unfold construct
  cases kwargs with
  | some kw => exact builds_fatal _
  | none =>
    have hnone : ∀ v ∈ args ++ (none : Option Handle).toList, ∀ c, ¬ s.heap.Has v (.iter c) := by
      simpa using hargs
    cases k with
    | bool =>
      refine builds_check_bind fun _ _ => ?_
      cases args with
      | nil => exact builds_boolean htruth _
      | cons v rest => exact builds_ask_bind fun _ _ => builds_boolean htruth _
    | int =>
      exact builds_keeps_bind hr (keeps_integerOf args) fun n s₁ hs₁ =>
        builds_alloc hs₁ False.elim
    | str =>
      refine builds_check_bind fun _ _ => ?_
      cases args with
      | nil => exact builds_alloc hr False.elim
      | cons v rest => exact builds_ask_bind fun _ _ => builds_alloc hr False.elim
    | bytes =>
      exact builds_keeps_bind hr (keeps_bytesOf hc) fun bs s₁ hs₁ => builds_alloc hs₁ False.elim
    | list | tuple =>
      refine builds_check_bind fun _ _ =>
        builds_keeps_bind hr (keeps_contents hc) fun items s₁ hs₁ => ?_
      exact builds_alloc hs₁ fun _ => hnone
    | set =>
      refine builds_check_bind fun _ _ =>
        builds_keeps_bind hr (keeps_contents hc) fun items s₁ hs₁ => ?_
      exact builds_newSet hs₁ _ hnone
    | dict =>
      refine builds_check_bind fun _ _ r s' h _ => ?_
      obtain ⟨d, s₁, hd, h⟩ := bind_eq_ok.1 h
      have hnew := builds_alloc hr (fun _ => hnone) d s₁ hd
      obtain ⟨g, old, heap, p, heq⟩ := Trust.alloc_placed hs (.dict .empty)
      obtain ⟨rfl, rfl⟩ := EStateM.Result.ok.inj (heq.symm.trans hd)
      suffices hrg : r = g from hrg ▸ hnew ⟨_, p.has_self, trivial⟩
      cases args with
      | nil => exact (EStateM.Result.ok.inj h).1.symm
      | cons source rest =>
        obtain ⟨_, s₂, -, h⟩ := bind_eq_ok.1 h
        exact (EStateM.Result.ok.inj h).1.symm
    | range =>
      refine builds_check_bind fun _ _ => ?_
      refine builds_keeps_bind hr (keeps_mapM (fun _ => keeps_ask _) args) fun ns s₁ hs₁ => ?_
      split
      · exact builds_newRange hs₁ _ _ _
      · exact builds_newRange hs₁ _ _ _
      · exact builds_newRange hs₁ _ _ _
      · exact builds_fatal _
    | enumerate =>
      refine builds_check_bind fun _ _ => ?_
      cases args with
      | nil => exact fun r s' h => by cases h
      | cons v rest =>
        refine builds_keeps_bind hr (keeps_optionMapM (fun _ => keeps_ask _) _) fun n s₁ hs₁ => ?_
        exact builds_keeps_bind hs₁ (k₀.yields.iter v) fun it s₂ hs₂ =>
          builds_alloc hs₂ False.elim
    | reversed =>
      refine builds_check_bind fun v _ => builds_ask_bind fun o _ => ?_
      split
      · exact builds_alloc hr False.elim
      · exact builds_ask_bind fun _ _ => builds_fatal _
    | zip =>
      refine builds_check_bind fun p _ =>
        builds_keeps_bind hr (k₀.yields.iter p.1) fun l s₁ hs₁ => ?_
      exact builds_keeps_bind hs₁ (k₀.yields.iter p.2) fun _ _ hs₂ => builds_alloc hs₂ False.elim
    | type => exact absurd rfl hk
    | _ => exact builds_fatal _

end Sources

/-- A container that an evaluation gives is built of its operands, or it is an item. -/
theorem built_of_run (i : s.Steady) (htruth : ∀ b, s.heap.Has (s.truth b) (.bool b))
    {e : Evaluation} (hlive : ∀ v ∈ e.operands, s.heap.isLive v = true) (he : e.Admissible s)
    {rs : List Handle} (h : e.run s = .ok rs s') (hr : r ∈ rs) (hc : s'.heap.IsContainer r) :
    (∃ a b, e = .getItem a b ∧ s' = s ∧ s.heap.isLive r = true) ∨ Built s e.operands r := by
  have hhas : ∀ {v}, s.heap.isLive v = true → ∃ o, s.heap.Has v o := fun hv => by
    obtain ⟨o, ho, -⟩ := i.ordered.sound.get? hv
    exact ⟨o, hv, ho⟩
  have hhandle : ∀ {act : Action Handle}, Operation.returned act s = .ok rs s' →
      act s = .ok r s' := by
    intro act hact
    obtain ⟨x, hx, hl⟩ := exists_of_returned hact
    rw [← hl] at hr
    obtain rfl : r = x := List.mem_singleton.1 hr
    exact hx
  have hplain : ∀ {α : Type} [Carries α] [Plain α] {act : Action α},
      Operation.returned act s ≠ .ok rs s' := by
    intro α _ _ act hact
    obtain ⟨x, -, hl⟩ := exists_of_returned hact
    rw [← hl, Plain.handles_eq] at hr
    exact List.not_mem_nil hr
  cases e with
  | binary op a b => exact .inr (builds_binary i.roomy htruth op r s' (hhandle h) hc)
  | unary op v => exact .inr (builds_unary i.roomy htruth op r s' (hhandle h) hc)
  | compare op a b =>
    exact .inr (builds_ask_bind (fun _ _ => builds_boolean htruth _) r s' (hhandle h) hc)
  | contains a b =>
    exact .inr (builds_ask_bind (fun _ _ => builds_boolean htruth _) r s' (hhandle h) hc)
  | getItem a b => exact .inl ⟨a, b, rfl, getItem_container i hlive (hhandle h) hc⟩
  | slice v start stop step => exact .inr (builds_slice i _ _ _ r s' (hhandle h) hc)
  | percentFormat format v => exact absurd h hplain
  | hash v => exact absurd h hplain
  | repr v => exact absurd h hplain
  | copy kind v args => exact .inr (builds_copy i kind r s' (hhandle h) hc)
  | sorted args =>
    exact .inr (builds_sorted i.roomy he.1 (fun v hv => hhas (hlive v hv)) r s' (hhandle h) hc)
  | construct k args kwargs =>
    have hk : k ≠ .type := fun hk => he.2 args kwargs (hk ▸ rfl)
    exact .inr (builds_construct i.roomy he.1
      (fun v hv => hhas (hlive v (List.mem_append_left _ hv))) htruth k hk r s' (hhandle h) hc)

end Space

/-- **Evaluations.** An evaluation of live values changes no live object, whether it succeeds or
fails. A container that it gives is an item that was there before, or it is new: mutations of the
new container change no operand, and mutations of an operand do not change the new container. -/
theorem evaluations_isolated {settings : Settings} {disk : Disk} {s : Space}
    (r : LiveRun settings disk s) (e : Evaluation)
    (hlive : ∀ v ∈ e.operands, s.heap.isLive v = true) (he : e.Admissible s) :
    (∀ v o, s.heap.Has v o → (e.leave s).heap.Has v o) ∧
    ∀ rs s', e.run s = .ok rs s' → ∀ a ∈ rs, s'.heap.IsContainer a →
      (∃ container key, e = .getItem container key ∧ s' = s ∧ s.heap.isLive a = true) ∨
      (∀ o, ¬ s.heap.Has a o) ∧
        ∀ v ∈ e.operands,
          (∀ t, Mutated a s' t → ∀ o, s.heap.Has v o → t.heap.Has v o) ∧
          ∀ t, Mutated v s' t → ∀ o, s'.heap.Has a o → t.heap.Has a o := by
  have i := Space.steady_of_liveRun r
  have hhas : ∀ v ∈ e.operands, ∃ o, s.heap.Has v o := fun v hv => by
    obtain ⟨o, ho, -⟩ := i.ordered.sound.get? (hlive v hv)
    exact ⟨o, hlive v hv, ho⟩
  have hkeeps : Space.Keeps (Space.Shelters (fun _ _ => True) s) e.run :=
    Space.keeps_evaluation (Space.stable_shelters _ s) e
      (Space.keeps_collect_args he.1 fun v hv => hhas v (e.sources_subset hv))
  have hframe := hkeeps s (.refl i.roomy)
  refine ⟨fun v o => hframe.has v o trivial, fun rs s' h a ha hc => ?_⟩
  have hs' : Space.Shelters (fun _ _ => True) s s' := by
    rw [h] at hframe
    exact hframe
  refine (Space.built_of_run i r.truth hlive he h ha hc).imp_right fun hb => ⟨hb.new, ?_⟩
  intro v hv
  obtain ⟨o, ho⟩ := hhas v hv
  have hne : v ≠ a := fun heq => hb.new o (heq ▸ ho)
  refine ⟨fun t m p hp => ?_, fun t m p hp => ?_⟩
  · have hiter : ∀ c, p ≠ .iter c := fun c hpc => hb.operands v hv c (hpc ▸ hp)
    exact m.has hs'.roomy hne hiter (hs'.has v p trivial hp)
  · obtain ⟨q, hq, hcq⟩ := hc
    obtain rfl := hp.unique hq
    refine m.has hs'.roomy hne.symm (fun c hpc => ?_) hp
    rw [hpc] at hcq
    exact hcq

/-- A copy of a list stays when the list is cleared. -/
theorem evaluations_isolated_copy :
    ∃ s l a s' t, LiveRun {} {} s ∧ s.heap.Has l (.list #[s.noneValue]) ∧
      (Evaluation.copy .list l []).run s = .ok [a] s' ∧ (∀ o, ¬ s.heap.Has a o) ∧
      Mutated l s' t ∧ t.heap.Has l (.list #[]) ∧ t.heap.Has a (.list #[s.noneValue]) := by
  obtain ⟨s₀, h₀⟩ := Space.create_ok {} rfl {}
  have r₀ : LiveRun {} {} s₀ := .start h₀
  have hnone : ∀ g ∈ (#[s₀.noneValue] : Array Handle).toList, s₀.heap.isLive g = true := by
    simpa using (Space.steady_of_liveRun r₀).nothing.1
  obtain ⟨l, s, r, f, hl⟩ := r₀.newList hnone
  rw [← f.noneValue] at hl
  have i := Space.steady_of_liveRun r
  -- the copy
  have hlive : ∀ g ∈ (#[s.noneValue] : Array Handle).toList, s.heap.isLive g = true := by
    simpa using i.nothing.1
  obtain ⟨a, s', ha, -, fa, hcopy⟩ := Space.makes_newList i hlive
  have hrun : (Evaluation.copy .list l []).run s = .ok [a] s' := by
    refine Space.returned_eq_ok (a := a) ?_
    rw [Space.runMethod, Space.get_bind_of_has hl]
    exact ha
  -- the list is cleared
  obtain ⟨t, ht, -, hclear⟩ := Space.updateList_frame fa.steady (fa.keep hl) (fun _ => #[])
    (List.forall_mem_nil _)
  have hmethod : Space.runMethod (.list .clear) l [] s' = .ok t.noneValue t := by
    rw [Space.runMethod, Space.get_bind_of_has (fa.keep hl)]
    exact Space.bind_of_ok ht
  have m : Mutated l s' t := by
    have hm := Mutated.refl.mutation (w := l) (s := s') (.list .clear [])
    rwa [Mutation.run, Space.leftBy_returned, hmethod] at hm
  obtain ⟨-, h⟩ := evaluations_isolated r (.copy .list l []) (List.forall_mem_singleton.2 hl.1)
    ⟨List.forall_mem_nil _, by rintro _ _ ⟨⟩⟩
  have hisolated := h [a] s' hrun a (List.mem_singleton_self a) ⟨_, hcopy, trivial⟩
  rcases hisolated with ⟨_, _, h, -⟩ | ⟨hnew, h⟩
  · cases h
  · obtain ⟨-, h⟩ := h l (List.mem_singleton_self l)
    exact ⟨s, l, a, s', t, r, hl, hrun, hnew, m, hclear, h t m _ hcopy⟩

end ObjectSpace

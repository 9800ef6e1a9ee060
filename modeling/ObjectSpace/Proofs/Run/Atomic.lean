import ObjectSpace.Call
import ObjectSpace.Proofs.Run.Turn
import ObjectSpace.Proofs.Run.Values
import ObjectSpace.Proofs.Table.Entries

/-!
# Failures without effect

An action is `Atomic` in a space when its failure leaves that space as it is. Queries are, and so is
a single change; a sequence is when its first part is, and after it either nothing has changed yet
or nothing can fail any more (`atomic_bind`).

Changing one item of a container checks all there is to check before it changes anything, so the
items, and the methods that read no iterable, are atomic.
-/

namespace ObjectSpace

namespace Space

variable {α β : Type} {s s' : Space} {act : Action α} {f : α → Action β} {q : Query α}
  {d u l v key value : Handle} {args : List Handle}

/-- Failing changes nothing. -/
def Atomic (s : Space) (act : Action α) : Prop := ∀ e s', act s = .error e s' → s' = s

/-- An action ends with a result. -/
def Succeeds (s : Space) (act : Action α) : Prop := ∃ a s', act s = .ok a s'

/-! ## Rules -/

theorem Succeeds.atomic (h : Succeeds s act) : Atomic s act := by
  obtain ⟨a, s₁, h⟩ := h
  intro e s' he
  rw [h] at he
  cases he

theorem succeeds_pure (a : α) : Succeeds s (pure a) := ⟨a, s, rfl⟩

theorem succeeds_nothing : Succeeds s nothing := ⟨s.noneValue, s, rfl⟩

theorem succeeds_alloc (o : Object) : Succeeds s (alloc o) := ⟨_, _, rfl⟩

theorem atomic_pure (a : α) : Atomic s (pure a) := (succeeds_pure a).atomic

theorem atomic_fatal (e : Diagnostic) : Atomic s (fatal e : Action α) := by
  intro e' s' h
  cases h
  rfl

theorem atomic_violate (e : Violation) : Atomic s (violate e : Action α) := by
  intro e' s' h
  cases h
  rfl

theorem atomic_ask (q : Query α) : Atomic s (liftM q) := by
  intro e s' h
  rw [Trust.ask_eq] at h
  cases hq : q s.heap with
  | ok a =>
    rw [hq] at h
    cases h
  | error e' =>
    rw [hq] at h
    cases h
    rfl

/-- After the first part nothing has changed, or nothing fails. -/
theorem atomic_bind (ha : Atomic s act)
    (hf : ∀ a s₁, act s = .ok a s₁ → s₁ = s ∧ Atomic s (f a) ∨ Succeeds s₁ (f a)) :
    Atomic s (act >>= f) := by
  intro e s' h
  rcases bind_eq_error.1 h with h₁ | ⟨a, s₁, hact, h₂⟩
  · exact ha e s' h₁
  · rcases hf a s₁ hact with ⟨rfl, hf⟩ | hf
    · exact hf e s' h₂
    · obtain ⟨b, s₂, hok⟩ := hf
      rw [h₂] at hok
      cases hok

/-- A change as the last step that can fail. -/
theorem atomic_then (ha : Atomic s act) (hf : ∀ a s₁, Succeeds s₁ (f a)) :
    Atomic s (act >>= f) :=
  atomic_bind ha fun a s₁ _ => .inr (hf a s₁)

theorem atomic_ask_bind (hf : ∀ a, q s.heap = .ok a → Atomic s (f a)) :
    Atomic s (liftM q >>= f) := by
  refine atomic_bind (atomic_ask q) fun a s₁ h => .inl ?_
  obtain ⟨hq, rfl⟩ := ask_eq_ok.1 h
  exact ⟨rfl, hf a hq⟩

theorem atomic_check_bind {e : Except Diagnostic α} (hf : ∀ a, e = .ok a → Atomic s (f a)) :
    Atomic s (liftM e >>= f) := by
  cases e with
  | ok a => exact hf a rfl
  | error d =>
    intro e' s' h
    cases h
    rfl

theorem atomic_ite {c : Prop} [Decidable c] {p q : Action α} (hp : Atomic s p)
    (hq : Atomic s q) : Atomic s (if c then p else q) := by
  split
  · exact hp
  · exact hq

/-- Going on unless a condition stops the action. -/
theorem atomic_guard {c : Prop} [Decidable c] {e : Diagnostic} {f : Unit → Action β}
    (hf : Atomic s (f ())) : Atomic s (if c then fatal e >>= f else f ()) :=
  atomic_ite (atomic_bind (atomic_fatal e) fun _ _ h => by cases h) hf

theorem atomic_inRange {c : Prop} [Decidable c] {e : Violation} {f : PUnit → Action β}
    (hf : Atomic s (f ⟨⟩)) : Atomic s (if c then f ⟨⟩ else violate e >>= f) :=
  atomic_ite hf (atomic_bind (atomic_violate e) fun _ _ h => by cases h)

/-- Telling apart by what was returned. -/
theorem atomic_returned [Carries α] (h : Atomic s act) : Atomic s (Operation.returned act) := by
  intro e s' he
  simp only [Operation.returned, Functor.map, EStateM.map] at he
  cases hact : act s with
  | ok a s₁ =>
    rw [hact] at he
    cases he
  | error e₁ s₁ =>
    rw [hact] at he
    cases he
    exact h e s' hact

/-! ## Changes -/

theorem atomic_update (v : Handle) (f : Object → Object) : Atomic s (update v f) := by
  intro e s' h
  by_cases hc : s.heap.isCurrent v = true
  · obtain ⟨o, ho⟩ := Arena.isCurrent_iff.1 hc
    rw [Trust.update_eq ho] at h
    cases h
  · simp only [update, bind, EStateM.bind, get_apply, hc] at h
    cases h
    rfl

theorem atomic_updateDict (d : Handle) (f : Table (Handle × Handle) → Table (Handle × Handle)) :
    Atomic s (updateDict d f) :=
  atomic_ask_bind fun _ _ => atomic_update d _

theorem atomic_updateSet (u : Handle) (f : Table Handle → Table Handle) :
    Atomic s (updateSet u f) :=
  atomic_ask_bind fun _ _ => atomic_update u _

theorem atomic_updateList (l : Handle) (f : Array Handle → Array Handle) :
    Atomic s (updateList l f) :=
  atomic_ask_bind fun _ _ => atomic_update l _

/-! ## Entries and members -/

theorem atomic_dictInsert (d key value : Handle) : Atomic s (dictInsert d key value) := by
  refine atomic_ask_bind fun p _ => ?_
  obtain ⟨hash, _ | i⟩ := p
  · exact atomic_updateDict d _
  · exact atomic_updateDict d _

theorem atomic_dictRemove (d key : Handle) : Atomic s (dictRemove d key) := by
  refine atomic_ask_bind fun p _ => ?_
  obtain ⟨hash, _ | i⟩ := p
  · exact atomic_pure none
  · exact atomic_ask_bind fun t _ => atomic_then (atomic_updateDict d _) fun _ _ => succeeds_pure _

theorem atomic_setInsert (u member : Handle) : Atomic s (setInsert u member) := by
  refine atomic_ask_bind fun p _ => ?_
  obtain ⟨hash, _ | i⟩ := p
  · exact atomic_then (atomic_updateSet u _) fun _ _ => succeeds_pure _
  · exact atomic_pure _

theorem atomic_setRemove (u member : Handle) : Atomic s (setRemove u member) := by
  refine atomic_ask_bind fun p _ => ?_
  obtain ⟨hash, _ | i⟩ := p
  · exact atomic_pure _
  · exact atomic_then (atomic_updateSet u _) fun _ _ => succeeds_pure _

/-- Where there was no entry to remove, nothing has changed. -/
theorem dictRemove_none (h : dictRemove d key s = .ok none s') : s' = s := by
  obtain ⟨⟨hash, place⟩, s₁, hask, hrest⟩ := bind_eq_ok.1 h
  obtain ⟨hp, rfl⟩ := ask_eq_ok.1 hask
  obtain ⟨-, t, ht, hfind⟩ := Heap.dictPlace_eq_ok.1 hp
  cases place with
  | none => exact (EStateM.Result.ok.inj hrest).2.symm
  | some i =>
    have hrest := (ask_bind_of_ok (Heap.dict_eq_ok.2 ht)).symm.trans hrest
    obtain ⟨-, s₁, -, hpure⟩ := bind_eq_ok.1 hrest
    have hentry := (EStateM.Result.ok.inj hpure).1
    rw [Table.entryAt?_of_bucket (List.getElem?_eq_getElem (Heap.findPlace_lt hfind))] at hentry
    cases hentry

/-- Where there was no member to remove, nothing has changed. -/
theorem setRemove_false (h : setRemove u key s = .ok false s') : s' = s := by
  obtain ⟨⟨hash, place⟩, s₁, hask, hrest⟩ := bind_eq_ok.1 h
  obtain ⟨-, rfl⟩ := ask_eq_ok.1 hask
  cases place with
  | none => exact (EStateM.Result.ok.inj hrest).2.symm
  | some i =>
    obtain ⟨-, s₁, -, hpure⟩ := bind_eq_ok.1 hrest
    cases (EStateM.Result.ok.inj hpure).1

/-! ## Items -/

theorem atomic_setItem (v key value : Handle) : Atomic s (setItem v key value) := by
  refine atomic_ask_bind fun o _ => ?_
  split
  · exact atomic_ask_bind fun _ _ => atomic_check_bind fun i _ => atomic_updateList v _
  · exact atomic_dictInsert v key value
  · exact atomic_ask _

theorem atomic_deleteItem (v key : Handle) : Atomic s (deleteItem v key) := by
  refine atomic_ask_bind fun o _ => ?_
  split
  · exact atomic_ask_bind fun _ _ => atomic_check_bind fun i _ => atomic_updateList v _
  · refine atomic_bind (atomic_dictRemove v key) fun r s₁ h => ?_
    cases r with
    | some w => exact .inr (succeeds_pure _)
    | none => exact .inl ⟨dictRemove_none h, atomic_ask _⟩
  · exact atomic_ask _

/-! ## Methods -/

/-- All methods of dicts but `update` are atomic. -/
theorem atomic_dictMethod {m : DictMethod} (hm : m ≠ .update) (d : Handle)
    (t : Table (Handle × Handle)) (args : List Handle) : Atomic s (dictMethod m d t args) := by
  cases m with
  | clear =>
    exact atomic_check_bind fun _ _ => atomic_then (atomic_updateDict d _) fun _ _ =>
      succeeds_nothing
  | copy | keys | values | items => exact atomic_check_bind fun _ _ => (succeeds_alloc _).atomic
  | get =>
    refine atomic_check_bind fun p _ => atomic_ask_bind fun r _ => ?_
    obtain ⟨key, default?⟩ := p
    cases r with
    | some w => exact atomic_pure w
    | none =>
      cases default? with
      | some w => exact atomic_pure w
      | none => exact succeeds_nothing.atomic
  | pop =>
    refine atomic_check_bind fun p _ => ?_
    obtain ⟨key, default?⟩ := p
    refine atomic_bind (atomic_dictRemove d key) fun r s₁ h => ?_
    cases r with
    | some w => exact .inr (succeeds_pure w)
    | none =>
      cases default? with
      | some w => exact .inr (succeeds_pure w)
      | none => exact .inl ⟨dictRemove_none h, atomic_ask _⟩
  | update => exact absurd rfl hm

/-- All methods of sets that take no iterable are atomic. -/
theorem atomic_setMethod {m : SetMethod} (hm : m ≠ .update ∧ m ≠ .differenceUpdate) (u : Handle)
    (t : Table Handle) (args : List Handle) : Atomic s (setMethod m u t args) := by
  cases m with
  | add =>
    exact atomic_check_bind fun x _ => atomic_then (atomic_setInsert u x) fun _ _ =>
      succeeds_nothing
  | clear =>
    exact atomic_check_bind fun _ _ => atomic_then (atomic_updateSet u _) fun _ _ =>
      succeeds_nothing
  | copy => exact atomic_check_bind fun _ _ => (succeeds_alloc _).atomic
  | discard =>
    exact atomic_check_bind fun x _ => atomic_then (atomic_setRemove u x) fun _ _ =>
      succeeds_nothing
  | remove =>
    refine atomic_check_bind fun x _ => atomic_bind (atomic_setRemove u x) fun b s₁ h => ?_
    cases b with
    | true => exact .inr succeeds_nothing
    | false => exact .inl ⟨setRemove_false h, atomic_ask_bind fun _ _ => atomic_fatal _⟩
  | differenceUpdate => exact absurd rfl hm.2
  | update => exact absurd rfl hm.1

/-- All methods of lists but `extend` are atomic. -/
theorem atomic_listMethod {m : ListMethod} (hm : m ≠ .extend) (l : Handle) (items : Array Handle)
    (args : List Handle) : Atomic s (listMethod m l items args) := by
  have hchange : ∀ f : Array Handle → Array Handle,
      Atomic s (updateList l f >>= fun _ => nothing) := fun f =>
    atomic_then (atomic_updateList l f) fun _ _ => succeeds_nothing
  cases m with
  | append => exact atomic_check_bind fun x _ => hchange _
  | count =>
    exact atomic_check_bind fun x _ => atomic_ask_bind fun n _ => (succeeds_alloc _).atomic
  | extend => exact absurd rfl hm
  | index =>
    exact atomic_check_bind fun x _ => atomic_ask_bind fun n _ => (succeeds_alloc _).atomic
  | insert =>
    refine atomic_check_bind fun p _ => atomic_ask_bind fun i _ => ?_
    exact atomic_inRange (hchange _)
  | pop =>
    refine atomic_check_bind fun p _ => ?_
    have hindex : ∀ index : Int64, Atomic s (do
        if items.isEmpty then fatal (.emptyCollection "list")
        let i ← normalizeIndex index items.size "pop"
        unless i < items.size do violate (.outOfRange l i)
        updateList l (·.eraseIdxIfInBounds i)
        return items.getD i l : Action Handle) := fun index =>
      atomic_guard (atomic_check_bind fun i _ => atomic_inRange
        (atomic_then (atomic_updateList l _) fun _ _ => succeeds_pure _))
    cases p with
    | none => exact hindex (-1)
    | some x => exact atomic_ask_bind fun index _ => hindex index
  | remove =>
    exact atomic_check_bind fun x _ => atomic_ask_bind fun i _ => atomic_inRange (hchange _)
  | reverse | clear => exact atomic_check_bind fun _ _ => hchange _
  | sort => exact atomic_check_bind fun _ _ => atomic_ask_bind fun sorted _ => hchange _
  | copy => exact atomic_check_bind fun _ _ => (succeeds_alloc _).atomic

end Space

end ObjectSpace

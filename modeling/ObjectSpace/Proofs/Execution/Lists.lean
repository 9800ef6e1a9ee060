import ObjectSpace.Proofs.Execution.Calling
import ObjectSpace.Proofs.Execution.Draining
import ObjectSpace.Proofs.Execution.Evaluations
import ObjectSpace.Proofs.Execution.Sorting
import ObjectSpace.Proofs.Execution.Startup
import ObjectSpace.Proofs.Run.Atomic
import ObjectSpace.Proofs.Safety.Methods
import ObjectSpace.Proofs.Value.History

/-!
# Lists as sequences

What can be done to a list are operations on sequences (`ListOp.Effect`). An index is an integer of
the program; `insert` clamps it to the sequence, the others refuse one that names no place.

**Theorem (`lists_refine`).** In every run of operations on a list, with others in between, the list
is what the operations on sequences make of it. An operation gives what it should whenever there is
an effect, and otherwise it fails and leaves the space as it is.

An extension by a list or by an iterator over it adds the elements that there were before it
(`Elements`), so it ends when the list is extended by itself.
-/

namespace ObjectSpace

/-! ## Places -/

/-- The place that an index names in a sequence; a negative one counts from the end. -/
def place? (index : Int) (length : Nat) : Option Nat :=
  let place := if index < 0 then index + length else index
  if 0 ≤ place ∧ place < length then some place.toNat else none

/-- The place where an index inserts: counted from the end if negative, then clamped. -/
def clampedPlace (index : Int) (length : Nat) : Nat :=
  (max 0 (min (if index < 0 then index + length else index) length)).toNat

theorem clampedPlace_le (index : Int) (length : Nat) : clampedPlace index length ≤ length := by
  unfold clampedPlace
  omega

theorem place?_lt {index : Int} {length i : Nat} (h : place? index length = some i) :
    i < length := by
  simp only [place?, Option.ite_none_right_eq_some, Option.some.injEq] at h
  omega

theorem normalizeIndex_eq_ok {index : Int64} {length i : Nat} {type : String} :
    normalizeIndex index length type = .ok i ↔ place? index.toInt length = some i := by
  have hneg : index < 0 ↔ index.toInt < 0 := Int64.lt_iff_toInt_lt
  simp only [normalizeIndex, place?, hneg]
  generalize (if index.toInt < 0 then index.toInt + length else index.toInt) = place
  split <;> simp

theorem insertionPlace_eq (index : Int64) (length : Nat) :
    Space.insertionPlace index length = clampedPlace index.toInt length := by
  have hneg : index < 0 ↔ index.toInt < 0 := Int64.lt_iff_toInt_lt
  simp only [Space.insertionPlace, clampedPlace, hneg]
  split <;> omega

/-- A handle of an integer or a Boolean. -/
def Heap.IsNumber (heap : Heap) (v : Handle) (n : Int) : Prop :=
  ∃ o m, heap.Has v o ∧ o.asInt? = some m ∧ m.toInt = n

/-! ## Operations -/

/-- What can be done to a list. -/
inductive ListOp where
  | append (v : Handle)
  | insert (index v : Handle)
  | pop (index? : Option Handle)
  | remove (v : Handle)
  | reverse
  | sort
  | extend (source : Handle)
  | clear
  | setItem (index v : Handle)
  | deleteItem (index : Handle)

namespace ListOp

/-- The handles that an operation is given. -/
def handles : ListOp → List Handle
  | append v | remove v => [v]
  | insert index v | setItem index v => [index, v]
  | pop index? => index?.toList
  | extend source => [source]
  | deleteItem index => [index]
  | reverse | sort | clear => []

/-- The operation as a mutation. -/
def mutation : ListOp → Mutation
  | append v => .list .append [v]
  | insert index v => .list .insert [index, v]
  | pop index? => .list .pop index?.toList
  | remove v => .list .remove [v]
  | reverse => .list .reverse []
  | sort => .list .sort []
  | extend source => .list .extend [source]
  | clear => .list .clear []
  | setItem index v => .setItem index v
  | deleteItem index => .deleteItem index

/-- Run an operation on a list, giving the handles that it returns. -/
def run (l : Handle) (op : ListOp) : Action (List Handle) := op.mutation.run l

/-- What an operation makes of a sequence, and the handles that it gives. -/
inductive Effect (s : Space) (xs : List Handle) : ListOp → List Handle → List Handle → Prop
  | append {v : Handle} : Effect s xs (.append v) [s.noneValue] (xs ++ [v])
  | insert {index v : Handle} {n : Int} : s.heap.IsNumber index n →
      Effect s xs (.insert index v) [s.noneValue]
        (xs.insertIdx (clampedPlace n xs.length) v)
  | pop {index? : Option Handle} {n : Int} {i : Nat} {x : Handle} :
      (∀ index, index? = some index → s.heap.IsNumber index n) → (index? = none → n = -1) →
      place? n xs.length = some i → xs[i]? = some x → Effect s xs (.pop index?) [x] (xs.eraseIdx i)
  | remove {before after : List Handle} {x v : Handle} : xs = before ++ x :: after →
      (∀ y ∈ before, Heap.equal y v s.heap = .ok false) → Heap.equal x v s.heap = .ok true →
      Effect s xs (.remove v) [s.noneValue] (before ++ after)
  | reverse : Effect s xs .reverse [s.noneValue] xs.reverse
  | sort {ys : List Handle} : Heap.sort xs s.heap = .ok ys → Effect s xs .sort [s.noneValue] ys
  | extend {source : Handle} {more : List Handle} {s' : Space} : Space.Elements source s more s' →
      Effect s xs (.extend source) [s.noneValue] (xs ++ more)
  | clear : Effect s xs .clear [s.noneValue] []
  | setItem {index v : Handle} {n : Int} {i : Nat} : s.heap.IsNumber index n →
      place? n xs.length = some i → Effect s xs (.setItem index v) [] (xs.set i v)
  | deleteItem {index : Handle} {n : Int} {i : Nat} : s.heap.IsNumber index n →
      place? n xs.length = some i → Effect s xs (.deleteItem index) [] (xs.eraseIdx i)

/-- A list has another content; other objects are as they were, up to the iterators that an
extension advances. -/
structure Leaves (op : ListOp) (l : Handle) (ys : List Handle) (s s' : Space) : Prop where
  list : s'.heap.Has l (.list ys.toArray)
  others : ∀ v o, v ≠ l → ((∃ source, op = .extend source) → ∀ c, o ≠ .iter c) →
    s.heap.Has v o → s'.heap.Has v o

end ListOp

namespace Space

variable {settings : Settings} {disk : Disk} {s s₁ s' : Space} {l v index source it : Handle}
  {xs ys r : List Handle} {op : ListOp} {e : Halt} {n : Int} {kind : Kind} {j : Nat}

/-! ## Numbers -/

/-- What reads an integer gives the number behind the handle. -/
theorem isNumber_of_asInt? {heap : Heap} {m : Int64} {f : Option Int64 → Query Int64}
    (hv : heap.isLive v = true) (h : (Heap.asInt? v >>= f) heap = .ok m)
    (hsome : ∀ k, f (some k) = pure k) (hnone : Heap.Refuses (f none)) :
    heap.IsNumber v m.toInt := by
  obtain ⟨m?, hm, h⟩ := Heap.bind_eq_ok.1 h
  obtain ⟨o, ho, hpure⟩ := Heap.bind_eq_ok.1 hm
  obtain rfl := Heap.pure_eq_ok.1 hpure
  rw [Heap.get_eq_ok] at ho
  cases hint : o.asInt? with
  | some k =>
    rw [hint, hsome] at h
    obtain rfl := Heap.pure_eq_ok.1 h
    exact ⟨o, k, ⟨hv, ho⟩, hint, rfl⟩
  | none =>
    rw [hint] at h
    exact absurd h (hnone _ _)

theorem isNumber_of_expectInt {heap : Heap} {m : Int64} {name : String}
    (hv : heap.isLive v = true) (h : Heap.expectInt v name heap = .ok m) :
    heap.IsNumber v m.toInt :=
  isNumber_of_asInt? hv h (fun _ => rfl) (Heap.refuses_badArgument _ _ _)

theorem isNumber_of_indexArgument {heap : Heap} {m : Int64} {name : String}
    (hv : heap.isLive v = true) (h : Heap.indexArgument l v name heap = .ok m) :
    heap.IsNumber v m.toInt :=
  isNumber_of_asInt? hv h (fun _ => rfl) (Heap.refuses_unsupported _ _ _)

/-! ## Reading arguments -/

theorem check_eq_ok {α : Type} {c : Except Diagnostic α} {a : α} :
    (liftM c : Action α) s = .ok a s' ↔ c = .ok a ∧ s' = s := by
  constructor
  · intro h
    cases c with
    | ok b =>
      obtain ⟨rfl, rfl⟩ := EStateM.Result.ok.inj h
      exact ⟨rfl, rfl⟩
    | error d => cases h
  · rintro ⟨rfl, rfl⟩
    rfl

theorem placeOf_eq_ok {heap : Heap} {items : Array Handle} {needle : Handle} {name : String} :
    placeOf items needle name heap = .ok j ↔
      Heap.indexOf? items.toList needle heap = .ok (some j) := by
  rw [placeOf, Heap.bind_eq_ok]
  constructor
  · rintro ⟨place, hplace, h⟩
    cases place with
    | none =>
      obtain ⟨text, -, hfatal⟩ := Heap.bind_eq_ok.1 h
      cases hfatal
    | some k =>
      obtain rfl := Heap.pure_eq_ok.1 h
      exact hplace
  · exact fun h => ⟨_, h, rfl⟩

/-- The index that `pop` takes an element from, the last one if none is given. -/
def popIndex (index? : Option Handle) : Query Int64 :=
  index?.elim (pure (-1)) (Method.list .pop).expectInt

/-- Take the element at an index out of a list. -/
def popAt (l : Handle) (items : Array Handle) (index : Int64) : Action Handle := do
  if items.isEmpty then fatal (.emptyCollection "list")
  let i ← normalizeIndex index items.size "pop"
  unless i < items.size do violate (.outOfRange l i)
  updateList l (·.eraseIdxIfInBounds i)
  return items.getD i l

theorem pop_eq {items : Array Handle} (hl : s.heap.Has l (.list items))
    (index? : Option Handle) : runMethod (.list .pop) l index?.toList s =
      (liftM (popIndex index?) >>= popAt l items) s := by
  refine (get_bind_of_has hl).trans ?_
  cases index? <;> rfl

theorem place_of_popAt {m : Int64} {x : Handle} (h : popAt l xs.toArray m s = .ok x s') :
    ∃ j y, place? m.toInt xs.length = some j ∧ xs[j]? = some y := by
  unfold popAt at h
  by_cases hempty : xs.toArray.isEmpty = true
  · rw [if_pos hempty] at h
    cases h
  · rw [if_neg hempty] at h
    obtain ⟨j, s₁, hj, -⟩ := bind_eq_ok.1 h
    have hj := normalizeIndex_eq_ok.1 (check_eq_ok.1 hj).1
    exact ⟨j, _, hj, List.getElem?_eq_getElem (place?_lt hj)⟩

theorem popAt_eq {m : Int64} {x : Handle} (hj : place? m.toInt xs.length = some j)
    (hx : xs[j]? = some x) : popAt l xs.toArray m s =
      (updateList l (·.eraseIdxIfInBounds j) >>= fun _ => pure x) s := by
  have hlt := place?_lt hj
  have hempty : ¬ xs.toArray.isEmpty = true := by
    rintro h
    simp_all
  unfold popAt
  have hgetD : xs.toArray.getD j l = x := by
    simp [hx]
  rw [if_neg hempty]
  refine (check_bind_of_ok (normalizeIndex_eq_ok.2 hj)).trans ?_
  rw [if_pos (show j < xs.toArray.size from hlt), hgetD]

/-! ## Operations that change the list once -/

/-- A list operation does what its effects say: there is one when it succeeds, and it succeeds as
the effect says when there is one. -/
structure Refines (l : Handle) (xs : List Handle) (s : Space) (op : ListOp) : Prop where
  possible : ∀ {r s'}, op.run l s = .ok r s' → ∃ r' ys, op.Effect s xs r' ys
  complete : ∀ {r ys}, op.Effect s xs r ys → ∃ s', op.run l s = .ok r s' ∧ op.Leaves l ys s s'

section Once

variable (i : s.Steady) (hl : s.heap.Has l (.list xs.toArray))

include i hl

/-- An action that ends with a change of the list. -/
theorem leaves_update {α : Type} [Carries α] {act : Action α} {a : α}
    (f : Array Handle → Array Handle) (hf : f xs.toArray = ys.toArray)
    (hlive : ∀ x ∈ ys, s.heap.isLive x = true)
    (hact : ∀ s', updateList l f s = .ok () s' → s'.noneValue = s.noneValue → act s = .ok a s') :
    ∃ s', Operation.returned act s = .ok (Carries.handles a) s' ∧ op.Leaves l ys s s' := by
  obtain ⟨s', hs', fr, hlist⟩ := updateList_frame i hl f (by rwa [hf])
  rw [hf] at hlist
  refine ⟨s', returned_eq_ok (hact s' hs' fr.noneValue), hlist, fun v o hv _ ho => ?_⟩
  exact fr.has v o (by simpa using hv) ho

/-- A method that changes the list and gives None. -/
theorem leaves_method {m : ListMethod} {args : List Handle}
    (f : Array Handle → Array Handle) (hf : f xs.toArray = ys.toArray)
    (hlive : ∀ x ∈ ys, s.heap.isLive x = true)
    (hact : listMethod m l xs.toArray args s = (updateList l f >>= fun _ => nothing) s) :
    ∃ s', Operation.returned (runMethod (.list m) l args) s = .ok [s.noneValue] s' ∧
      op.Leaves l ys s s' := by
  refine leaves_update i hl f hf hlive fun s' hs' hnone => ?_
  refine (get_bind_of_has hl).trans (hact.trans ((bind_of_ok hs').trans ?_))
  exact congrArg (EStateM.Result.ok · s') hnone

/-- The elements of a list are live. -/
theorem live_elements : ∀ x ∈ xs, s.heap.isLive x = true := i.children hl

theorem refines_append (hv : s.heap.isLive v = true) : Refines l xs s (.append v) where
  possible _ := ⟨_, _, .append⟩
  complete h := by
    cases h
    refine leaves_method i hl (·.push v) (by simp) ?_ rfl
    rw [List.forall_mem_append, List.forall_mem_singleton]
    exact ⟨live_elements i hl, hv⟩

theorem refines_reverse : Refines l xs s .reverse where
  possible _ := ⟨_, _, .reverse⟩
  complete h := by
    cases h
    refine leaves_method i hl Array.reverse (by simp) ?_ rfl
    simpa using live_elements i hl

theorem refines_clear : Refines l xs s .clear where
  possible _ := ⟨_, _, .clear⟩
  complete h := by
    cases h
    exact leaves_method i hl (fun _ => #[]) rfl (List.forall_mem_nil _) rfl

theorem refines_sort : Refines l xs s .sort where
  possible h := by
    obtain ⟨a, ha, -⟩ := exists_of_returned h
    rw [listSort_eq hl.2] at ha
    obtain ⟨ys, s₁, hys, -⟩ := bind_eq_ok.1 ha
    exact ⟨_, ys, .sort (ask_eq_ok.1 hys).1⟩
  complete h := by
    cases h with
    | sort hys =>
      refine leaves_method i hl (fun _ => _) rfl (fun x hx => ?_) (ask_bind_of_ok hys)
      exact live_elements i hl x ((Heap.sort_perm hys).subset hx)

theorem refines_insert (hindex : s.heap.isLive index = true) (hv : s.heap.isLive v = true) :
    Refines l xs s (.insert index v) where
  possible h := by
    obtain ⟨a, ha, -⟩ := exists_of_returned h
    obtain ⟨p, s₁, hp, ha⟩ := bind_eq_ok.1 ((get_bind_of_has hl).symm.trans ha)
    obtain ⟨rfl, rfl⟩ := EStateM.Result.ok.inj hp
    obtain ⟨n, s₁, hn, -⟩ := bind_eq_ok.1 ha
    exact ⟨_, _, .insert (isNumber_of_expectInt hindex (ask_eq_ok.1 hn).1)⟩
  complete h := by
    cases h with
    | insert hn =>
      obtain ⟨o, m, ho, hm, rfl⟩ := hn
      have hle := clampedPlace_le m.toInt xs.length
      have hplace : insertionPlace m xs.toArray.size = clampedPlace m.toInt xs.length :=
        insertionPlace_eq m xs.length
      refine leaves_method i hl (·.insertIdxIfInBounds (clampedPlace m.toInt xs.length) v) ?_
        (fun x hx => ?_) ?_
      · simp
      · rcases List.eq_or_mem_of_mem_insertIdx hx with rfl | hx
        · exact hv
        · exact live_elements i hl x hx
      · refine (ask_bind_of_ok (Heap.expectInt_eq ho hm _)).trans ?_
        rw [hplace, if_pos (show _ ≤ xs.toArray.size from hle)]

theorem refines_pop {index? : Option Handle}
    (hindex : ∀ index, index? = some index → s.heap.isLive index = true) :
    Refines l xs s (.pop index?) where
  possible h := by
    obtain ⟨a, ha, -⟩ := exists_of_returned h
    rw [pop_eq hl] at ha
    obtain ⟨m, s₁, hask, ha⟩ := bind_eq_ok.1 ha
    obtain ⟨hm, rfl⟩ := ask_eq_ok.1 hask
    obtain ⟨j, x, hj, hx⟩ := place_of_popAt ha
    refine ⟨_, _, .pop (fun index hi => ?_) (fun hi => ?_) hj hx⟩
    · subst hi
      exact isNumber_of_expectInt (hindex index rfl) hm
    · subst hi
      exact congrArg Int64.toInt (Heap.pure_eq_ok.1 hm).symm
  complete h := by
    cases h with
    | @pop _ n j x hn hnone hj hx =>
      have hlive := live_elements i hl
      refine leaves_update i hl (·.eraseIdxIfInBounds j) ?_ (fun y hy => ?_) fun s' hs' _ => ?_
      · simp
      · exact hlive y (List.mem_of_mem_eraseIdx hy)
      · obtain ⟨m, hm, rfl⟩ : ∃ m : Int64, popIndex index? s.heap = .ok m ∧ m.toInt = n := by
          cases index? with
          | none => exact ⟨-1, rfl, (hnone rfl).symm⟩
          | some index =>
            obtain ⟨o, m, ho, hm, rfl⟩ := hn index rfl
            exact ⟨m, Heap.expectInt_eq ho hm _, rfl⟩
        rw [pop_eq hl, ask_bind_of_ok hm, popAt_eq hj hx, bind_of_ok hs']
        rfl

theorem refines_remove (v : Handle) : Refines l xs s (.remove v) where
  possible h := by
    obtain ⟨a, ha, -⟩ := exists_of_returned h
    obtain ⟨p, s₁, hp, ha⟩ := bind_eq_ok.1 ((get_bind_of_has hl).symm.trans ha)
    obtain ⟨rfl, rfl⟩ := EStateM.Result.ok.inj hp
    obtain ⟨j, s₁, hj, -⟩ := bind_eq_ok.1 ha
    obtain ⟨before, x, after, hxs, -, hbefore, hx⟩ :=
      Heap.findPlace_eq_some.1 (placeOf_eq_ok.1 (ask_eq_ok.1 hj).1)
    exact ⟨_, _, .remove hxs hbefore hx⟩
  complete h := by
    cases h with
    | @remove before after x _ hxs hbefore hx =>
      subst hxs
      have hplace : placeOf (before ++ x :: after).toArray v "list" s.heap = .ok before.length :=
        placeOf_eq_ok.2 (Heap.findPlace_eq_some.2 ⟨before, x, after, rfl, rfl, hbefore, hx⟩)
      refine leaves_method i hl (·.eraseIdxIfInBounds before.length) ?_ (fun y hy => ?_) ?_
      · simp [List.eraseIdx_append_of_length_le]
      · refine live_elements i hl y ?_
        simp only [List.mem_append, List.mem_cons] at hy ⊢
        tauto
      · refine (ask_bind_of_ok hplace).trans ?_
        rw [if_pos (show before.length < (before ++ x :: after).toArray.size by simp)]

theorem refines_setItem (hindex : s.heap.isLive index = true) (hv : s.heap.isLive v = true) :
    Refines l xs s (.setItem index v) where
  possible h := by
    obtain ⟨_, ha, -⟩ := exists_of_returned h
    replace ha := (get_bind_of_has hl).symm.trans ha
    obtain ⟨m, s₁, hask, ha⟩ := bind_eq_ok.1 ha
    obtain ⟨hm, rfl⟩ := ask_eq_ok.1 hask
    obtain ⟨j, s₁, hcheck, -⟩ := bind_eq_ok.1 ha
    have hj := normalizeIndex_eq_ok.1 (check_eq_ok.1 hcheck).1
    exact ⟨_, _, .setItem (isNumber_of_indexArgument hindex hm) hj⟩
  complete h := by
    cases h with
    | @setItem _ _ n j hn hj =>
      obtain ⟨o, m, ho, hm, rfl⟩ := hn
      refine leaves_update (a := ()) i hl (·.setIfInBounds j v) (by simp) (fun x hx => ?_)
        fun s' hs' _ => ?_
      · rcases List.mem_or_eq_of_mem_set hx with hx | rfl
        · exact live_elements i hl x hx
        · exact hv
      · refine (get_bind_of_has hl).trans ((ask_bind_of_ok (indexArgument_eq ho hm l _)).trans ?_)
        exact (check_bind_of_ok (normalizeIndex_eq_ok.2 hj)).trans hs'

theorem refines_deleteItem (hindex : s.heap.isLive index = true) :
    Refines l xs s (.deleteItem index) where
  possible h := by
    obtain ⟨_, ha, -⟩ := exists_of_returned h
    replace ha := (get_bind_of_has hl).symm.trans ha
    obtain ⟨m, s₁, hask, ha⟩ := bind_eq_ok.1 ha
    obtain ⟨hm, rfl⟩ := ask_eq_ok.1 hask
    obtain ⟨j, s₁, hcheck, -⟩ := bind_eq_ok.1 ha
    have hj := normalizeIndex_eq_ok.1 (check_eq_ok.1 hcheck).1
    exact ⟨_, _, .deleteItem (isNumber_of_indexArgument hindex hm) hj⟩
  complete h := by
    cases h with
    | @deleteItem _ n j hn hj =>
      obtain ⟨o, m, ho, hm, rfl⟩ := hn
      refine leaves_update (a := ()) i hl (·.eraseIdxIfInBounds j) ?_ (fun x hx => ?_)
        fun s' hs' _ => ?_
      · simp
      · exact live_elements i hl x (List.mem_of_mem_eraseIdx hx)
      · refine (get_bind_of_has hl).trans ((ask_bind_of_ok (indexArgument_eq ho hm l _)).trans ?_)
        exact (check_bind_of_ok (normalizeIndex_eq_ok.2 hj)).trans hs'

end Once

/-! ## Extensions -/

/-- What was later than a firm space is as steady as it was. -/
theorem later_steady (i : s.Steady) (f : s.Firm) (h : firmTrust.Later s s') :
    s'.Steady ∧ s'.noneValue = s.noneValue := by
  refine h.always (I := fun t => t.Steady ∧ t.noneValue = s.noneValue) f ?_ ⟨i, rfl⟩
  rintro t t' - st ⟨it, hnone⟩
  refine ⟨it.step st, ?_⟩
  cases st <;> exact hnone

theorem refines_extend (i : s.Steady) (f : s.Firm) (hl : s.heap.Has l (.list xs.toArray))
    (hv : s.heap.isLive source = true) : Refines l xs s (.extend source) where
  possible h := by
    obtain ⟨a, ha, -⟩ := exists_of_returned h
    obtain ⟨p, s₁, hp, ha⟩ := bind_eq_ok.1 ((get_bind_of_has hl).symm.trans ha)
    obtain ⟨rfl, rfl⟩ := EStateM.Result.ok.inj hp
    obtain ⟨items, s₁, hitems, -⟩ := bind_eq_ok.1 ha
    exact ⟨_, _, .extend ((collect_eq_ok f hv).1 hitems)⟩
  complete h := by
    cases h with
    | @extend _ more s₁ hmore =>
      have hitems : collect source s = .ok more.toArray s₁ := (collect_eq_ok f hv).2 hmore
      obtain ⟨hlater, hlive⟩ := later_collect f hv hitems
      obtain ⟨i₁, hnone⟩ := later_steady i f hlater
      have hspares := spares_collect f hitems
      have hl₁ := hspares.has l _ (fun c hc => by cases hc) hl
      have hall : ∀ x ∈ xs ++ more, s₁.heap.isLive x = true := by
        rw [List.forall_mem_append]
        exact ⟨live_elements i₁ hl₁, hlive⟩
      obtain ⟨s', hs', fr, hlist⟩ :=
        updateList_frame i₁ hl₁ (· ++ more.toArray) (by simpa using hall)
      refine ⟨s', returned_eq_ok (a := s.noneValue) ?_, by simpa using hlist,
        fun v o hne ho hv => ?_⟩
      · refine (get_bind_of_has hl).trans ((bind_of_ok hitems).trans ((bind_of_ok hs').trans ?_))
        exact congrArg (EStateM.Result.ok · s') (fr.noneValue.trans hnone)
      · exact fr.has v o (by simpa using hne) (hspares.has v o (ho ⟨source, rfl⟩) hv)

section Every

variable (i : s.Steady) (f : s.Firm) (hl : s.heap.Has l (.list xs.toArray))
  (hlive : ∀ v ∈ op.handles, s.heap.isLive v = true)

include f hl hlive

/-- An operation on live handles does what its effects say. -/
theorem refines_op (i : s.Steady) : Refines l xs s op := by
  cases op with
  | append v => exact refines_append i hl (hlive v (by simp [ListOp.handles]))
  | insert index v =>
    exact refines_insert i hl (hlive index (by simp [ListOp.handles]))
      (hlive v (by simp [ListOp.handles]))
  | pop index? =>
    refine refines_pop i hl fun index hindex => hlive index ?_
    simp [ListOp.handles, hindex]
  | remove v => exact refines_remove i hl v
  | reverse => exact refines_reverse i hl
  | sort => exact refines_sort i hl
  | extend source => exact refines_extend i f hl (hlive source (by simp [ListOp.handles]))
  | clear => exact refines_clear i hl
  | setItem index v =>
    exact refines_setItem i hl (hlive index (by simp [ListOp.handles]))
      (hlive v (by simp [ListOp.handles]))
  | deleteItem index => exact refines_deleteItem i hl (hlive index (by simp [ListOp.handles]))

/-- Where an operation fails, it has changed nothing. -/
theorem atomic_op : Atomic s (op.run l) := by
  have hmethod : ∀ {m : ListMethod} {args : List Handle},
      Atomic s (listMethod m l xs.toArray args) →
        Atomic s (Operation.returned (runMethod (.list m) l args)) := fun h =>
    atomic_returned fun e s' he => h e s' ((get_bind_of_has hl).symm.trans he)
  cases op with
  | setItem index v => exact atomic_returned (atomic_setItem l index v)
  | deleteItem index => exact atomic_returned (atomic_deleteItem l index)
  | extend source =>
    refine hmethod ?_
    have hv : s.heap.isLive source = true := hlive source (by simp [ListOp.handles])
    obtain ⟨o, ho, -⟩ := f.sound.get? hv
    rcases f.collect_ends ⟨hv, ho⟩ with ⟨-, items, s₁, hitems⟩ | ⟨-, name, herror⟩
    · -- the list is still there, so it is extended
      have hl₁ := (spares_collect f hitems).has l _ (fun c hc => by cases hc) hl
      have hupdate : ∃ s', updateList l (· ++ items) s₁ = .ok () s' :=
        ⟨_, (ask_bind_of_ok (Heap.list_of_get? hl₁.2)).trans (Trust.update_eq hl₁.2 _)⟩
      obtain ⟨s', hs'⟩ := hupdate
      exact Succeeds.atomic ⟨_, s', (bind_of_ok hitems).trans (bind_of_ok hs')⟩
    · intro e s' he
      cases (bind_of_error herror).symm.trans he
      rfl
  | _ => exact hmethod (atomic_listMethod (by simp) l _ _)

/-- An operation that succeeds leads to a later space. -/
theorem later_op (h : op.run l s = .ok r s') : firmTrust.Later s s' := by
  have hreturned : ∀ {α : Type} [Carries α] {act : Action α}, firmTrust.Runs s act →
      Operation.returned act s = .ok r s' → firmTrust.Later s s' := fun hr h => by
    obtain ⟨a, ha, -⟩ := exists_of_returned h
    have hresult := hr.result f
    rw [ha] at hresult
    exact hresult.1
  have hmethod : ∀ {m : ListMethod} {args : List Handle},
      (∀ v ∈ args, s.heap.isLive v = true) →
      Operation.returned (runMethod (.list m) l args) s = .ok r s' → firmTrust.Later s s' :=
    fun hargs => hreturned (Trust.runs_runMethod _ hl.1 hargs)
  cases op with
  | setItem index v =>
    exact hreturned (Trust.runs_setItem hl.1 (hlive index (by simp [ListOp.handles]))
      (hlive v (by simp [ListOp.handles]))) h
  | deleteItem index =>
    exact hreturned (Trust.runs_deleteItem hl.1 (hlive index (by simp [ListOp.handles]))) h
  | _ => exact hmethod hlive h

end Every

/-! ## Runs -/

/-- A turn on live handles keeps all standing. -/
theorem Firm.turn (f : s.Firm) (t : Turn) (ht : ∀ h ∈ t.handles, s.heap.isLive h = true) :
    (t.leave s).Firm := by
  by_cases hc : t.Collects
  · refine ⟨f.toOrdered.leave_collect hc ht, ?_⟩
    exact f.standing.cleared (Turn.leave_collect hc s).1 (f.sound.live_of_collect hc ht)
  · cases t with
    | operation op => exact (Trust.later_leave (T := firmTrust) f op ht).holds
    | collectNow | collectIfDue => exact absurd trivial hc

end Space

/-- Runs of operations on a list, from a run on live handles, and what the list is made by them.
Between the operations there may be turns of any other kind. -/
inductive ListRun (settings : Settings) (disk : Disk) (l : Handle) : Space → List Handle → Prop
  | start {s : Space} {xs : List Handle} : LiveRun settings disk s →
      s.heap.Has l (.list xs.toArray) → ListRun settings disk l s xs
  | success {s s' : Space} {xs r ys : List Handle} {op : ListOp} : ListRun settings disk l s xs →
      (∀ v ∈ op.handles, s.heap.isLive v = true) → op.run l s = .ok r s' →
      op.Effect s xs r ys → ListRun settings disk l s' ys
  | failure {s s' : Space} {xs : List Handle} {op : ListOp} {e : Halt} :
      ListRun settings disk l s xs → (∀ v ∈ op.handles, s.heap.isLive v = true) →
      op.run l s = .error e s' → ListRun settings disk l s' xs
  | turn {s : Space} {xs ys : List Handle} (t : Turn) : ListRun settings disk l s xs →
      (∀ v ∈ t.handles, s.heap.isLive v = true) → (t.leave s).heap.Has l (.list ys.toArray) →
      ListRun settings disk l (t.leave s) ys

namespace ListRun

variable {settings : Settings} {disk : Disk} {s : Space} {l : Handle} {xs : List Handle}

theorem holds (r : ListRun settings disk l s xs) :
    s.Steady ∧ s.Firm ∧ s.heap.Has l (.list xs.toArray) := by
  induction r with
  | start r hl => exact ⟨Space.steady_of_liveRun r, r.firm, hl⟩
  | @success s s' _ r ys op _ hlive hrun heffect ih =>
    obtain ⟨i, f, hl⟩ := ih
    obtain ⟨s₁, hs₁, hleaves⟩ := (Space.refines_op f hl hlive i).complete heffect
    obtain ⟨-, rfl⟩ := EStateM.Result.ok.inj (hs₁.symm.trans hrun)
    have hlater := Space.later_op f hl hlive hrun
    exact ⟨(Space.later_steady i f hlater).1, hlater.holds, hleaves.list⟩
  | failure _ hlive hrun ih =>
    obtain ⟨i, f, hl⟩ := ih
    obtain rfl := Space.atomic_op f hl hlive _ _ hrun
    exact ⟨i, f, hl⟩
  | turn t _ ht hl ih =>
    obtain ⟨i, f, -⟩ := ih
    exact ⟨i.turn t ht, f.turn t ht, hl⟩

end ListRun

/-- **Lists.** In every run of operations on a list, with other turns in between, the list is what
the operations on sequences make of it. An operation on live handles succeeds when it has an effect
and only then; then it gives what the effect says, and no other object has changed but iterators
that an extension has advanced. An operation that fails changes nothing. Extending a list by itself
or by an iterator over it adds the elements that were there before, and sorting permutes the
elements, into their only stable order if they can be sorted. -/
theorem lists_refine {settings : Settings} {disk : Disk} {s : Space} {l : Handle}
    {xs : List Handle} (r : ListRun settings disk l s xs) :
    s.heap.Has l (.list xs.toArray) ∧
    (∀ op : ListOp, (∀ v ∈ op.handles, s.heap.isLive v = true) →
      (∀ r s', op.run l s = .ok r s' → ∃ ys, op.Effect s xs r ys ∧ op.Leaves l ys s s') ∧
      (∀ r ys, op.Effect s xs r ys → ∃ s', op.run l s = .ok r s' ∧ op.Leaves l ys s s') ∧
      ∀ e s', op.run l s = .error e s' → s' = s) ∧
    ((ListOp.extend l).Effect s xs [s.noneValue] (xs ++ xs) ∧
      (∀ it kind j, s.heap.Has it (.iter (.forward l kind j)) →
        (ListOp.extend it).Effect s xs [s.noneValue] (xs ++ xs.drop j)) ∧
      ∀ it j, s.heap.Has it (.iter (.backward l j)) →
        (ListOp.extend it).Effect s xs [s.noneValue] (xs ++ (xs.take j).reverse)) ∧
    (∀ r ys, ListOp.sort.Effect s xs r ys → ys.Perm xs) ∧
    (s.heap.Sortable xs → s.heap.SortsStably xs) := by
  obtain ⟨i, f, hl⟩ := r.holds
  refine ⟨hl, fun op hlive => ⟨fun r s' h => ?_, fun r ys => ?_, ?_⟩, ⟨?_, ?_, ?_⟩, ?_, fun h => ?_⟩
  · have href := Space.refines_op f hl hlive i
    obtain ⟨r', ys, heffect⟩ := href.possible h
    obtain ⟨s₁, hs₁, hleaves⟩ := href.complete heffect
    obtain ⟨rfl, rfl⟩ := EStateM.Result.ok.inj (hs₁.symm.trans h)
    exact ⟨ys, heffect, hleaves⟩
  · exact (Space.refines_op f hl hlive i).complete
  · exact Space.atomic_op f hl hlive
  · exact .extend (.items hl rfl)
  · intro it kind j hit
    obtain ⟨s', h⟩ := Space.elements_forward i hl hit
    exact .extend h
  · intro it j hit
    obtain ⟨s', h⟩ := Space.elements_backward i hl hit
    exact .extend h
  · intro r ys h
    cases h with
    | sort hsort => exact Heap.sort_perm hsort
  · exact Legible.sortsStably f.toOrdered.legible f.toOrdered.readable (i.children hl) h

/-- The list [1] is extended by itself; then 1 is popped at the index 1, and once more, which
fails. -/
theorem lists_refine_pop :
    ∃ s one l s₁ s₂ e, LiveRun {} {} s ∧ s.heap.Has one (.int 1) ∧ s.heap.Has l (.list #[one]) ∧
      (ListOp.extend l).run l s = .ok [s.noneValue] s₁ ∧ s₁.heap.Has l (.list #[one, one]) ∧
      (ListOp.pop (some one)).run l s₁ = .ok [one] s₂ ∧ s₂.heap.Has l (.list #[one]) ∧
      (ListOp.pop (some one)).run l s₂ = .error e s₂ := by
  obtain ⟨s₀, h₀⟩ := Space.create_ok {} rfl {}
  obtain ⟨one, s₀, r₀, -, hone⟩ := LiveRun.newInt (.start h₀) 1
  have hlive : ∀ g ∈ (#[one] : Array Handle).toList, s₀.heap.isLive g = true := by
    simpa using hone.1
  obtain ⟨l, s, r, f, hl⟩ := r₀.newList hlive
  replace hone := f.keep hone
  have run : ListRun {} {} l s [one] := .start r hl
  -- the list is extended
  obtain ⟨-, hops, ⟨hself, -⟩, -⟩ := lists_refine run
  have hl_live : ∀ v ∈ (ListOp.extend l).handles, s.heap.isLive v = true :=
    List.forall_mem_singleton.2 hl.1
  obtain ⟨s₁, hs₁, hleaves₁⟩ := (hops _ hl_live).2.1 _ _ hself
  have run₁ := run.success hl_live hs₁ hself
  have hne : one ≠ l := hone.ne hl nofun
  have hone₁ : s₁.heap.Has one (.int 1) := hleaves₁.others one _ hne (fun _ => nofun) hone
  -- the last element is taken out
  obtain ⟨-, hops₁, -⟩ := lists_refine run₁
  have hlive₁ : ∀ v ∈ (ListOp.pop (some one)).handles, s₁.heap.isLive v = true :=
    List.forall_mem_singleton.2 hone₁.1
  have hpop : (ListOp.pop (some one)).Effect s₁ [one, one] [one] [one] := by
    have hplace : place? 1 2 = some 1 := by decide
    have hindex : ∀ index, some one = some index → s₁.heap.IsNumber index 1 := by
      intro index h
      obtain rfl := Option.some.inj h
      exact ⟨_, 1, hone₁, rfl, rfl⟩
    exact .pop (i := 1) hindex (fun h => by cases h) hplace rfl
  obtain ⟨s₂, hs₂, hleaves₂⟩ := (hops₁ _ hlive₁).2.1 _ _ hpop
  have run₂ := run₁.success hlive₁ hs₂ hpop
  have hone₂ : s₂.heap.Has one (.int 1) := hleaves₂.others one _ hne (fun ⟨_, h⟩ => nomatch h) hone₁
  -- then there is no such place
  obtain ⟨-, hops₂, -⟩ := lists_refine run₂
  have hlive₂ : ∀ v ∈ (ListOp.pop (some one)).handles, s₂.heap.isLive v = true :=
    List.forall_mem_singleton.2 hone₂.1
  obtain ⟨hsound, -, hfail⟩ := hops₂ _ hlive₂
  cases hresult : (ListOp.pop (some one)).run l s₂ with
  | ok r s₃ =>
    obtain ⟨ys, heffect, -⟩ := hsound r s₃ hresult
    cases heffect with
    | @pop _ n i x hn _ hi _ =>
      obtain ⟨o, m, ho, hm, rfl⟩ := hn one rfl
      obtain rfl := hone₂.unique ho
      obtain rfl := Option.some.inj hm
      cases hi
  | error e s₃ =>
    obtain rfl := hfail e s₃ hresult
    exact ⟨s, one, l, s₁, s₃, e, r, hone, hl, hs₁, hleaves₁.list, hs₂, hleaves₂.list, hresult⟩

end ObjectSpace

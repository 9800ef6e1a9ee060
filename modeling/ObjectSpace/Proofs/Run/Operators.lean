import ObjectSpace.Arithmetic
import ObjectSpace.Attributes
import ObjectSpace.Items
import ObjectSpace.Names
import ObjectSpace.Proofs.Run.Containers

/-!
# Names, attributes, items and operators under a trust
-/

namespace ObjectSpace.Trust

variable {T : Trust} {s : Space} {c v a b : Handle}

/-! ## Contexts and names -/

theorem ok_context {k : Context} : T.Ok s k ↔ (∀ h, some h ∈ k.slots.toList → T.ok s.heap h) ∧
    (∀ h ∈ k.names.handles, T.ok s.heap h) ∧ ∀ p, k.parent = some p → T.ok s.heap p := by
  simp only [Ok, Carries.handles, Context.children, List.mem_append, List.mem_filterMap, id,
    Option.mem_toList, or_imp, forall_and, and_assoc, exists_eq_right]

theorem asks_outermostWithin (n : Nat) (hc : T.ok s.heap c) :
    T.Asks s (Heap.outermostWithin n c) := by
  induction n generalizing c with
  | zero => exact asks_violate fun _ => trivial
  | succ n ih =>
    refine asks_bind (asks_context hc) fun k hk => ?_
    split
    · rename_i p hp
      exact ih ((ok_context.1 hk).2.2 p hp)
    · exact asks_pure ((ok_handle c).2 hc)

theorem mem_handles_of_get? {b : Bindings} {name : String} {h : Handle}
    (hh : b.get? name = some h) : h ∈ b.handles :=
  List.mem_map.2 ⟨_, mem_of_lookup hh, rfl⟩

theorem asks_findNameWithin (n : Nat) (name : String) (hc : T.ok s.heap c) :
    T.Asks s (Heap.findNameWithin n c name) := by
  induction n generalizing c with
  | zero => exact asks_violate fun _ => trivial
  | succ n ih =>
    refine asks_bind (asks_context hc) fun k hk => ?_
    have hk := ok_context.1 hk
    split
    · rename_i w hw
      exact asks_pure ((ok_some w).2 ((ok_handle w).2 (hk.2.1 w (mem_handles_of_get? hw))))
    · split
      · rename_i p hp
        exact ih (hk.2.2 p hp)
      · exact asks_pure ok_none

theorem ok_globals (hs : T.holds s) {g : Handle} (hg : s.globals = some g) : T.ok s.heap g :=
  T.root hs (by simp [Space.permanentRoots, hg])

theorem asks_searchStart (name : String) (hc : T.ok s.heap c) :
    T.Asks s (Heap.searchStart s.globals c name) := by
  refine asks_of_holds fun hs => asks_bind (asks_context hc) fun k hk =>
    asks_ite (fun _ => ?_) fun _ => ?_
  · split
    · rename_i g hg
      exact asks_pure ((ok_handle g).2 (ok_globals hs hg))
    · exact asks_bind asks_depth fun n _ => asks_outermostWithin n hc
  · exact asks_pure ((ok_handle c).2 hc)

theorem asks_load (index : Nat) (hc : T.ok s.heap c) : T.Asks s (Heap.load c index) := by
  refine asks_bind (asks_context hc) fun k hk => ?_
  split
  · rename_i w hw
    refine asks_pure ((ok_handle w).2 ((ok_context.1 hk).1 w ?_))
    exact Array.mem_toList_iff.2 (Array.mem_of_getElem? hw)
  · exact asks_fatal _

theorem asks_parentContext (hc : T.ok s.heap c) : T.Asks s (Heap.parentContext c) := by
  refine asks_bind (asks_context hc) fun k hk => asks_pure (ok_option.2 fun p hp => ?_)
  exact (ok_handle p).2 ((ok_context.1 hk).2.2 p hp)

theorem runs_newContext {parent : Option Handle} (slots : Nat)
    (hp : ∀ p, parent = some p → T.ok s.heap p) : T.Runs s (Space.newContext parent slots) := by
  refine runs_alloc trivial fun h hh => ?_
  refine ok_context.2 ⟨fun w hw => ?_, fun w hw => ?_, hp⟩ h hh
  · simp at hw
  · simp [Bindings.handles] at hw

theorem runs_updateContext {f : Context → Context} (hc : T.ok s.heap c)
    (hf : ∀ k, T.Ok s k → (f k).parent = k.parent ∧ T.Ok s (f k)) :
    T.Runs s (Space.updateContext c f) := by
  refine runs_ask_bind (asks_context hc) fun _ _ _ => runs_update hc fun o _ hok => ?_
  split
  · obtain ⟨hparent, hok⟩ := hf _ ((ok_contextObject _).1 hok)
    exact ⟨.context hparent, (ok_contextObject _).2 hok⟩
  · exact ⟨.same _, hok⟩

theorem runs_store (index : Nat) (hc : T.ok s.heap c) (hv : T.ok s.heap v) :
    T.Runs s (Space.store c index v) := by
  refine runs_updateContext hc fun k hk => ⟨rfl, ok_context.2 ?_⟩
  have hk := ok_context.1 hk
  refine ⟨fun h hh => ?_, hk.2⟩
  dsimp only at hh
  rw [Array.toList_setIfInBounds] at hh
  rcases List.mem_or_eq_of_mem_set hh with hh | he
  · rw [Array.toList_append, List.mem_append] at hh
    rcases hh with hh | hh
    · exact hk.1 h hh
    · simp at hh
  · exact (Option.some.inj he) ▸ hv

theorem runs_declareGlobal (name : String) (hc : T.ok s.heap c) :
    T.Runs s (Space.declareGlobal c name) :=
  runs_updateContext hc fun _ hk => ⟨rfl, hk⟩

theorem runs_storeName (name : String) (hc : T.ok s.heap c) (hv : T.ok s.heap v) :
    T.Runs s (Space.storeName c name v) := by
  refine runs_get_bind (runs_ask_bind (asks_searchStart name hc) fun target _ ht => ?_)
  refine runs_updateContext ((ok_handle target).1 ht) fun k hk => ⟨rfl, ok_context.2 ?_⟩
  have hk := ok_context.1 hk
  refine ⟨hk.1, fun h hh => ?_, hk.2.2⟩
  rcases mem_handles_set hh with rfl | hh
  · exact hv
  · exact hk.2.1 h hh

theorem runs_loadName (name : String) (hc : T.ok s.heap c) :
    T.Runs s (Space.loadName c name) := by
  refine runs_get_bind (runs_ask_bind (asks_searchStart name hc) fun start _ hstart => ?_)
  refine runs_ask_bind asks_depth fun n _ _ => ?_
  refine runs_ask_bind (asks_findNameWithin n name ((ok_handle start).1 hstart)) fun r _ hr => ?_
  cases r with
  | some w => exact runs_pure ((ok_some w).1 hr)
  | none => exact runs_fatal _

/-! ## Attributes -/

theorem asks_isFunction (hv : T.ok s.heap v) : T.Asks s (Heap.isFunction v) := by
  refine asks_bind (asks_get hv) fun o _ => ?_
  split <;> exact asks_pure (ok_plain _)

theorem asks_unknownAttribute {α : Type} [Carries α] (name : String) (hv : T.ok s.heap v) :
    T.Asks s (Heap.unknownAttribute v name : Query α) :=
  asks_bind (asks_typeName hv) fun _ _ => asks_fatal _

theorem runs_typeOf (hv : T.ok s.heap v) : T.Runs s (Space.typeOf v) := by
  refine runs_ask_bind (asks_get hv) fun o _ ho => ?_
  split
  · exact runs_pure ((ok_handle _).2 ((ok_instanceObject _ _).1 ho).1)
  · split
    · exact runs_typeObject _
    · exact runs_violate fun _ => trivial

theorem runs_bindMember {member : Handle} (hv : T.ok s.heap v) (hm : T.ok s.heap member) :
    T.Runs s (Space.bindMember v member) := by
  refine runs_ask_bind (asks_isFunction hm) fun f _ _ => runs_ite (fun _ => ?_) fun _ => ?_
  · exact runs_newBoundMethod hv hm
  · exact runs_pure ((ok_handle member).2 hm)

theorem runs_builtinMethod (name : String) (o : Object) (hv : T.ok s.heap v) :
    T.Runs s (Space.builtinMethod v name o) := by
  unfold Space.builtinMethod
  split
  · refine runs_bind (runs_methodFunction _) fun f s' l hf => ?_
    exact runs_newBoundMethod (l.ok_mono v hv) ((ok_handle f).1 hf)
  · exact runs_ask (asks_unknownAttribute name hv)

theorem runs_getAttribute (name : String) (hv : T.ok s.heap v) :
    T.Runs s (Space.getAttribute v name) := by
  refine runs_ite (fun _ => runs_typeOf hv) fun _ => runs_ask_bind (asks_get hv) fun o _ ho => ?_
  split
  case h_1 cls attributes =>
    rw [ok_instanceObject] at ho
    split
    · rename_i w hw
      exact runs_pure ((ok_handle w).2 (ho.2 w (mem_handles_of_get? hw)))
    · refine runs_ask_bind (asks_get ho.1) fun p _ hp => ?_
      split
      · split
        · rename_i member hm
          exact runs_bindMember hv ((ok_classObject _ _).1 hp member (mem_handles_of_get? hm))
        · exact runs_ask (asks_unknownAttribute name hv)
      · exact runs_ask (asks_unknownAttribute name hv)
  case h_2 className members =>
    refine runs_ite (fun _ => runs_newStr _) fun _ => ?_
    split
    · rename_i member hm
      exact runs_pure ((ok_handle member).2
        ((ok_classObject _ _).1 ho member (mem_handles_of_get? hm)))
    · exact runs_ask (asks_unknownAttribute name hv)
  case h_3 k =>
    refine runs_ite (fun _ => runs_newStr _) fun _ => ?_
    split
    · exact runs_methodFunction _
    · exact runs_ask (asks_unknownAttribute name hv)
  case h_4 label entry =>
    refine runs_ite (fun _ => ?_) fun _ => runs_ask (asks_unknownAttribute name hv)
    split <;> exact runs_newStr _
  case h_5 => exact runs_builtinMethod name _ hv

theorem runs_setAttribute {value : Handle} (name : String) (hv : T.ok s.heap v)
    (hw : T.ok s.heap value) : T.Runs s (Space.setAttribute v name value) := by
  refine runs_ask_bind (asks_get hv) fun o _ _ => runs_ite (fun _ => ?_) fun _ => ?_
  · exact runs_ask (asks_unimplemented _ hv)
  · refine runs_update hv fun o _ hok => ?_
    split
    · rw [ok_instanceObject] at hok
      refine ⟨.attribute _ _ name value, (ok_instanceObject _ _).2 ⟨hok.1, ?_⟩⟩
      intro h hh
      rcases mem_handles_set hh with rfl | hh
      · exact hw
      · exact hok.2 h hh
    · rw [ok_classObject] at hok
      refine ⟨.member _ _ name value, (ok_classObject _ _).2 fun h hh => ?_⟩
      rcases mem_handles_set hh with rfl | hh
      · exact hw
      · exact hok h hh
    · exact ⟨.same _, hok⟩

/-! ## Items and slices -/

theorem asks_indexArgument (operation : String) (ha : T.ok s.heap a) (hb : T.ok s.heap b) :
    T.Asks s (Heap.indexArgument a b operation) := by
  refine asks_bind (asks_asInt? hb) fun i? _ => ?_
  split
  · exact asks_pure (ok_plain _)
  · exact asks_unsupported _ ha hb

theorem asks_sliceBound {noneValue : Handle} {bound : Option Handle} (hb : T.Ok s bound) :
    T.Asks s (Heap.sliceBound noneValue bound) := by
  cases bound with
  | none => exact asks_pure (ok_plain _)
  | some w =>
    refine asks_ite (fun _ => asks_pure (ok_plain _)) fun _ => ?_
    exact asks_bind (asks_expectInt _ ((ok_handle w).1 ((ok_some w).1 hb))) fun _ _ =>
      asks_pure (ok_plain _)

/-- The place of an index. -/
theorem runs_index (operation type : String) (length : Nat) (ha : T.ok s.heap a)
    (hb : T.ok s.heap b) :
    T.Runs s (do
      let i ← liftM (Heap.indexArgument a b operation)
      liftM (normalizeIndex i length type) : Action Nat) :=
  runs_ask_bind (asks_indexArgument operation ha hb) fun _ _ _ =>
    runs_check_plain _

theorem ok_getD {items : Array Handle} (hi : T.Ok s items) (hv : T.ok s.heap v) (i : Nat) :
    T.Ok s (items.getD i v) := by
  rw [Array.getD_eq_getD_getElem?]
  cases hx : items[i]? with
  | none => exact (ok_handle v).2 hv
  | some x => exact (ok_array items).1 hi x (mem_of_getElem? hx)

theorem runs_getItem (ha : T.ok s.heap a) (hb : T.ok s.heap b) :
    T.Runs s (Space.getItem a b) := by
  refine runs_ask_bind (asks_get ha) fun o _ ho => ?_
  split
  case h_1 items =>
    exact runs_bind (runs_index _ _ _ ha hb) fun i s' l _ => runs_pure
      (ok_getD (l.ok ((ok_listObject _).1 ho)) (l.ok_mono a ha) i)
  case h_2 items =>
    exact runs_bind (runs_index _ _ _ ha hb) fun i s' l _ => runs_pure
      (ok_getD (l.ok ((ok_tupleObject _).1 ho)) (l.ok_mono a ha) i)
  case h_3 => exact runs_bind (runs_index _ _ _ ha hb) fun _ _ _ _ => runs_newStr _
  case h_4 => exact runs_bind (runs_index _ _ _ ha hb) fun _ _ _ _ => runs_newInt _
  case h_5 => exact runs_bind (runs_index _ _ _ ha hb) fun _ _ _ _ => runs_newInt _
  case h_6 => exact runs_ask (asks_dictGet ha hb)
  case h_7 => exact runs_ask (asks_unimplemented _ ha)

/-- A change of a list that brings in only `ok` handles. -/
theorem runs_updateList {f : Array Handle → Array Handle} (hv : T.ok s.heap v)
    (hf : ∀ items, T.Ok s items → T.Ok s (f items)) : T.Runs s (Space.updateList v f) := by
  refine runs_ask_bind (asks_list hv) fun _ _ _ => runs_update hv fun o _ hok => ?_
  split
  · exact ⟨.list _ _, (ok_listObject _).2 (hf _ ((ok_listObject _).1 hok))⟩
  · exact ⟨.same _, hok⟩

/-- The elements of `ys` are all from `xs`. -/
theorem ok_of_subset {xs ys : Array Handle} (h : ∀ x ∈ ys, x ∈ xs) (hx : T.Ok s xs) :
    T.Ok s ys := by
  rw [ok_array] at hx ⊢
  exact fun y hy => hx y (Array.mem_toList_iff.2 (h y (Array.mem_toList_iff.1 hy)))

theorem ok_setIfInBounds {items : Array Handle} {w : Handle} (hi : T.Ok s items)
    (hw : T.ok s.heap w) (i : Nat) : T.Ok s (items.setIfInBounds i w) := by
  rw [ok_array] at hi ⊢
  intro x hx
  rw [Array.toList_setIfInBounds] at hx
  rcases List.mem_or_eq_of_mem_set hx with hx | rfl
  · exact hi x hx
  · exact (ok_handle x).2 hw

theorem ok_eraseIdxIfInBounds {items : Array Handle} (hi : T.Ok s items) (i : Nat) :
    T.Ok s (items.eraseIdxIfInBounds i) := by
  refine ok_of_subset (fun x hx => ?_) hi
  unfold Array.eraseIdxIfInBounds at hx
  split at hx
  · exact Array.mem_of_mem_eraseIdx hx
  · exact hx

theorem runs_setItem {value : Handle} (ha : T.ok s.heap a) (hb : T.ok s.heap b)
    (hv : T.ok s.heap value) : T.Runs s (Space.setItem a b value) := by
  refine runs_ask_bind (asks_get ha) fun o _ ho => ?_
  split
  · refine runs_ask_bind (asks_indexArgument _ ha hb) fun _ _ _ => runs_check_bind fun i _ => ?_
    exact runs_updateList ha fun items hi => ok_setIfInBounds hi hv i
  · exact runs_dictInsert ha hb hv
  · exact runs_ask (asks_unimplemented _ ha)

theorem runs_deleteItem (ha : T.ok s.heap a) (hb : T.ok s.heap b) :
    T.Runs s (Space.deleteItem a b) := by
  refine runs_ask_bind (asks_get ha) fun o _ ho => ?_
  split
  · refine runs_ask_bind (asks_indexArgument _ ha hb) fun _ _ _ => runs_check_bind fun i _ => ?_
    exact runs_updateList ha fun items hi => ok_eraseIdxIfInBounds hi i
  · refine runs_bind (runs_dictRemove ha hb) fun r s' l _ => ?_
    cases r with
    | some w => exact runs_pure (ok_plain _)
    | none => exact runs_ask (asks_keyNotFound (l.ok_mono b hb))
  · exact runs_ask (asks_unimplemented _ ha)

theorem ok_pick {items : Array Handle} (hi : T.Ok s items) (sl : Slice) :
    T.Ok s (sl.pick items) := by
  refine ok_of_subset (fun x hx => ?_) hi
  simp only [Slice.pick, List.mem_toArray, List.mem_filterMap] at hx
  obtain ⟨i, -, hx⟩ := hx
  exact Array.mem_of_getElem? hx

theorem runs_slice {start stop step : Option Handle} (ha : T.ok s.heap a) (h₁ : T.Ok s start)
    (h₂ : T.Ok s stop) (h₃ : T.Ok s step) : T.Runs s (Space.slice a start stop step) := by
  refine runs_get_bind ?_
  refine runs_ask_bind (asks_sliceBound h₁) fun i _ _ => ?_
  refine runs_ask_bind (asks_sliceBound h₂) fun j _ _ => ?_
  refine runs_ask_bind (asks_sliceBound h₃) fun k _ _ => ?_
  refine runs_ask_bind (asks_get ha) fun o _ ho => ?_
  split
  case h_1 => exact runs_check_bind fun sl _ => runs_newList (ok_pick (by simpa using ho) sl)
  case h_2 => exact runs_check_bind fun sl _ => runs_newTuple (ok_pick (by simpa using ho) sl)
  case h_3 => exact runs_check_bind fun sl _ => runs_newStr _
  case h_4 => exact runs_check_bind fun sl _ => runs_newBytes _
  case h_5 =>
    exact runs_check_bind fun sl _ => runs_check_bind fun _ _ => runs_newRange _ _ _
  case h_6 => exact runs_ask (asks_unimplemented _ ha)

/-! ## Operators -/

/-- A repetition has no elements but those of the sequence. -/
theorem mem_of_mem_repeatArray {items l : Array Handle} {size : Nat} {n : Int64}
    (h : repeatArray items size n = .ok l) {x : Handle} (hx : x ∈ l) : x ∈ items := by
  unfold repeatArray at h
  cases hr : repeatedLength items.size size n with
  | error d =>
    rw [hr] at h
    cases h
  | ok k =>
    rw [hr] at h
    obtain rfl := Except.ok.inj h
    split at hx
    · simp at hx
    · simp only [Array.mem_flatten, Array.mem_replicate] at hx
      obtain ⟨xs, ⟨-, rfl⟩, hx⟩ := hx
      exact hx

/-- A part of a diagnostic computation that succeeds. -/
theorem map_eq_ok {α β : Type} {e : Except Diagnostic α} {f : α → β} {b : β}
    (h : e.map f = .ok b) : ∃ a, e = .ok a ∧ f a = b := by
  cases e with
  | ok a => exact ⟨a, rfl, Except.ok.inj h⟩
  | error d => cases h

theorem repeated?_ok {x o : Object} {n : Int64} (hx : T.Ok s x)
    (h : x.repeated? n = some (.ok o)) : Placeable T.ok s.heap o ∧ T.Ok s o := by
  unfold Object.repeated? at h
  split at h
  case h_1 =>
    obtain ⟨t, -, rfl⟩ := map_eq_ok (Option.some.inj h)
    exact ⟨trivial, nofun⟩
  case h_2 =>
    obtain ⟨t, -, rfl⟩ := map_eq_ok (Option.some.inj h)
    exact ⟨trivial, nofun⟩
  case h_3 items =>
    obtain ⟨l, hl, rfl⟩ := map_eq_ok (Option.some.inj h)
    refine ⟨trivial, (ok_listObject l).2 (ok_of_subset (fun x hx => ?_) ((ok_listObject _).1 hx))⟩
    exact mem_of_mem_repeatArray hl hx
  case h_4 items =>
    obtain ⟨l, hl, rfl⟩ := map_eq_ok (Option.some.inj h)
    refine ⟨trivial,
      (ok_tupleObject l).2 (ok_of_subset (fun x hx => ?_) ((ok_tupleObject _).1 hx))⟩
    exact mem_of_mem_repeatArray hl hx
  case h_5 => cases h

theorem ok_append {xs ys : Array Handle} (hx : T.Ok s xs) (hy : T.Ok s ys) :
    T.Ok s (xs ++ ys) := by
  rw [ok_array] at hx hy ⊢
  intro x hm
  rw [Array.toList_append, List.mem_append] at hm
  exact hm.elim (hx x) (hy x)

/-- Joining and repeating sequences makes a new value of the elements of the old ones. -/
theorem sequenceBinary?_ok {op : BinaryOp} {x y o : Object} (hx : T.Ok s x) (hy : T.Ok s y)
    (h : Object.sequenceBinary? op x y = some (.ok o)) : Placeable T.ok s.heap o ∧ T.Ok s o := by
  unfold Object.sequenceBinary? at h
  split at h
  case h_1 =>
    split at h <;> simp only [Option.some.injEq, Except.ok.injEq, reduceCtorEq] at h <;> subst h
    case h_1 | h_2 => exact ⟨trivial, nofun⟩
    case h_3 =>
      exact ⟨trivial, (ok_listObject _).2
        (ok_append ((ok_listObject _).1 hx) ((ok_listObject _).1 hy))⟩
    case h_4 =>
      exact ⟨trivial, (ok_tupleObject _).2
        (ok_append ((ok_tupleObject _).1 hx) ((ok_tupleObject _).1 hy))⟩
  case h_2 =>
    split at h
    · exact repeated?_ok hx h
    · exact repeated?_ok hy h
    · cases h
  case h_3 => cases h

theorem asks_select {test : Handle → Query Bool} {wanted : Bool} {items : List Handle}
    (hi : ∀ x ∈ items, T.ok s.heap x) (ht : ∀ x ∈ items, T.Asks s (test x)) :
    T.Asks s (Heap.select test wanted items) :=
  asks_filterM (by simpa using hi) fun x hx =>
    asks_bind (ht x hx) fun _ _ => asks_pure (ok_plain _)

theorem asks_setMembers (op : BinaryOp) (ha : T.ok s.heap a) (hb : T.ok s.heap b) :
    T.Asks s (Heap.setMembers op a b) := by
  refine asks_bind (asks_set ha) fun t ht => asks_bind (asks_set hb) fun u hu => ?_
  simp only [ok_table, ok_handle] at ht hu
  have hin := fun x hx => asks_setContains hb (ht x hx)
  split
  case h_1 =>
    refine asks_pure ((ok_some _).2 ((ok_list _).2 fun x hx => (ok_handle x).2 ?_))
    exact (List.mem_append.1 hx).elim (ht x) (hu x)
  case h_2 | h_3 =>
    exact asks_bind (asks_select ht hin) fun kept hk => asks_pure ((ok_some kept).2 hk)
  case h_4 =>
    refine asks_bind (asks_select ht hin) fun kept hk => ?_
    refine asks_bind (asks_select hu fun x hx => asks_setContains ha (hu x hx)) fun more hm => ?_
    refine asks_pure ((ok_some _).2 ((ok_list _).2 fun x hx => ?_))
    exact (List.mem_append.1 hx).elim ((ok_list _).1 hk x) ((ok_list _).1 hm x)
  case h_5 => exact asks_pure ok_none

theorem runs_integerBinary (op : BinaryOp) (i j : Int64) (bothBool : Bool)
    (ha : T.ok s.heap a) (hb : T.ok s.heap b) :
    T.Runs s (Space.integerBinary op a b i j bothBool) := by
  unfold Space.integerBinary
  split
  · exact runs_ask (asks_unsupported _ ha hb)
  · exact runs_check_bind fun n _ =>
      runs_ite (fun _ => runs_boolean _) fun _ => runs_newInt n

theorem runs_binary (op : BinaryOp) (ha : T.ok s.heap a) (hb : T.ok s.heap b) :
    T.Runs s (Space.binary op a b) := by
  refine runs_ask_bind (asks_get ha) fun x _ hx => runs_ask_bind (asks_get hb) fun y _ hy => ?_
  split
  · exact runs_integerBinary _ _ _ _ ha hb
  · split
    · rename_i result hresult
      refine runs_check_bind fun o ho => ?_
      obtain ⟨hp, hok⟩ := sequenceBinary?_ok hx hy (ho ▸ hresult)
      exact runs_alloc hp hok
    · split
      · exact runs_ask_bind (asks_percentFormat _ hb) fun _ _ _ => runs_newStr _
      · refine runs_ask_bind (asks_setMembers _ ha hb) fun members _ hm => ?_
        split
        · exact runs_newSet (by simpa using hm)
        · exact runs_ask (asks_unsupported _ ha hb)
      · exact runs_ask (asks_unsupported _ ha hb)

theorem runs_unary (op : UnaryOp) (hv : T.ok s.heap v) : T.Runs s (Space.unary op v) := by
  unfold Space.unary
  split
  · exact runs_ask_bind (asks_truthy hv) fun _ _ _ => runs_boolean _
  · refine runs_ask_bind (asks_asInt? hv) fun n? _ _ => ?_
    split
    · exact runs_ask (asks_unimplemented _ hv)
    · split
      · exact runs_check_bind fun n _ => runs_newInt n
      all_goals exact runs_newInt _

theorem runs_compare (op : Comparison) (ha : T.ok s.heap a) (hb : T.ok s.heap b) :
    T.Runs s (Space.compare op a b) :=
  runs_ask_bind (asks_compares op ha hb) fun _ _ _ => runs_boolean _

theorem runs_contains (ha : T.ok s.heap a) (hb : T.ok s.heap b) :
    T.Runs s (Space.contains a b) :=
  runs_ask_bind (asks_contains ha hb) fun _ _ _ => runs_boolean _

theorem runs_notContains (ha : T.ok s.heap a) (hb : T.ok s.heap b) :
    T.Runs s (Space.notContains a b) :=
  runs_ask_bind (asks_contains ha hb) fun _ _ _ => runs_boolean _

end ObjectSpace.Trust

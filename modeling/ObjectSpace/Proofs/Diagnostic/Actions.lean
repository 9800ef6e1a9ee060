import ObjectSpace.Startup
import ObjectSpace.Proofs.Diagnostic.Checks
import ObjectSpace.Proofs.Diagnostic.Queries

/-!
# Diagnostics of actions

Making and changing values, iterating, operators, items, attributes and names. None of these quotes
a text of its own accord: a missing name or attribute is shown as a name that was asked for, and
the operator that fills a format quotes what the query for it quotes.
-/

namespace ObjectSpace.Space

variable {S : Sources} {s : Space} {α β : Type} {v w a b d u it key : Handle} {name : String}

/-! ## Checks and permanent values -/

namespace Raises

variable {e : Except Diagnostic α} {f : α → Action β}

/-- A check that quotes nothing. -/
protected theorem lined (he : Lined e) : Raises S s (liftM e : Action α) :=
  .check fun _ h => he.accounts h

protected theorem lined_bind (he : Lined e) (hf : ∀ a, Raises S s (f a)) :
    Raises S s ((liftM e : Action α) >>= f) :=
  .check_bind (fun _ h => he.accounts h) fun a _ => hf a

/-- A diagnostic of a single line. -/
protected theorem reason {d : Diagnostic} {t : String} (hd : d.fields = [t]) (ht : OneLine t) :
    Raises S s (fatal d : Action α) := .fatal (.field hd (.line ht))

end Raises

theorem raises_nothing : Raises S s nothing := .state_bind (.pure _)

theorem raises_boolean (b : Bool) : Raises S s (boolean b) := .state_bind (.pure _)

theorem raises_isNone (v : Handle) : Raises S s (isNone v) := .state_bind (.pure _)

theorem raises_typeObject (k : Kind) : Raises S s (typeObject k) := .state_bind (.pure _)

theorem raises_methodFunction (m : Method) : Raises S s (methodFunction m) :=
  .state_bind (.pure _)

theorem raises_internInt (n : Int64) : Raises S s (internInt n) := .state_bind <| by
  split
  · exact .pure _
  · exact .bind (.alloc _) fun _ _ _ => .bind (.of_ok rfl) fun _ _ _ => .pure _

theorem raises_internStr (text : String) : Raises S s (internStr text) := .state_bind <| by
  split
  · exact .pure _
  · exact .bind (.alloc _) fun _ _ _ => .bind (.of_ok rfl) fun _ _ _ => .pure _

theorem raises_newCount (hn : OneLine name) (n : Nat) : Raises S s (newCount name n) :=
  .lined_bind (Integer.lined_checked hn _) fun _ => .alloc _

theorem raises_newRange (start stop step : Int64) : Raises S s (newRange start stop step) := by
  unfold newRange
  split
  · exact .reason rfl (.ofList rfl)
  · exact .alloc _

/-! ## Iteration -/

theorem raises_iter (v : Handle) : Raises S s (iter v) := .get_bind fun o _ => by
  split
  · exact .pure _
  · split
    · exact .alloc _
    · exact .mention (Heap.writes_typeName v) fun _ => rfl

theorem raises_reversed (v : Handle) : Raises S s (reversed v) := .get_bind fun o _ => by
  split
  · exact .alloc _
  · exact .mention (Heap.writes_typeName v) fun _ => rfl

theorem raises_emit (y : Yield) : Raises S s (emit y) := by
  cases y with
  | handle h => exact .pure _
  | int | str | pair => exact .alloc _
  | numbered n h => exact .bind (.alloc _) fun _ _ _ => .alloc _

theorem raises_step (c : Cursor) : s.heap.Raises S c.step := by
  cases c with
  | forward u k position =>
    refine .get_bind fun o _ => .inRange ?_
    split <;> exact .pure _
  | backward u position =>
    refine .get_bind fun o _ => .inRange ?_
    split <;> exact .pure _
  | range => exact .ite (fun _ => .pure _) fun _ => .pure _
  | entries d =>
    refine .ite (fun _ => .pure _) fun _ => .bind (.dict d) fun t _ => ?_
    split <;> exact .pure _
  | members u =>
    refine .ite (fun _ => .pure _) fun _ => .bind (.set u) fun t _ => ?_
    split <;> exact .pure _
  | enumerate | zip => exact .pure _

theorem raises_cursor (it : Handle) : s.heap.Raises S (Heap.cursor it) := .get_bind fun o _ => by
  split
  · exact .pure _
  · exact Heap.raises_unimplemented (.ofList rfl) it

/-- By induction on how deep iterators draw on others. -/
theorem raises_nextWithin (n : Nat) (it : Handle) : Raises S s (nextWithin n it) := by
  induction n generalizing s it with
  | zero => exact .violate _
  | succ n ih =>
    refine .ask_bind (raises_cursor it) fun c _ => ?_
    extract_lets move
    have hmove (s : Space) (r : Option Yield × Cursor) : Raises S s (move r) :=
      .bind (.update _ _) fun _ _ _ => .optionMapM raises_emit _
    clear_value move
    split
    · refine .bind (ih _) fun r s' _ => ?_
      cases r <;> exact .pure_bind (hmove _ _)
    · refine .bind (ih _) fun r s' _ => ?_
      cases r with
      | none => exact .pure_bind (hmove _ _)
      | some a =>
        refine .bind (ih _) fun r s' _ => ?_
        cases r <;> exact .pure_bind (hmove _ _)
    · exact .ask_bind (raises_step _) fun r _ => hmove _ r

theorem raises_next (it : Handle) : Raises S s (next it) :=
  .ask_bind .depth fun n _ => raises_nextWithin n it

theorem raises_drain (n : Nat) (it : Handle) (done : Array Handle) :
    Raises S s (drain it done n) := by
  induction n generalizing s done with
  | zero => exact .violate _
  | succ n ih =>
    refine .bind (raises_next it) fun r s' _ => ?_
    cases r with
    | none => exact .pure _
    | some v => exact ih _

theorem raises_stepsWithin (n : Nat) (it : Handle) : s.heap.Raises S (Heap.stepsWithin n it) := by
  induction n generalizing it with
  | zero => exact .violate _
  | succ n ih =>
    refine .bind (raises_cursor it) fun c _ => ?_
    cases c with
    | forward u | backward u => exact .get_bind fun _ _ => .pure _
    | range => exact .pure _
    | entries d => exact .ite (fun _ => .pure _) fun _ => .bind (.dict d) fun _ _ => .pure _
    | members u => exact .ite (fun _ => .pure _) fun _ => .bind (.set u) fun _ _ => .pure _
    | enumerate inner => exact ih inner
    | zip left => exact ih left

theorem raises_collect (v : Handle) : Raises S s (collect v) := .get_bind fun o _ => by
  split
  case h_4 =>
    refine .bind (raises_iter v) fun it s' _ => .ask_bind .depth fun n _ => ?_
    exact .ask_bind (raises_stepsWithin n it) fun _ _ => raises_drain _ it _
  all_goals exact .pure _

/-! ## Containers -/

theorem raises_updateDict (d : Handle) (f : Table (Handle × Handle) → Table (Handle × Handle)) :
    Raises S s (updateDict d f) := .ask_bind (.dict d) fun _ _ => .update _ _

theorem raises_updateSet (u : Handle) (f : Table Handle → Table Handle) :
    Raises S s (updateSet u f) := .ask_bind (.set u) fun _ _ => .update _ _

theorem raises_updateList (l : Handle) (f : Array Handle → Array Handle) :
    Raises S s (updateList l f) := by
  refine .ask_bind (.get_bind fun o _ => ?_) fun _ _ => .update _ _
  split
  · exact .pure _
  · exact .violate _

theorem raises_dictInsert (d key value : Handle) : Raises S s (dictInsert d key value) :=
  .ask_bind (Heap.raises_dictPlace d key) fun (h, place) _ => by
    cases place <;> exact raises_updateDict d _

theorem raises_dictRemove (d key : Handle) : Raises S s (dictRemove d key) :=
  .ask_bind (Heap.raises_dictPlace d key) fun (h, place) _ => by
    cases place with
    | none => exact .pure _
    | some i =>
      exact .ask_bind (.dict d) fun _ _ => .bind (raises_updateDict d _) fun _ _ _ => .pure _

theorem raises_setInsert (u v : Handle) : Raises S s (setInsert u v) :=
  .ask_bind (Heap.raises_setPlace u v) fun (h, place) _ => by
    cases place with
    | none => exact .bind (raises_updateSet u _) fun _ _ _ => .pure _
    | some i => exact .pure _

theorem raises_setRemove (u v : Handle) : Raises S s (setRemove u v) :=
  .ask_bind (Heap.raises_setPlace u v) fun (h, place) _ => by
    cases place with
    | none => exact .pure _
    | some i => exact .bind (raises_updateSet u _) fun _ _ _ => .pure _

theorem raises_insertPairs (d : Handle) (pairs : List (Handle × Handle)) :
    Raises S s (insertPairs d pairs) := .forM (fun (k, v) _ => raises_dictInsert d k v) pairs

theorem raises_newDict (pairs : List (Handle × Handle)) : Raises S s (newDict pairs) :=
  .bind (.alloc _) fun d _ _ => .bind (raises_insertPairs d pairs) fun _ _ _ => .pure _

theorem raises_newSet (items : List Handle) : Raises S s (newSet items) :=
  .bind (.alloc _) fun u _ _ =>
    .bind (.forM (fun v _ => .bind (raises_setInsert u v) fun _ _ _ => .pure _) items)
      fun _ _ _ => .pure _

theorem raises_pairOf (item : Handle) : s.heap.Raises S (pairOf item) := .get_bind fun o _ => by
  split
  · exact .pure _
  · refine .bind ((Heap.writes_repr item).raises S) fun t ht => .fatal (.field rfl ?_)
    exact ((Heap.writes_repr item).shown ht).between (.ofList rfl) (.ofList rfl)

theorem raises_pairsOf (source : Handle) : Raises S s (pairsOf source) := .get_bind fun o _ => by
  split
  · exact .pure _
  · exact .bind (raises_collect source) fun _ _ _ =>
      .mapM (fun item _ => .ask (raises_pairOf item)) _

theorem raises_dictUpdate (d source : Handle) : Raises S s (dictUpdate d source) :=
  .bind (raises_pairsOf source) fun pairs _ _ => raises_insertPairs d pairs

/-! ## Operators -/

theorem raises_setMembers (op : BinaryOp) (a b : Handle) :
    s.heap.Raises S (Heap.setMembers op a b) := by
  have select (test : Handle → Query Bool) (h : ∀ x, s.heap.Raises S (test x)) (wanted : Bool)
      (l : List Handle) : s.heap.Raises S (Heap.select test wanted l) :=
    .filterM (fun x => .bind (h x) fun _ _ => .pure _) l
  refine .bind (.set a) fun t _ => .bind (.set b) fun t' _ => ?_
  split
  · exact .pure _
  · exact .bind (select _ (Heap.raises_setContains b) _ _) fun _ _ => .pure _
  · exact .bind (select _ (Heap.raises_setContains b) _ _) fun _ _ => .pure _
  · exact .bind (select _ (Heap.raises_setContains b) _ _) fun _ _ =>
      .bind (select _ (Heap.raises_setContains a) _ _) fun _ _ => .pure _
  · exact .pure _

theorem raises_integerBinary (op : BinaryOp) (a b : Handle) (i j : Int64) (bothBool : Bool) :
    Raises S s (integerBinary op a b i j bothBool) := by
  unfold integerBinary
  split
  · exact .ask (Heap.raises_unsupported (oneLine_binaryOp op) a b)
  · rename_i result h
    exact .lined_bind (Integer.lined_binary? h) fun n =>
      .ite (fun _ => raises_boolean _) fun _ => .alloc _

/-- The operator that fills a format is the only one that quotes. -/
theorem raises_binary (op : BinaryOp) (a b : Handle) : Raises S s (binary op a b) := by
  have unsupported : Raises S s (liftM (Heap.unsupported op.name a b : Query Handle)) :=
    .ask (Heap.raises_unsupported (oneLine_binaryOp op) a b)
  refine .get_bind fun x hx => .get_bind fun y _ => ?_
  split
  · exact raises_integerBinary op a b _ _ _
  · split
    · rename_i result h
      exact .lined_bind (lined_sequenceBinary? h) fun _ => .alloc _
    · split
      · rename_i format _
        exact .ask_bind (Heap.raises_percentFormat (.inr ⟨a, _, hx, rfl⟩) b) fun _ _ => .alloc _
      · refine .ask_bind (raises_setMembers _ a b) fun members? _ => ?_
        split
        · exact raises_newSet _
        · exact unsupported
      · exact unsupported

theorem raises_unary (op : UnaryOp) (v : Handle) : Raises S s (unary op v) := by
  have integer {f : Option Int64 → Action Handle}
      (hnone : f none = (Heap.unimplemented op.name v : Query Handle))
      (hsome : ∀ n, Raises S s (f (some n))) : Raises S s (Heap.asInt? v >>= f) := by
    refine .ask_bind (Heap.raises_asInt? v) fun n? _ => ?_
    cases n? with
    | none =>
      rw [hnone]
      exact .ask (Heap.raises_unimplemented (oneLine_unaryOp op) v)
    | some n => exact hsome n
  cases op with
  | not => exact .ask_bind (Heap.raises_truthy v) fun _ _ => raises_boolean _
  | neg =>
    exact integer rfl fun _ => .lined_bind (Integer.lined_checked (.ofList rfl) _) fun _ => .alloc _
  | pos | invert => exact integer rfl fun _ => .alloc _

/-! ## Items and slices -/

theorem raises_indexArgument (hn : OneLine name) (a b : Handle) :
    s.heap.Raises S (Heap.indexArgument a b name) := .bind (Heap.raises_asInt? b) fun i? _ => by
  split
  · exact .pure _
  · exact Heap.raises_unsupported hn a b

theorem raises_getItem (a key : Handle) : Raises S s (getItem a key) := by
  have hindex (s : Space) (length : Nat) {type : String} (ht : OneLine type) :
      Raises S s (do normalizeIndex (← Heap.indexArgument a key "getitem") length type) :=
    .ask_bind (raises_indexArgument (.ofList rfl) a key) fun i _ =>
      .lined (lined_normalizeIndex i length ht)
  refine .get_bind fun o _ => ?_
  split
  case h_1 | h_2 => exact .bind (hindex _ _ (.ofList rfl)) fun _ _ _ => .pure _
  case h_3 | h_4 | h_5 => exact .bind (hindex _ _ (.ofList rfl)) fun _ _ _ => .alloc _
  case h_6 => exact .ask (Heap.raises_dictGet a key)
  case h_7 => exact .ask (Heap.raises_unimplemented (.ofList rfl) a)

theorem raises_setItem (a key value : Handle) : Raises S s (setItem a key value) := by
  refine .get_bind fun o _ => ?_
  split
  · exact .ask_bind (raises_indexArgument (.ofList rfl) a key) fun i _ =>
      .lined_bind (lined_normalizeIndex i _ (.ofList rfl)) fun _ => raises_updateList a _
  · exact raises_dictInsert a key value
  · exact .ask (Heap.raises_unimplemented (.ofList rfl) a)

theorem raises_deleteItem (a key : Handle) : Raises S s (deleteItem a key) := by
  refine .get_bind fun o _ => ?_
  split
  · exact .ask_bind (raises_indexArgument (.ofList rfl) a key) fun i _ =>
      .lined_bind (lined_normalizeIndex i _ (.ofList rfl)) fun _ => raises_updateList a _
  · refine .bind (raises_dictRemove a key) fun v? s' _ => ?_
    split
    · exact .pure _
    · exact .ask (Heap.raises_keyNotFound key)
  · exact .ask (Heap.raises_unimplemented (.ofList rfl) a)

theorem raises_sliceBound (noneValue : Handle) (bound : Option Handle) :
    s.heap.Raises S (Heap.sliceBound noneValue bound) := by
  cases bound with
  | none => exact .pure _
  | some v =>
    exact .ite (fun _ => .pure _) fun _ =>
      .bind (Heap.raises_expectInt (.line (.ofList rfl)) v) fun _ _ => .pure _

theorem raises_slice (a : Handle) (start stop step : Option Handle) :
    Raises S s (slice a start stop step) := by
  refine .bind raises_nothing fun n s _ => .ask_bind (raises_sliceBound n start) fun start _ =>
    .ask_bind (raises_sliceBound n stop) fun stop _ => .ask_bind (raises_sliceBound n step)
      fun step _ => .get_bind fun o _ => ?_
  split
  case h_1 | h_2 | h_3 | h_4 =>
    exact .lined_bind (Slice.lined_ofBounds _ start stop step) fun _ => .alloc _
  case h_5 =>
    exact .lined_bind (Slice.lined_ofBounds _ start stop step) fun bounds =>
      .lined_bind (bounds.lined_ofProgression _) fun _ => raises_newRange _ _ _
  case h_6 => exact .ask (Heap.raises_unimplemented (.ofList rfl) a)

/-! ## Attributes -/

theorem raises_typeOf (v : Handle) : Raises S s (typeOf v) := .get_bind fun o _ => by
  split
  · exact .pure _
  · split
    · exact raises_typeObject _
    · exact .violate _

/-- A missing attribute is shown by the name that was asked for. -/
theorem raises_unknownAttribute (hn : S.name name) (v : Handle) :
    s.heap.Raises S (Heap.unknownAttribute v name : Query α) :=
  .bind ((Heap.writes_typeName v).raises S) fun _ ht =>
    .fatal (.pair rfl ((Heap.writes_typeName v).shown ht) (.part (.inl hn)))

theorem raises_isFunction (v : Handle) : s.heap.Raises S (Heap.isFunction v) :=
  .get_bind fun o _ => by split <;> exact .pure _

theorem raises_getAttribute (hn : S.name name) (v : Handle) : Raises S s (getAttribute v name) := by
  have unknown {s : Space} : Raises S s (liftM (Heap.unknownAttribute v name : Query Handle)) :=
    .ask (raises_unknownAttribute hn v)
  refine .ite (fun _ => raises_typeOf v) fun _ => .get_bind fun o _ => ?_
  split
  · split
    · exact .pure _
    · refine .get_bind fun c _ => ?_
      split
      · split
        · exact .ask_bind (raises_isFunction _) fun _ _ =>
            .ite (fun _ => .alloc _) fun _ => .pure _
        · exact unknown
      · exact unknown
  · refine .ite (fun _ => .alloc _) fun _ => ?_
    split
    · exact .pure _
    · exact unknown
  · refine .ite (fun _ => .alloc _) fun _ => ?_
    split
    · exact raises_methodFunction _
    · exact unknown
  · refine .ite (fun _ => ?_) fun _ => unknown
    split <;> exact .alloc _
  · unfold builtinMethod
    split
    · exact .bind (raises_methodFunction _) fun _ _ _ => .alloc _
    · exact unknown

theorem raises_setAttribute (v : Handle) (name : String) (value : Handle) :
    Raises S s (setAttribute v name value) :=
  .get_bind fun _ _ =>
    .ite (fun _ => .ask (Heap.raises_unimplemented (.ofList rfl) v)) fun _ => .update _ _

/-! ## Contexts and names -/

theorem raises_context (c : Handle) : s.heap.Raises S (Heap.context c) := .get_bind fun o _ => by
  split
  · exact .pure _
  · exact .violate _

theorem raises_outermostWithin (n : Nat) (c : Handle) :
    s.heap.Raises S (Heap.outermostWithin n c) := by
  induction n generalizing c with
  | zero => exact .violate _
  | succ n ih =>
    refine .bind (raises_context c) fun ctx _ => ?_
    split
    · exact ih _
    · exact .pure _

theorem raises_findNameWithin (n : Nat) (c : Handle) (name : String) :
    s.heap.Raises S (Heap.findNameWithin n c name) := by
  induction n generalizing c with
  | zero => exact .violate _
  | succ n ih =>
    refine .bind (raises_context c) fun ctx _ => ?_
    split
    · exact .pure _
    · split
      · exact ih _
      · exact .pure _

theorem raises_searchStart (globals : Option Handle) (c : Handle) (name : String) :
    s.heap.Raises S (Heap.searchStart globals c name) := by
  refine .bind (raises_context c) fun ctx _ => .ite (fun _ => ?_) fun _ => .pure _
  split
  · exact .pure _
  · exact .bind .depth fun n _ => raises_outermostWithin n c

theorem raises_load (c : Handle) (index : Nat) : s.heap.Raises S (Heap.load c index) := by
  refine .bind (raises_context c) fun ctx _ => ?_
  split
  · exact .pure _
  · exact .fatal (.of_fields nofun)

theorem raises_updateContext (c : Handle) (f : Context → Context) :
    Raises S s (updateContext c f) := .ask_bind (raises_context c) fun _ _ => .update _ _

theorem raises_storeName (c : Handle) (name : String) (v : Handle) :
    Raises S s (storeName c name v) :=
  .state_bind (.ask_bind (raises_searchStart _ c name) fun _ _ => raises_updateContext _ _)

/-- A missing name is shown as it was asked for. -/
theorem raises_loadName (hn : S.name name) (c : Handle) : Raises S s (loadName c name) := by
  refine .state_bind (.ask_bind (raises_searchStart _ c name) fun start _ => .ask_bind .depth
    fun n _ => .ask_bind (raises_findNameWithin n start name) fun v? _ => ?_)
  split
  · exact .pure _
  · exact .fatal (.field rfl (.part (.inl hn)))

/-! ## The module context -/

theorem raises_bindFunction (c : Handle) (name : String) (f : Builtin) (keywords : List String) :
    Raises S s (bindFunction c name f keywords) :=
  .bind (.alloc _) fun _ _ _ => raises_storeName c name _

theorem raises_bindType (c : Handle) (k : Kind) : Raises S s (bindType c k) :=
  .bind (raises_typeObject k) fun _ _ _ => raises_storeName c _ _

theorem raises_initContext (c : Handle) (argv : List String) :
    Raises S s (initContext c argv) := by
  refine .bind (.of_ok rfl) fun _ _ _ =>
    .bind (.forM (fun f _ => raises_bindFunction c _ f _) _) fun _ _ _ =>
      .bind (.forM (fun k _ => raises_bindType c k) _) fun _ _ _ => .state_bind ?_
  refine .bind (.alloc _) fun _ _ _ => .bind (raises_storeName c _ _) fun _ _ _ => ?_
  exact .bind (.mapM (fun _ _ => .alloc _) argv) fun _ _ _ =>
    .bind (.alloc _) fun _ _ _ => raises_storeName c _ _

end ObjectSpace.Space

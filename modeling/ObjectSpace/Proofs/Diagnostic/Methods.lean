import ObjectSpace.Call
import ObjectSpace.Proofs.Diagnostic.Functions
import ObjectSpace.Proofs.Safety.Calls

/-!
# Diagnostics of methods and calls

Methods name themselves with their type in what they report about their arguments. `decode` is the
one that quotes a text: the name of an encoding. What is not found in a list, a set or a tuple is
shown in its text form.
-/

namespace ObjectSpace.Space

variable {S : Sources} {s : Space} {β : Type} {v : Handle}

/-! ## Arguments -/

section Arguments

variable {m : Method}

/-- What follows the one argument of a method. -/
theorem Raises.one {args : List Handle} {f : Handle → Action β} (hf : ∀ v, Raises S s (f v)) :
    Raises S s (liftM (m.oneArgument args) >>= f) :=
  .lined_bind (lined_oneArgument (oneLine_method m) args) hf

/-- What follows where a method has no argument. -/
theorem Raises.none {args : List Handle} {f : Unit → Action β} (hf : Raises S s (f ())) :
    Raises S s (liftM (m.noArgument args) >>= f) :=
  .lined_bind (lined_checkCount (oneLine_method m) args 0 0) fun _ => hf

theorem raises_presentArgument (m : Method) (args : List Handle) :
    Raises S s (m.presentArgument args) := by
  refine .lined_bind (m.lined_optionalArgument args) fun v? => ?_
  split
  · exact .bind (raises_isNone _) fun _ _ _ => .pure _
  · exact .pure _

theorem raises_methodInt (m : Method) (v : Handle) : s.heap.Raises S (m.expectInt v) :=
  Heap.raises_expectInt (.line (oneLine_method m)) v

theorem raises_methodStr (m : Method) (v : Handle) : s.heap.Raises S (m.expectStr v) :=
  Heap.raises_expectStr (.line (oneLine_method m)) v

end Arguments

/-! ## Containers -/

theorem raises_dictMethod (method : DictMethod) (d : Handle) (entries : Table (Handle × Handle))
    (args : List Handle) : Raises S s (dictMethod method d entries args) := by
  cases method with
  | clear => exact .none (.bind (raises_updateDict d _) fun _ _ _ => raises_nothing)
  | copy | keys | values | items => exact .none (.alloc _)
  | get =>
    refine .lined_bind (lined_oneOrTwoArguments (oneLine_method _) args) fun (key, default?) =>
      .ask_bind (Heap.raises_dictLookup d key) fun v? _ => ?_
    split
    · exact .pure _
    · exact .pure _
    · exact raises_nothing
  | pop =>
    refine .lined_bind (lined_oneOrTwoArguments (oneLine_method _) args) fun (key, default?) =>
      .bind (raises_dictRemove d key) fun v? _ _ => ?_
    split
    · exact .pure _
    · exact .pure _
    · exact .ask (Heap.raises_keyNotFound key)
  | update => exact .one fun v => .bind (raises_dictUpdate d v) fun _ _ _ => raises_nothing

theorem raises_addAll (u source : Handle) : Raises S s (addAll u source) :=
  .bind (raises_collect source) fun _ _ _ =>
    .forM (fun v _ => .bind (raises_setInsert u v) fun _ _ _ => .pure _) _

theorem raises_removeAll (u source : Handle) : Raises S s (removeAll u source) :=
  .bind (raises_collect source) fun _ _ _ =>
    .forM (fun v _ => .bind (raises_setRemove u v) fun _ _ _ => .pure _) _

/-- An item that is missing is shown in its text form. -/
theorem accounts_notInContainer {heap : Heap} {container text : String} (hc : OneLine container)
    (ht : Heap.repr v heap = .ok text) :
    (S.plus heap).Accounts (.notInContainer container text) :=
  .pair rfl (.line hc) ((Heap.writes_repr v).shown ht)

theorem raises_setMethod (method : SetMethod) (u : Handle) (members : Table Handle)
    (args : List Handle) : Raises S s (setMethod method u members args) := by
  cases method with
  | add => exact .one fun v => .bind (raises_setInsert u v) fun _ _ _ => raises_nothing
  | clear => exact .none (.bind (raises_updateSet u _) fun _ _ _ => raises_nothing)
  | copy => exact .none (.alloc _)
  | differenceUpdate =>
    exact .bind (.forM (fun v _ => raises_removeAll u v) args) fun _ _ _ => raises_nothing
  | discard => exact .one fun v => .bind (raises_setRemove u v) fun _ _ _ => raises_nothing
  | remove =>
    exact .one fun v => .bind (raises_setRemove u v) fun _ _ _ => .ite (fun _ => raises_nothing)
      fun _ => .ask_bind ((Heap.writes_repr v).raises S) fun t ht =>
        .fatal (accounts_notInContainer (.ofList rfl) ht)
  | update =>
    exact .bind (.forM (fun v _ => raises_addAll u v) args) fun _ _ _ => raises_nothing

theorem raises_placeOf {container : String} (hc : OneLine container) (items : Array Handle)
    (v : Handle) : s.heap.Raises S (placeOf items v container) := by
  refine .bind (Heap.raises_indexOf? items.toList v) fun i? _ => ?_
  split
  · exact .pure _
  · exact .bind ((Heap.writes_repr v).raises S) fun t ht => .fatal (accounts_notInContainer hc ht)

theorem raises_listMethod (method : ListMethod) (l : Handle) (items : Array Handle)
    (args : List Handle) : Raises S s (listMethod method l items args) := by
  have change {s : Space} (f : Array Handle → Array Handle) :
      Raises S s (do updateList l f; nothing) :=
    .bind (raises_updateList l f) fun _ _ _ => raises_nothing
  cases method with
  | append => exact .one fun v => change _
  | count => exact .one fun v => .ask_bind (Heap.raises_countOf _ v) fun _ _ => .alloc _
  | extend => exact .one fun v => .bind (raises_collect v) fun _ _ _ => change _
  | index =>
    exact .one fun v => .ask_bind (raises_placeOf (.ofList rfl) items v) fun _ _ => .alloc _
  | insert =>
    exact .lined_bind (lined_twoArguments (oneLine_method _) args) fun (index, v) =>
      .ask_bind (raises_methodInt _ index) fun _ _ => .inRange (change _)
  | pop =>
    refine .lined_bind (Method.lined_optionalArgument _ args) fun index? => ?_
    extract_lets remove
    have hremove (index : Int64) (s : Space) : Raises S s (remove index) :=
      .guard (.field rfl (.line (.ofList rfl))) (.lined_bind
        (lined_normalizeIndex index _ (.ofList rfl)) fun i =>
          .inRange (.bind (raises_updateList l _) fun _ _ _ => .pure _))
    clear_value remove
    cases index? with
    | none => exact .pure_bind (hremove _ s)
    | some v => exact .ask_bind (raises_methodInt _ v) fun index _ => hremove index s
  | remove =>
    exact .one fun v => .ask_bind (raises_placeOf (.ofList rfl) items v) fun _ _ =>
      .inRange (change _)
  | reverse | clear => exact .none (change _)
  | sort => exact .none (.ask_bind (Heap.raises_sort _) fun _ _ => change _)
  | copy => exact .none (.alloc _)

theorem raises_tupleMethod (method : TupleMethod) (items : Array Handle) (args : List Handle) :
    Raises S s (tupleMethod method items args) := by
  refine .one fun v => ?_
  cases method with
  | count => exact .ask_bind (Heap.raises_countOf _ v) fun _ _ => .alloc _
  | index => exact .ask_bind (raises_placeOf (.ofList rfl) items v) fun _ _ => .alloc _

/-! ## Texts, bytes and files -/

theorem raises_affixes (m : Method) (v : Handle) : s.heap.Raises S (affixes m v) := by
  refine .get_bind fun o _ => ?_
  split
  · exact .mapM (raises_methodStr m) _
  · exact .bind (raises_methodStr m v) fun _ _ => .pure _

theorem raises_strMethod (method : StrMethod) (t : String) (args : List Handle) :
    Raises S s (strMethod method t args) := by
  cases method with
  | join =>
    exact .one fun v => .bind (raises_collect v) fun _ _ _ =>
      .bind (.mapM (fun w _ => .ask (raises_methodStr _ w)) _) fun _ _ _ => .alloc _
  | split =>
    refine .bind (raises_presentArgument _ args) fun v? s _ => ?_
    extract_lets place
    have hplace (parts : List String) (s : Space) : Raises S s (place parts) :=
      .bind (.mapM (fun _ _ => .alloc _) parts) fun _ _ _ => .alloc _
    clear_value place
    cases v? with
    | none => exact .pure_bind (hplace _ s)
    | some v =>
      exact .ask_bind (raises_methodStr _ v) fun sep _ =>
        .guard (.field rfl (.line (.ofList rfl))) (.pure_bind (hplace _ s))
  | startswith | endswith =>
    exact .one fun v => .ask_bind (raises_affixes _ v) fun _ _ => raises_boolean _
  | upper | lower => exact .none (.alloc _)
  | strip =>
    refine .bind (raises_presentArgument _ args) fun v? _ _ => ?_
    split
    · exact .alloc _
    · exact .ask_bind (raises_methodStr _ _) fun _ _ => .alloc _

/-- The name of an encoding that is refused is quoted. -/
theorem raises_decodeMethod (bs : Array UInt8) (args : List Handle) :
    Raises S s (decodeMethod bs args) := by
  refine .lined_bind (Method.lined_optionalArgument _ args) fun v? => ?_
  extract_lets decode
  have hdecode (e : Encoding) (s : Space) : Raises S s (decode e) :=
    .lined_bind (e.lined_decode bs) fun _ => .alloc _
  clear_value decode
  cases v? with
  | none => exact .pure_bind (hdecode _ s)
  | some v =>
    refine .ask_bind (raises_methodStr _ v) fun t ht => ?_
    exact .check_bind
      (fun _ h => Encoding.accounts_ofName (Sources.text_plus (Heap.hasText_of_expectStr ht)) h)
      fun e _ => .pure_bind (hdecode e s)

theorem raises_updateStream (f : Handle) (stream : Stream) :
    Raises S s (updateStream f stream) := by
  refine .ask_bind (.get_bind fun o _ => ?_) fun _ _ => .update _ _
  split
  · exact .pure _
  · exact .violate _

theorem raises_contentFor (r : Reader) (limit : Option Nat) : Raises S s (contentFor r limit) := by
  refine .state_bind ?_
  split
  · exact .pure _
  · exact .ite (fun _ => .pure _) fun _ => .reason rfl (.ofList rfl)

theorem raises_newContent (binary : Bool) (bytes : Array UInt8) :
    Raises S s (newContent binary bytes) := by
  refine .ite (fun _ => .alloc _) fun _ => ?_
  split
  · exact .alloc _
  · exact .reason rfl ((OneLine.ofList rfl).append (oneLine_nat _))

theorem raises_fileMethod (method : FileMethod) (f : Handle) (file : File) (args : List Handle) :
    Raises S s (fileMethod method f file args) := by
  have done {s : Space} (stream : Stream) : Raises S s (do updateStream f stream; nothing) :=
    .bind (raises_updateStream f stream) fun _ _ _ => raises_nothing
  have closed {s : Space} : Raises S s (fatal .fileClosed : Action Handle) :=
    .fatal (.of_fields nofun)
  cases method with
  | read =>
    refine .bind (raises_presentArgument _ args) fun v? s _ =>
      .bind (.optionMapM (fun v => .ask (raises_methodInt _ v)) v?) fun limit s _ => ?_
    dsimp only
    split
    · exact .bind (raises_contentFor _ _) fun _ _ _ => .bind (raises_updateStream f _) fun _ _ _ =>
        raises_newContent _ _
    · exact .reason rfl (.ofList rfl)
    · exact closed
  | write =>
    refine .one fun v => .get_bind fun o _ => ?_
    extract_lets write
    have hwrite (data : Array UInt8) (s : Space) : Raises S s (write data) := by
      dsimp only [write]
      split
      · exact .bind (.of_ok rfl) fun _ _ _ => done _
      · exact .reason rfl (.ofList rfl)
      · exact closed
    clear_value write
    split
    · exact .pure_bind (hwrite _ s)
    · exact .pure_bind (hwrite _ s)
    · exact .ask_bind (Heap.raises_badArgument (.line (oneLine_method _)) (.ofList rfl) v)
        fun data _ => hwrite data s
  | close =>
    refine .none ?_
    dsimp only
    split
    · exact .bind (.of_ok rfl) fun _ _ _ => done _
    · exact done _

theorem raises_runMethod (m : Method) (receiver : Handle) (args : List Handle) :
    Raises S s (runMethod m receiver args) := by
  refine .get_bind fun o _ => ?_
  split
  · exact raises_dictMethod _ _ _ _
  · exact raises_listMethod _ _ _ _
  · exact raises_setMethod _ _ _ _
  · exact raises_strMethod _ _ _
  · exact raises_tupleMethod _ _ _
  · exact raises_decodeMethod _ _
  · exact raises_fileMethod _ _ _ _
  · exact .ask (Heap.raises_badArgument (.line (oneLine_method m)) (oneLine_kind _) receiver)

end ObjectSpace.Space

/-!
## Diagnostics of calls

Calls of what is built in, and of code whose own diagnostics are accounted for. A call that refuses
its arguments shows the name of the function or the class; a keyword that is not accepted is quoted.
The class was read before the instance was made, so its name counts as one known from before.
-/

namespace ObjectSpace.Space

variable {S : Sources} {s : Space} {code : Code} {ctx : Handle} {name : String}

/-! ### Arguments -/

/-- A keyword that is not accepted is quoted if it is a text. -/
theorem raises_checkKeywords (hn : (S.plus s.heap).name name) (kw : Handle)
    (allowed : List String) : s.heap.Raises S (checkKeywords name kw allowed) := by
  refine .get_bind fun o _ => ?_
  split
  · have unexpected (key : Handle) :
        s.heap.Raises S (do fatal (.unexpectedKeyword name (← Heap.str key)) : Query Unit) := by
      refine .bind (Heap.raises_str key) fun t ht => .fatal (Diagnostic.composed_message ?_)
      simp only [Diagnostic.fields, List.forall_mem_cons, List.not_mem_nil, false_implies,
        implies_true, and_true]
      refine ⟨.part (.inl hn), ?_⟩
      rcases Heap.hasText_or_composed ht with htext | hcomposed
      · exact .part (.inr ⟨t, .inr htext, .keyword name t⟩)
      · exact hcomposed.mono fun _ h => .inl (.inr h)
    refine .ite (fun _ => .bind (.fatal (.field rfl (.part hn))) (by rintro _ ⟨⟩)) fun _ => ?_
    refine .forM (fun e : Handle × Handle => .bind (Heap.raises_asStr? e.1) fun t? _ => ?_) _
    exact .ite (fun _ => .pure _) fun _ => unexpected e.1
  · exact Heap.raises_badArgument (.part hn) (.ofList rfl) kw

theorem raises_presentKeywords (kwargs : Option Handle) : Raises S s (presentKeywords kwargs) := by
  cases kwargs with
  | none => exact .pure _
  | some k =>
    refine .bind (raises_isNone k) fun b s₁ h => ?_
    refine .ite (fun _ => .pure _) fun _ => .get_bind fun o _ => ?_
    split <;> exact .pure _

theorem raises_positional (receiver : Option Handle) (args : Handle) :
    s.heap.Raises S (positional receiver args) :=
  .bind (Heap.raises_arguments args) fun _ _ => .pure _

/-! ### Calls -/

section Code

variable (hcode : ∀ n frame s, Raises S s (code n frame))

include hcode

theorem raises_callFunction (hn : (S.plus s.heap).name name) (entry : Entry)
    (receiver : Option Handle) (args : Handle) (kwargs : Option Handle) :
    Raises S s (callFunction code ctx name entry receiver args kwargs) := by
  cases entry with
  | compiled n =>
    cases receiver with
    | none => exact .pure_bind (.state_bind (hcode _ _ _))
    | some r =>
      exact .ask_bind (raises_positional _ _) fun _ _ => .bind (.alloc _) fun _ _ _ =>
        .state_bind (hcode _ _ _)
  | builtin f keywords =>
    have hrun : Raises S s (do runBuiltin f (← positional receiver args) kwargs) :=
      .ask_bind (raises_positional _ _) fun _ _ => raises_runBuiltin f _ kwargs
    cases kwargs with
    | none => exact .pure_bind hrun
    | some kw => exact .ask_bind (raises_checkKeywords hn kw keywords) fun _ _ => hrun
  | method m =>
    have hm := oneLine_method m
    unfold callFunction
    refine .guard (.field rfl (.line hm)) (.ask_bind (raises_positional _ _) fun items _ => ?_)
    cases items with
    | nil => exact .reason rfl hm
    | cons v rest => exact raises_runMethod m v rest

omit hcode in
theorem raises_bindMembers (inst : Handle) (members : List (String × Handle)) :
    Raises S s (bindMembers inst members) :=
  .foldlM (fun _ e _ => .ask_bind (raises_isFunction e.2) fun _ _ => .ite (fun _ =>
    .bind (.alloc _) fun _ _ _ => .bind (.update _ _) fun _ _ _ => .pure _) fun _ => .pure _) _ _

theorem raises_instantiate (hn : S.name name) (cls : Handle) (members : Bindings) (args : Handle)
    (kwargs : Option Handle) :
    Raises S s (instantiate code ctx cls name members args kwargs) := by
  refine .bind (.alloc _) fun inst _ _ => .bind (raises_bindMembers inst _) fun init? s _ => ?_
  cases init? with
  | some init =>
    refine .bind (raises_presentKeywords kwargs) fun kwargs s _ => .get_bind fun o ho => ?_
    split
    · exact .bind (raises_callFunction hcode (.inr ⟨init, _, ho, rfl⟩) _ _ _ _) fun _ _ _ => .pure _
    · exact .ask_bind ((Heap.writes_typeName init).raises S) fun t ht =>
        .bind (.fatal (.field rfl ((Heap.writes_typeName init).shown ht))) fun _ _ h => nomatch h
  | none =>
    have hname : Composed (S.plus s.heap).name name := .part (.inl hn)
    exact .ask_bind (Heap.raises_arguments args) fun _ _ =>
      .guard (.field rfl hname) (.guard (.field rfl hname) (.pure _))

/-- A call shows the name of the class that it makes an instance of. -/
theorem raises_call (hS : ∀ n, s.heap.HasName n → S.name n) (callee args : Handle)
    (kwargs : Option Handle) : Raises S s (call code ctx callee args kwargs) := by
  refine .bind (raises_presentKeywords kwargs) fun kwargs s' h => .get_bind fun o ho => ?_
  obtain ⟨rfl, -⟩ := of_presentKeywords h
  split
  · exact raises_callFunction hcode (.inr ⟨callee, _, ho, rfl⟩) _ _ _ _
  · refine .get_bind fun o ho => ?_
    split
    · exact raises_callFunction hcode (.inr ⟨_, _, ho, rfl⟩) _ _ _ _
    · exact .mention (Heap.writes_typeName _) fun _ => rfl
  · exact raises_instantiate hcode (hS _ ⟨callee, _, ho, rfl⟩) _ _ _ _
  · exact .ask_bind (Heap.raises_arguments args) fun _ _ => raises_construct _ _ _
  · exact .mention (Heap.writes_typeName _) fun _ => rfl

theorem raises_callWith (hS : ∀ n, s.heap.HasName n → S.name n) (callee : Handle)
    (args : List Handle) : Raises S s (callWith code ctx callee args) := by
  refine .bind (.alloc _) fun pack s' h => raises_call hcode (fun n hn => hS n ?_) callee pack none
  -- packing the arguments brings in no name
  obtain ⟨-, rfl⟩ := EStateM.Result.ok.inj h
  obtain ⟨v, o, ho, hl⟩ := hn
  rcases Arena.get?_allocateIn ho with rfl | ho
  · cases hl
  · exact ⟨v, o, ho, hl⟩

end Code

end ObjectSpace.Space

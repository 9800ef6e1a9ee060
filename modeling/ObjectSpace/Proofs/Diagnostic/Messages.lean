import ObjectSpace.Proofs.Diagnostic.Methods
import ObjectSpace.Proofs.Execution.Codecs

/-!
# Messages

**Theorem (`message_lines`).** Whatever the space and the turn that is taken in it, the message of a
diagnostic is composed of lines, of names, and of texts that the diagnostic quotes. It is one line
exactly when every name and quoted text that stands in it is. Where no space can be created the
message is one line.

The names are those of classes, functions and files in the heap before or after the turn, and the
one that the turn asks for. A text is quoted only where `Diagnostic.Quotes` says so; everywhere else
a value is shown in its text form, which escapes breaks.
-/

namespace ObjectSpace

open Space

/-! ## Sources of a turn -/

/-- The names that an operation is given to look up or to mention. -/
def Operation.names : Operation → List String
  | getAttribute _ name | loadName _ name | expectInt _ name | expectStr _ name => [name]
  | _ => []

/-- The formats that an operation is given. -/
def Operation.formats : Operation → List String
  | percentFormat format _ => [format]
  | _ => []

namespace Turn

/-- The names that a turn is given. -/
def names : Turn → List String
  | operation op => op.names
  | collectNow .. | collectIfDue .. => []

/-- The formats that a turn is given. -/
def formats : Turn → List String
  | operation op => op.formats
  | collectNow .. | collectIfDue .. => []

/-- The names and texts that are there before a turn. -/
def sources (t : Turn) (s : Space) : Sources where
  name n := s.heap.HasName n ∨ n ∈ t.names
  text x := x ∈ t.formats

end Turn

/-! ## Turns -/

namespace Space

variable {S : Sources} {s : Space} {α : Type} [Carries α]

theorem raises_returned {act : Action α} (h : Raises S s act) :
    Raises S s (Operation.returned act) := by
  rw [Operation.returned, map_eq_pure_bind]
  exact .bind h fun _ _ _ => .pure _

theorem raises_reading {q : Query α} (h : s.heap.Raises S q) :
    Raises S s (Operation.returned (liftM q)) := raises_returned (.ask h)

theorem raises_noCode (n : Nat) (frame : ObjectSpace.Frame) (s : Space) :
    Raises S s (noCode n frame) := .violate _

/-- The diagnostics of every operation are accounted for. -/
theorem raises_operation (op : Operation) (hname : ∀ n, s.heap.HasName n → S.name n)
    (hnames : ∀ n ∈ op.names, S.name n) (hformats : ∀ x ∈ op.formats, S.text x) :
    Raises S s op.run := by
  cases op <;> unfold Operation.run
  case nothing => exact raises_returned raises_nothing
  case boolean => exact raises_returned (raises_boolean _)
  case typeObject => exact raises_returned (raises_typeObject _)
  case internInt => exact raises_returned (raises_internInt _)
  case internStr => exact raises_returned (raises_internStr _)
  case newInt | newStr | newBytes | newList | newTuple | newFunction | newClass | newContext =>
    exact raises_returned (.alloc _)
  case newDict => exact raises_returned (raises_newDict _)
  case newSet => exact raises_returned (raises_newSet _)
  case newRange => exact raises_returned (raises_newRange _ _ _)
  case binary => exact raises_returned (raises_binary _ _ _)
  case unary => exact raises_returned (raises_unary _ _)
  case compare =>
    exact raises_returned (.ask_bind (Heap.raises_compares _ _ _) fun _ _ => raises_boolean _)
  case contains | notContains =>
    exact raises_returned (.ask_bind (Heap.raises_contains _ _) fun _ _ => raises_boolean _)
  case getItem => exact raises_returned (raises_getItem _ _)
  case setItem => exact raises_returned (raises_setItem _ _ _)
  case deleteItem => exact raises_returned (raises_deleteItem _ _)
  case slice => exact raises_returned (raises_slice _ _ _ _)
  case typeOf => exact raises_returned (raises_typeOf _)
  case getAttribute => exact raises_returned (raises_getAttribute (hnames _ List.mem_cons_self) _)
  case setAttribute => exact raises_returned (raises_setAttribute _ _ _)
  case dictLookup => exact raises_reading (Heap.raises_dictLookup _ _)
  case dictGet => exact raises_reading (Heap.raises_dictGet _ _)
  case dictInsert => exact raises_returned (raises_dictInsert _ _ _)
  case dictRemove => exact raises_returned (raises_dictRemove _ _)
  case dictUpdate => exact raises_returned (raises_dictUpdate _ _)
  case setContains => exact raises_reading (Heap.raises_setContains _ _)
  case setInsert => exact raises_returned (raises_setInsert _ _)
  case setRemove => exact raises_returned (raises_setRemove _ _)
  case iter => exact raises_returned (raises_iter _)
  case next => exact raises_returned (raises_next _)
  case collect => exact raises_returned (raises_collect _)
  case parentContext => exact raises_reading (.bind (raises_context _) fun _ _ => .pure _)
  case store => exact raises_returned (raises_updateContext _ _)
  case load => exact raises_reading (raises_load _ _)
  case declareGlobal => exact raises_returned (raises_updateContext _ _)
  case storeName => exact raises_returned (raises_storeName _ _ _)
  case loadName => exact raises_returned (raises_loadName (hnames _ List.mem_cons_self) _)
  case bindFunction => exact raises_returned (raises_bindFunction _ _ _ _)
  case bindType => exact raises_returned (raises_bindType _ _)
  case initContext => exact raises_returned (raises_initContext _ _)
  case call => exact raises_returned (raises_call raises_noCode hname _ _ _)
  case callWith => exact raises_returned (raises_callWith raises_noCode hname _ _)
  case equal => exact raises_reading (Heap.raises_equal _ _)
  case hash => exact raises_reading (Heap.raises_hash _)
  case lessThan => exact raises_reading (Heap.raises_lessThan _ _)
  case compares => exact raises_reading (Heap.raises_compares _ _ _)
  case sort => exact raises_reading (Heap.raises_sort _)
  case truthy => exact raises_reading (Heap.raises_truthy _)
  case repr => exact raises_reading ((Heap.writes_repr _).raises S)
  case str => exact raises_reading (Heap.raises_str _)
  case percentFormat =>
    exact raises_reading (Heap.raises_percentFormat (.inl (hformats _ List.mem_cons_self)) _)
  case typeName => exact raises_reading ((Heap.writes_typeName _).raises S)
  case asInt => exact raises_reading (Heap.raises_asInt? _)
  case asStr => exact raises_reading (Heap.raises_asStr? _)
  case expectInt =>
    exact raises_reading (Heap.raises_expectInt (.part (.inl (hnames _ List.mem_cons_self))) _)
  case expectStr =>
    exact raises_reading (Heap.raises_expectStr (.part (.inl (hnames _ List.mem_cons_self))) _)
  case arguments => exact raises_reading (Heap.raises_arguments _)
  case write | takeOutput | outside => exact raises_returned (.of_ok rfl)

omit [Carries α] in
theorem raises_collectNow (ctx : Handle) (inFlight : Option Handle) :
    Raises S s (collectNow ctx inFlight) := by
  refine .state_bind <| .bind (.of_ok rfl) fun _ _ _ =>
    .bind (.of_ok rfl) fun (count, stale) _ _ => ?_
  cases stale with
  | none => exact .of_ok rfl
  | some h => exact .bind (.violate _) fun _ _ he => nomatch he

theorem raises_turn (t : Turn) (s : Space) : Raises (t.sources s) s t.run := by
  cases t with
  | operation op => exact raises_operation op (fun _ => .inl) (fun _ => .inr) fun _ => id
  | collectNow ctx inFlight => exact raises_returned (raises_collectNow ctx inFlight)
  | collectIfDue ctx inFlight =>
    exact raises_returned (.state_bind (.ite (fun _ => .pure _) fun _ =>
      .bind (raises_collectNow ctx inFlight) fun _ _ _ => .pure _))

end Space

/-! ## Creation -/

/-- The rules of a layout are worded in lines. -/
theorem Layout.oneLine_check {l : Layout} {e : ArenaError} (h : l.check = .error e) :
    OneLine e.diagnostic.message := by
  have rule {reason : String} (hr : OneLine reason) {e : ArenaError}
      (h : (.error (.badLayout reason) : Except ArenaError Unit) = .error e) :
      OneLine e.diagnostic.message :=
    Except.error.inj h ▸ (OneLine.ofList rfl).append hr
  unfold check at h
  dsimp only at h
  split at h
  · split at h
    · exact rule (.ofList rfl) h
    · split at h
      · exact rule (.ofList rfl) h
      · split at h
        · exact rule (.ofList rfl) h
        · cases h
  · exact rule (.ofList rfl) h

theorem oneLine_create {settings : Settings} {disk : Disk} {d : Diagnostic}
    (h : Space.create settings disk = .error d) : OneLine d.message := by
  unfold Space.create at h
  split at h
  · rename_i e he
    obtain rfl := Except.error.inj h
    unfold Arena.create at he
    cases hc : settings.layout.check with
    | ok u =>
      rw [hc] at he
      cases he
    | error e' =>
      rw [hc] at he
      obtain rfl := Except.error.inj he
      exact Layout.oneLine_check hc
  · cases h

/-! ## A literal that is refused -/

/-- The integer that a text denotes, where it denotes none. -/
theorem Space.construct_int_refused {s : Space} {v : Handle} {text : String} {d : Diagnostic}
    (hv : IsText s.heap v text) (hd : Numeral.parse 10 text = .error d) :
    construct .int [v] none s = .error (.fatal d) s := by
  obtain ⟨hash, hv⟩ := hv
  have hint : integerOf [v] s = .error (.fatal d) s := by
    show ((liftM (Heap.get v) : Action Object) >>= _) s = _
    rw [get_bind_of_has hv]
    show (liftM (Numeral.parse 10 text) : Action Int64) s = _
    rw [hd]
    rfl
  exact bind_of_error hint

/-- A program that asks for the integer a text denotes, where it denotes none, gets the diagnostic
of the literal. -/
theorem literal_refused (text : String) {d : Diagnostic} (hd : Numeral.parse 10 text = .error d) :
    ∃ s callee v, LiveRun {} {} s ∧ s.heap.Has callee (.type .int) ∧ IsText s.heap v text ∧
      ∃ s', (Turn.operation (.callWith s.noneValue callee [v])).run s = .error (.fatal d) s' := by
  obtain ⟨s₀, h₀⟩ := create_ok {} rfl {}
  obtain ⟨v, s, r, -, hv⟩ := (LiveRun.start h₀).newStr text
  have i := steady_of_liveRun r
  have hcallee : s.heap.Has _ (.type .int) := i.types Kind.int.index
  have hargs : ∀ a ∈ [v], s.heap.isLive a = true := by simp [hv.live]
  obtain ⟨s', f, hs'⟩ := callWith_type noCode s.noneValue i hcallee hargs
  rw [construct_int_refused (f.isText hv) hd] at hs'
  refine ⟨s, _, v, r, hcallee, hv, s', ?_⟩
  rw [Turn.run, Operation.run, Operation.returned, map_eq_pure_bind]
  exact bind_of_error hs'

theorem broken_literal : ¬ OneLine (Diagnostic.invalidLiteral 10 "a\nb").message :=
  fun h => absurd rfl (h '\n' (by decide +kernel)).1

/-- **Lines of messages.** A message is composed of lines, of names that were asked for or that
classes, functions and files have, and of texts that the diagnostic quotes. It is one line exactly
when the names and quoted texts that stand in it are. -/
theorem message_lines (t : Turn) (s : Space) (settings : Settings) (disk : Disk) (d : Diagnostic) :
    (∀ s', t.run s = .error (.fatal d) s' →
      ((t.sources s).plus s'.heap).Accounts d ∧
        (OneLine d.message ↔ ∀ part, ((t.sources s).plus s'.heap).Part d part →
          part.toList <:+: d.message.toList → OneLine part)) ∧
    (Space.create settings disk = .error d → OneLine d.message) := by
  refine ⟨fun s' h => ?_, oneLine_create⟩
  have haccounts := (raises_turn t s).accounts d s' h
  exact ⟨haccounts, haccounts.oneLine_iff⟩

/-- What the theorem says of a literal with a line feed: the message shows a name or a text that it
quotes and that is no line. -/
theorem message_lines_literal :
    ∃ s s' t, Turn.run t s = .error (.fatal (.invalidLiteral 10 "a\nb")) s' ∧
      ∃ part, ((t.sources s).plus s'.heap).Part (.invalidLiteral 10 "a\nb") part ∧
        part.toList <:+: (Diagnostic.invalidLiteral 10 "a\nb").message.toList ∧
        ¬ OneLine part := by
  obtain ⟨s, callee, v, -, -, -, s', hs'⟩ := literal_refused "a\nb" rfl
  have hlines := (message_lines (.operation (.callWith s.noneValue callee [v])) s {} {} _).1 s' hs'
  refine ⟨s, s', .operation (.callWith s.noneValue callee [v]), hs', ?_⟩
  have hbroken := mt hlines.2.2 broken_literal
  simpa only [not_forall, exists_prop] using hbroken

/-- A program can make a message of two lines: it asks for the integer that a text with a line feed
denotes. -/
theorem message_lines_break :
    ∃ s s' callee v d, LiveRun {} {} s ∧ s.heap.Has callee (.type .int) ∧
      IsText s.heap v "a\nb" ∧
      (Turn.operation (.callWith s.noneValue callee [v])).run s = .error (.fatal d) s' ∧
      ¬ OneLine d.message := by
  obtain ⟨s, callee, v, r, hcallee, hv, s', hs'⟩ := literal_refused "a\nb" rfl
  exact ⟨s, s', callee, v, _, r, hcallee, hv, hs', broken_literal⟩

end ObjectSpace

import ObjectSpace.Constructors
import ObjectSpace.Proofs.Diagnostic.Actions

/-!
# Diagnostics of functions and types

Built-in functions and types name themselves in what they report about their arguments. Three of
them read a text and quote it: `int` a literal, `bytes` the name of an encoding, and `open` a path
or a mode. The text is the content of the argument, which is still in the heap when it is refused.
-/

namespace ObjectSpace.Space

variable {S : Sources} {s : Space} {v : Handle} {name : String}

/-! ## Built-in functions -/

theorem raises_candidates (hn : OneLine name) (args : List Handle) :
    Raises S s (candidates name args) := by
  unfold candidates
  extract_lets choose
  have hchoose (items : List Handle) (s : Space) : Raises S s (choose items) := by
    cases items with
    | nil => exact .reason rfl (hn.append (.ofList rfl))
    | cons first rest => exact .pure _
  clear_value choose
  split
  · exact .bind (.reason rfl hn) fun items s' _ => hchoose items s'
  · exact .bind (raises_collect _) fun items s' _ => .pure_bind (hchoose _ s')
  · exact .pure_bind (hchoose _ s)

theorem raises_instanceOfWithin (n : Nat) (v cls : Handle) :
    Raises S s (instanceOfWithin n v cls) := by
  induction n generalizing s cls with
  | zero => exact .violate _
  | succ n ih =>
    refine .get_bind fun o _ => ?_
    split
    · exact .ask_bind (Heap.raises_asInt? v) fun _ _ => .pure _
    · exact .bind (raises_typeOf v) fun _ _ _ => .pure _
    · exact .bind (raises_typeOf v) fun _ _ _ => .pure _
    · exact .anyM (fun c _ => ih c) _
    · exact .ask (Heap.raises_badArgument (.line (.ofList rfl)) (.ofList rfl) cls)

theorem raises_printOption (kwargs : Option Handle) (name default : String) :
    Raises S s (printOption kwargs name default) := by
  refine .ask_bind (Heap.raises_keyword? kwargs name) fun v? _ => ?_
  cases v? with
  | none => exact .pure _
  | some v =>
    exact .bind (raises_isNone v) fun _ _ _ => .ite (fun _ => .pure _) fun _ =>
      .ask (Heap.raises_expectStr (.line (.ofList rfl)) v)

theorem raises_print (args : List Handle) (kwargs : Option Handle) :
    Raises S s (print args kwargs) :=
  .bind (raises_printOption kwargs _ _) fun _ _ _ => .bind (raises_printOption kwargs _ _)
    fun _ _ _ => .bind (.mapM (fun v _ => .ask (Heap.raises_str v)) args) fun _ _ _ =>
      .bind (.of_ok rfl) fun _ _ _ => raises_nothing

/-- A path or a mode that is refused is quoted. -/
theorem raises_openFile {path mode : String} (hp : (S.plus s.heap).text path)
    (hm : Access.ofMode? mode = none → (S.plus s.heap).text mode) :
    Raises S s (openFile path mode) := by
  unfold openFile
  split
  · rename_i h
    refine .fatal (Diagnostic.composed_message (List.forall_mem_singleton.2 ?_))
    exact .between (.part (.inr ⟨mode, hm h, .mode mode⟩)) (.ofList rfl) (.ofList rfl)
  · refine .state_bind ?_
    dsimp only
    split
    · exact .fatal (PathFault.accounts_diagnostic hp _)
    · exact .bind (.of_ok rfl) fun _ _ _ => .alloc _

theorem raises_runBuiltin (f : Builtin) (args : List Handle) (kwargs : Option Handle) :
    Raises S s (runBuiltin f args kwargs) := by
  have hname := oneLine_builtin f
  have one {g : Handle → Action Handle} (hg : ∀ v, Raises S s (g v)) :
      Raises S s (liftM (oneArgument f.name args) >>= g) :=
    .lined_bind (lined_oneArgument hname args) hg
  cases f with
  | abs =>
    refine one fun v => .ask_bind (Heap.raises_asInt? v) fun n? _ => ?_
    split
    · exact .lined_bind (Integer.lined_checked (.ofList rfl) _) fun _ => .alloc _
    · exact .ask (Heap.raises_unimplemented hname v)
  | all =>
    exact one fun v => .bind (raises_collect v) fun _ _ _ =>
      .bind (.allM (fun w _ => .ask (Heap.raises_truthy w)) _) fun _ _ _ => raises_boolean _
  | any =>
    exact one fun v => .bind (raises_collect v) fun _ _ _ =>
      .bind (.anyM (fun w _ => .ask (Heap.raises_truthy w)) _) fun _ _ _ => raises_boolean _
  | chr =>
    refine one fun v => .ask_bind (Heap.raises_expectInt (.line hname) v) fun n _ => ?_
    split
    · exact .alloc _
    · exact .reason rfl (.ofList rfl)
  | hash => exact one fun v => .ask_bind (Heap.raises_hash v) fun _ _ => .alloc _
  | isinstance =>
    refine .lined_bind (lined_twoArguments hname args) fun (v, cls) => .ask_bind .depth
      fun n _ => ?_
    exact .bind (raises_instanceOfWithin n v cls) fun _ _ _ => raises_boolean _
  | iter => exact one raises_iter
  | len =>
    exact one fun v => .ask_bind (Heap.raises_length v) fun _ _ => raises_newCount hname _
  | max =>
    exact .bind (raises_candidates hname args) fun (first, rest) _ _ =>
      .ask (Heap.raises_best (fun x b => Heap.raises_lessThan b x) first rest)
  | min =>
    exact .bind (raises_candidates hname args) fun (first, rest) _ _ =>
      .ask (Heap.raises_best Heap.raises_lessThan first rest)
  | next =>
    refine .lined_bind (lined_oneOrTwoArguments hname args) fun (it, default?) =>
      .bind (raises_next it) fun r s' _ => ?_
    split
    · exact .pure _
    · exact .pure _
    · exact .fatal (.of_fields nofun)
  | «open» =>
    refine .lined_bind (lined_oneOrTwoArguments hname args) fun (path, mode?) =>
      .ask_bind (Heap.raises_expectStr (.line hname) path) fun p hp => ?_
    have hpath := Heap.hasText_of_expectStr hp
    cases mode? with
    | none => exact .pure_bind (raises_openFile (.inr hpath) fun h => nomatch h)
    | some m =>
      refine .bind (.optionMapM (fun m => .ask (Heap.raises_expectStr (.line hname) m)) (some m))
        fun mode s' h => ?_
      obtain ⟨t, s₁, hask, h⟩ := bind_eq_ok.1 h
      obtain ⟨ht, rfl⟩ := ask_eq_ok.1 hask
      obtain ⟨rfl, rfl⟩ := EStateM.Result.ok.inj h
      exact raises_openFile (.inr hpath) fun _ => .inr (Heap.hasText_of_expectStr ht)
  | ord => exact one fun v => .ask_bind (Heap.raises_codeOf v) fun _ _ => .alloc _
  | print => exact raises_print args kwargs
  | repr => exact one fun v => .ask_bind ((Heap.writes_repr v).raises S) fun _ _ => .alloc _
  | sorted =>
    exact one fun v => .bind (raises_collect v) fun _ _ _ =>
      .ask_bind (Heap.raises_sort _) fun _ _ => .alloc _
  | arguments =>
    exact .bind (.alloc _) fun _ _ _ => .bind raises_nothing fun _ _ _ => .alloc _

/-! ## Built-in types -/

theorem raises_contents (args : List Handle) : Raises S s (contents args) := by
  cases args with
  | nil => exact .pure _
  | cons v rest => exact raises_collect v

/-- A literal that is refused is quoted. -/
theorem raises_integerOf (args : List Handle) : Raises S s (integerOf args) := by
  refine .lined_bind (lined_checkCount (.ofList rfl) args 0 2) fun _ => ?_
  split
  · exact .pure _
  · rename_i v
    refine .get_bind fun o ho => ?_
    split
    · exact .check fun _ h => Numeral.accounts_parse (Sources.text_plus ⟨v, _, ho, rfl⟩) h
    · split
      · exact .pure _
      · exact .ask (Heap.raises_badArgument (.line (.ofList rfl)) (.ofList rfl) v)
  · rename_i v base
    refine .ask_bind (Heap.raises_expectInt (.line (.ofList rfl)) base) fun n _ =>
      .guard (.field rfl (.line (.ofList rfl))) ?_
    refine .ask_bind (Heap.raises_expectStr (.line (.ofList rfl)) v) fun t ht => ?_
    exact .check fun _ h =>
      Numeral.accounts_parse (Sources.text_plus (Heap.hasText_of_expectStr ht)) h
  · exact .violate _

theorem raises_byteOf (v : Handle) : s.heap.Raises S (byteOf v) := by
  refine .bind (Heap.raises_asInt? v) fun n? _ => ?_
  split
  · exact .ite (fun _ => .pure _) fun _ => .fatal (.field rfl (.line (.ofList rfl)))
  · exact Heap.raises_badArgument (.line (.ofList rfl)) (.ofList rfl) v

/-- The name of an encoding that is refused is quoted. -/
theorem raises_bytesOf (args : List Handle) : Raises S s (bytesOf args) := by
  refine .lined_bind (lined_checkCount (.ofList rfl) args 0 2) fun _ => ?_
  split
  · exact .pure _
  · rename_i v
    refine .get_bind fun o ho => ?_
    split
    · exact .pure _
    · exact .guard (.field rfl (.line (.ofList rfl)))
        (.guard (.field rfl (.line (.ofList rfl))) (.pure _))
    · exact .reason rfl (.ofList rfl)
    · exact .bind (raises_collect v) fun _ _ _ => .arrayMapM (fun v _ => .ask (raises_byteOf v)) _
  · rename_i v encoding
    refine .ask_bind (Heap.raises_expectStr (.line (.ofList rfl)) encoding) fun t ht => ?_
    have hname := Sources.text_plus (S := S) (Heap.hasText_of_expectStr ht)
    refine .check_bind (fun _ h => Encoding.accounts_ofName hname h) fun e _ => ?_
    exact .ask_bind (Heap.raises_expectStr (.line (.ofList rfl)) v) fun _ _ =>
      .lined (e.lined_encode _)
  · exact .violate _

theorem raises_rangeOf (args : List Handle) : Raises S s (rangeOf args) := by
  refine .lined_bind (lined_checkCount (.ofList rfl) args 1 3) fun _ =>
    .bind (.mapM (fun v _ => .ask (Heap.raises_expectInt (.line (.ofList rfl)) v)) args)
      fun bounds _ _ => ?_
  split
  case h_4 => exact .reason rfl (.ofList rfl)
  all_goals exact raises_newRange _ _ _

theorem raises_enumerateOf (args : List Handle) : Raises S s (enumerateOf args) := by
  refine .lined_bind (lined_checkCount (.ofList rfl) args 1 2) fun _ => ?_
  split
  · exact .bind (.optionMapM (fun n => .ask (Heap.raises_expectInt (.line (.ofList rfl)) n)) _)
      fun _ _ _ => .bind (raises_iter _) fun _ _ _ => .alloc _
  · exact .violate _

theorem raises_zipOf (args : List Handle) : Raises S s (zipOf args) :=
  .lined_bind (lined_twoArguments (.ofList rfl) args) fun (a, b) =>
    .bind (raises_iter a) fun _ _ _ => .bind (raises_iter b) fun _ _ _ => .alloc _

theorem raises_construct (k : Kind) (args : List Handle) (kwargs : Option Handle) :
    Raises S s (construct k args kwargs) := by
  have hname := oneLine_kind k
  have single {g : Unit → Action Handle} (hg : Raises S s (g ())) :
      Raises S s (liftM (checkCount k.name 0 1 args) >>= g) :=
    .lined_bind (lined_checkCount hname args 0 1) fun _ => hg
  unfold construct
  refine .guard (.field rfl (.line hname)) ?_
  cases k
  case bool =>
    refine single ?_
    split
    · exact .ask_bind (Heap.raises_truthy _) fun _ _ => raises_boolean _
    · exact raises_boolean _
  case int => exact .bind (raises_integerOf args) fun _ _ _ => .alloc _
  case str =>
    refine single ?_
    split
    · exact .ask_bind (Heap.raises_str _) fun _ _ => .alloc _
    · exact .alloc _
  case bytes => exact .bind (raises_bytesOf args) fun _ _ _ => .alloc _
  case list | tuple => exact single (.bind (raises_contents args) fun _ _ _ => .alloc _)
  case set => exact single (.bind (raises_contents args) fun _ _ _ => raises_newSet _)
  case dict =>
    refine single (.bind (.alloc _) fun d _ _ => ?_)
    split
    · exact .bind (raises_dictUpdate d _) fun _ _ _ => .pure _
    · exact .pure _
  case range => exact raises_rangeOf args
  case enumerate => exact raises_enumerateOf args
  case reversed => exact .lined_bind (lined_oneArgument hname args) raises_reversed
  case zip => exact raises_zipOf args
  case type => exact .lined_bind (lined_oneArgument hname args) raises_typeOf
  all_goals exact .reason rfl (((OneLine.ofList rfl).append hname).append (.ofList rfl))

end ObjectSpace.Space

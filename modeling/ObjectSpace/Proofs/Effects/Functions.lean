import ObjectSpace.Methods.Files
import ObjectSpace.Methods.Sequences
import ObjectSpace.Methods.Tables
import ObjectSpace.Methods.Texts
import ObjectSpace.Proofs.Effects.Values

/-!
# Effects of built-in functions and methods

Built-in functions and types advance the iterators they are given and place objects. A method fills
its receiver, if anything. Only `open` and the methods of files touch files and the disk.
-/

namespace ObjectSpace.Space

variable {I : Space → Prop} (k : Stable I) (ha : Bears I .advance)

/-- What `open` and the methods of files may do. -/
structure Files (I : Space → Prop) : Prop where
  files : Bears I .files
  disk : Bears I .disk

/-! ## Built-in functions -/

section Functions

include k ha

theorem keeps_candidates (name : String) (args : List Handle) :
    Keeps I (candidates name args) := by
  unfold candidates
  extract_lets choose
  have hchoose : ∀ items, Keeps I (choose items) := fun items => by
    cases items with
    | nil => exact keeps_fatal _
    | cons first rest => exact keeps_pure _
  split
  · exact keeps_bind (keeps_fatal _) hchoose
  · refine keeps_bind ((k.iterates ha).collect _) fun items => ?_
    exact keeps_bind (keeps_pure _) hchoose
  · exact keeps_bind (keeps_pure _) hchoose

omit k ha in
theorem keeps_instanceOfWithin (n : Nat) (v cls : Handle) :
    Keeps I (instanceOfWithin n v cls) := by
  induction n generalizing cls with
  | zero => exact keeps_violate _
  | succ n ih =>
    unfold instanceOfWithin
    refine keeps_ask_bind fun o => ?_
    split
    · exact keeps_ask_bind fun _ => keeps_pure _
    · exact keeps_bind (keeps_typeOf v) fun _ => keeps_pure _
    · exact keeps_bind (keeps_typeOf v) fun _ => keeps_pure _
    · exact keeps_anyM ih _
    · exact keeps_ask _

omit k ha in
theorem keeps_printOption (kwargs : Option Handle) (name default : String) :
    Keeps I (printOption kwargs name default) := by
  refine keeps_ask_bind fun w? => ?_
  cases w? with
  | none => exact keeps_pure _
  | some w => exact keeps_bind (keeps_isNone w) fun b => keeps_ite (keeps_pure _) (keeps_ask _)

omit ha in
theorem keeps_print (args : List Handle) (kwargs : Option Handle) :
    Keeps I (print args kwargs) := by
  refine keeps_bind (keeps_printOption _ _ _) fun sep => ?_
  refine keeps_bind (keeps_printOption _ _ _) fun ending => ?_
  refine keeps_bind (keeps_mapM (fun _ => keeps_ask _) _) fun texts => ?_
  exact keeps_bind (k.write _) fun _ => keeps_nothing

omit ha in
theorem keeps_openFile (hf : Files I) (path mode : String) : Keeps I (openFile path mode) := by
  have kf : Places I fun o => ∃ f, o = .file f := ⟨k.roomy, k.other, hf.files.1⟩
  unfold openFile
  split
  · exact keeps_fatal _
  · refine keeps_get_bind fun s => ?_
    dsimp only
    split
    · exact keeps_fatal _
    · exact keeps_bind (keeps_changeDisk hf.disk _) fun _ => kf.alloc ⟨_, rfl⟩

theorem keeps_runBuiltin (f : Builtin) (hf : f = .open → Files I) (args : List Handle)
    (kwargs : Option Handle) : Keeps I (runBuiltin f args kwargs) := by
  have hi := k.iterates ha
  cases f with
  | abs =>
    refine keeps_check_bind fun v => keeps_ask_bind fun n? => ?_
    split
    · exact keeps_check_bind fun n => k.alloc trivial
    · exact keeps_ask _
  | all =>
    refine keeps_check_bind fun v => keeps_bind (hi.collect v) fun items => ?_
    exact keeps_bind (keeps_allM (fun _ => keeps_ask _) _) fun _ => keeps_boolean _
  | any =>
    refine keeps_check_bind fun v => keeps_bind (hi.collect v) fun items => ?_
    exact keeps_bind (keeps_anyM (fun _ => keeps_ask _) _) fun _ => keeps_boolean _
  | chr =>
    refine keeps_check_bind fun v => keeps_ask_bind fun n => ?_
    split
    · exact k.alloc trivial
    · exact keeps_fatal _
  | hash => exact keeps_check_bind fun v => keeps_ask_bind fun _ => k.alloc trivial
  | isinstance =>
    refine keeps_check_bind fun p => keeps_ask_bind fun n => ?_
    exact keeps_bind (keeps_instanceOfWithin n p.1 p.2) fun _ => keeps_boolean _
  | iter => exact keeps_check_bind fun v => hi.iter v
  | len =>
    exact keeps_check_bind fun v => keeps_ask_bind fun n => keeps_check_bind fun _ =>
      k.alloc trivial
  | max => exact keeps_bind (keeps_candidates k ha _ _) fun c => keeps_ask _
  | min => exact keeps_bind (keeps_candidates k ha _ _) fun c => keeps_ask _
  | next =>
    refine keeps_check_bind fun p => keeps_bind (hi.next p.1) fun r => ?_
    split
    · exact keeps_pure _
    · exact keeps_pure _
    · exact keeps_fatal _
  | «open» =>
    refine keeps_check_bind fun p => keeps_ask_bind fun path => ?_
    exact keeps_bind (keeps_optionMapM (fun _ => keeps_ask _) _) fun _ =>
      keeps_openFile k (hf rfl) _ _
  | ord => exact keeps_check_bind fun v => keeps_ask_bind fun _ => k.alloc trivial
  | print => exact keeps_print k args kwargs
  | repr => exact keeps_check_bind fun v => keeps_ask_bind fun _ => k.alloc trivial
  | sorted =>
    refine keeps_check_bind fun v => keeps_bind (hi.collect v) fun items => ?_
    exact keeps_ask_bind fun _ => k.alloc trivial
  | arguments =>
    exact keeps_bind (k.alloc trivial) fun _ => keeps_bind keeps_nothing fun _ => k.alloc trivial

end Functions

/-! ## Built-in types -/

section Types

variable {args : List Handle} (hc : ∀ v ∈ args, Keeps I (collect v))

include hc in
theorem keeps_contents : Keeps I (contents args) := by
  cases args with
  | nil => exact keeps_pure _
  | cons v rest => exact hc v List.mem_cons_self

theorem keeps_integerOf (args : List Handle) : Keeps I (integerOf args) := by
  refine keeps_check_bind fun _ => ?_
  match args with
  | [] => exact keeps_pure _
  | [v] =>
    refine keeps_ask_bind fun o => ?_
    split
    · exact keeps_check _
    · split
      · exact keeps_pure _
      · exact keeps_ask _
  | [v, base] =>
    exact keeps_ask_bind fun n => keeps_guard (keeps_ask_bind fun _ => keeps_check _)
  | _ :: _ :: _ :: _ => exact keeps_violate _

include hc in
theorem keeps_bytesOf : Keeps I (bytesOf args) := by
  refine keeps_check_bind fun _ => ?_
  match args with
  | [] => exact keeps_pure _
  | [v] =>
    refine keeps_ask_bind fun o => ?_
    split
    · exact keeps_pure _
    · exact keeps_guard (keeps_guard (keeps_pure _))
    · exact keeps_fatal _
    · refine keeps_bind (hc v List.mem_cons_self) fun items => ?_
      exact keeps_arrayMapM (fun _ => keeps_ask _) _
  | [v, encoding] =>
    exact keeps_ask_bind fun _ => keeps_check_bind fun _ => keeps_ask_bind fun _ => keeps_check _
  | _ :: _ :: _ :: _ => exact keeps_violate _

include k

theorem keeps_rangeOf (args : List Handle) : Keeps I (rangeOf args) := by
  refine keeps_check_bind fun _ => ?_
  refine keeps_bind (keeps_mapM (fun _ => keeps_ask _) args) fun ns => ?_
  split
  · exact k.newRange _ _ _
  · exact k.newRange _ _ _
  · exact k.newRange _ _ _
  · exact keeps_fatal _

theorem keeps_enumerateOf (args : List Handle) : Keeps I (enumerateOf args) := by
  refine keeps_check_bind fun _ => ?_
  cases args with
  | nil => exact keeps_violate _
  | cons v rest =>
    refine keeps_bind (keeps_optionMapM (fun _ => keeps_ask _) _) fun count => ?_
    exact keeps_bind (k.yields.iter v) fun _ => k.alloc trivial

theorem keeps_zipOf (args : List Handle) : Keeps I (zipOf args) := by
  refine keeps_check_bind fun p => keeps_bind (k.yields.iter p.1) fun _ => ?_
  exact keeps_bind (k.yields.iter p.2) fun _ => k.alloc trivial

include hc

theorem keeps_construct (kind : Kind) (kwargs : Option Handle) :
    Keeps I (construct kind args kwargs) := by
  unfold construct
  refine keeps_guard ?_
  split
  case h_1 =>
    refine keeps_check_bind fun _ => ?_
    cases args with
    | nil => exact keeps_boolean _
    | cons v rest => exact keeps_ask_bind fun _ => keeps_boolean _
  case h_2 => exact keeps_bind (keeps_integerOf args) fun _ => k.alloc trivial
  case h_3 =>
    refine keeps_check_bind fun _ => ?_
    cases args with
    | nil => exact k.alloc trivial
    | cons v rest => exact keeps_ask_bind fun _ => k.alloc trivial
  case h_4 => exact keeps_bind (keeps_bytesOf hc) fun _ => k.alloc trivial
  case h_5 | h_6 =>
    exact keeps_check_bind fun _ => keeps_bind (keeps_contents hc) fun _ => k.alloc trivial
  case h_7 =>
    exact keeps_check_bind fun _ => keeps_bind (keeps_contents hc) fun _ => keeps_newSet k _
  case h_8 =>
    refine keeps_check_bind fun _ => k.alloc_bind (o := .dict .empty) trivial fun d hd => ?_
    cases args with
    | nil => exact keeps_pure d
    | cons source rest =>
      have hsource := hc source List.mem_cons_self
      exact keeps_bind (keeps_dictUpdate hsource (k.fill hd)) fun _ => keeps_pure d
  case h_9 => exact keeps_rangeOf k args
  case h_10 => exact keeps_enumerateOf k args
  case h_11 => exact keeps_check_bind fun v => k.yields.reversed v
  case h_12 => exact keeps_zipOf k args
  case h_13 => exact keeps_check_bind fun v => keeps_typeOf v
  case h_14 => exact keeps_fatal _

end Types

/-! ## Methods -/

section Methods

variable {d l u f : Handle} {args : List Handle}

theorem keeps_presentArgument (m : Method) (args : List Handle) :
    Keeps I (m.presentArgument args) := by
  refine keeps_check_bind fun w? => ?_
  cases w? with
  | none => exact keeps_pure _
  | some w => exact keeps_bind (keeps_isNone w) fun _ => keeps_pure _

include k ha in
theorem keeps_listMethod (m : ListMethod) (hl : Bears I (.fill l)) (items : Array Handle) :
    Keeps I (listMethod m l items args) := by
  have hset : ∀ f, Keeps I (do updateList l f; nothing) := fun f =>
    keeps_bind (keeps_updateList hl f) fun _ => keeps_nothing
  cases m with
  | append => exact keeps_check_bind fun v => hset _
  | count => exact keeps_check_bind fun v => keeps_ask_bind fun _ => k.alloc trivial
  | extend =>
    exact keeps_check_bind fun v => keeps_bind ((k.iterates ha).collect v) fun more => hset _
  | index => exact keeps_check_bind fun v => keeps_ask_bind fun _ => k.alloc trivial
  | insert => exact keeps_check_bind fun p => keeps_ask_bind fun i => keeps_inRange (hset _)
  | pop =>
    refine keeps_check_bind fun w? => ?_
    extract_lets finish
    have hfinish : ∀ i, Keeps I (finish i) := fun i =>
      keeps_guard (keeps_check_bind fun i => keeps_inRange
        (keeps_bind (keeps_updateList hl _) fun _ => keeps_pure _))
    cases w? with
    | some w => exact keeps_ask_bind hfinish
    | none => exact hfinish _
  | remove =>
    exact keeps_check_bind fun v => keeps_ask_bind fun i => keeps_inRange (hset _)
  | reverse => exact keeps_check_bind fun _ => hset _
  | sort => exact keeps_check_bind fun _ => keeps_ask_bind fun sorted => hset _
  | clear => exact keeps_check_bind fun _ => hset _
  | copy => exact keeps_check_bind fun _ => k.alloc trivial

include k in
theorem keeps_tupleMethod (m : TupleMethod) (items : Array Handle) :
    Keeps I (tupleMethod m items args) := by
  refine keeps_check_bind fun needle => ?_
  cases m with
  | count => exact keeps_ask_bind fun _ => k.alloc trivial
  | index => exact keeps_ask_bind fun _ => k.alloc trivial

include k ha in
theorem keeps_dictMethod (m : DictMethod) (hd : Bears I (.fill d))
    (entries : Table (Handle × Handle)) : Keeps I (dictMethod m d entries args) := by
  cases m with
  | clear =>
    exact keeps_check_bind fun _ => keeps_bind (keeps_updateDict hd _) fun _ => keeps_nothing
  | copy => exact keeps_check_bind fun _ => k.alloc trivial
  | get =>
    refine keeps_check_bind fun p => keeps_ask_bind fun w? => ?_
    split
    · exact keeps_pure _
    · exact keeps_pure _
    · exact keeps_nothing
  | keys => exact keeps_check_bind fun _ => k.alloc trivial
  | values => exact keeps_check_bind fun _ => k.alloc trivial
  | items => exact keeps_check_bind fun _ => k.alloc trivial
  | pop =>
    refine keeps_check_bind fun p => keeps_bind (keeps_dictRemove hd p.1) fun w? => ?_
    split
    · exact keeps_pure _
    · exact keeps_pure _
    · exact keeps_ask _
  | update =>
    refine keeps_check_bind fun source => ?_
    exact keeps_bind (keeps_dictUpdate ((k.iterates ha).collect source) hd) fun _ => keeps_nothing

include k ha in
theorem keeps_addAll (hu : Bears I (.fill u)) (source : Handle) : Keeps I (addAll u source) :=
  keeps_bind ((k.iterates ha).collect source) fun _ => keeps_insertAll hu _

include k ha in
theorem keeps_removeAll (hu : Bears I (.fill u)) (source : Handle) :
    Keeps I (removeAll u source) :=
  keeps_bind ((k.iterates ha).collect source) fun _ =>
    keeps_forM (fun item => keeps_bind (keeps_setRemove hu item) fun _ => keeps_pure _) _

include k ha in
theorem keeps_setMethod (m : SetMethod) (hu : Bears I (.fill u)) (members : Table Handle) :
    Keeps I (setMethod m u members args) := by
  cases m with
  | add =>
    exact keeps_check_bind fun v => keeps_bind (keeps_setInsert hu v) fun _ => keeps_nothing
  | clear =>
    exact keeps_check_bind fun _ => keeps_bind (keeps_updateSet hu _) fun _ => keeps_nothing
  | copy => exact keeps_check_bind fun _ => k.alloc trivial
  | differenceUpdate =>
    exact keeps_bind (keeps_forM (keeps_removeAll k ha hu) args) fun _ => keeps_nothing
  | discard =>
    exact keeps_check_bind fun v => keeps_bind (keeps_setRemove hu v) fun _ => keeps_nothing
  | remove =>
    refine keeps_check_bind fun v => keeps_bind (keeps_setRemove hu v) fun b => ?_
    exact keeps_ite keeps_nothing (keeps_ask_bind fun _ => keeps_fatal _)
  | update => exact keeps_bind (keeps_forM (keeps_addAll k ha hu) args) fun _ => keeps_nothing

include k ha in
theorem keeps_strMethod (m : StrMethod) (s : String) : Keeps I (strMethod m s args) := by
  cases m with
  | join =>
    refine keeps_check_bind fun v => keeps_bind ((k.iterates ha).collect v) fun items => ?_
    exact keeps_bind (keeps_mapM (fun _ => keeps_ask _) _) fun _ => k.alloc trivial
  | split =>
    refine keeps_bind (keeps_presentArgument _ args) fun w? => ?_
    extract_lets finish
    have hfinish : ∀ parts, Keeps I (finish parts) := fun parts =>
      keeps_bind (keeps_mapM (fun text => k.alloc (o := .str text none) trivial) parts) fun _ =>
        k.alloc trivial
    cases w? with
    | none => exact hfinish _
    | some w => exact keeps_ask_bind fun sep => keeps_guard (hfinish _)
  | startswith => exact keeps_check_bind fun v => keeps_ask_bind fun _ => keeps_boolean _
  | endswith => exact keeps_check_bind fun v => keeps_ask_bind fun _ => keeps_boolean _
  | upper => exact keeps_check_bind fun _ => k.alloc trivial
  | lower => exact keeps_check_bind fun _ => k.alloc trivial
  | strip =>
    refine keeps_bind (keeps_presentArgument _ args) fun w? => ?_
    cases w? with
    | none => exact k.alloc trivial
    | some w => exact keeps_ask_bind fun _ => k.alloc trivial

include k in
theorem keeps_decodeMethod (bs : Array UInt8) : Keeps I (decodeMethod bs args) := by
  refine keeps_check_bind fun w? => ?_
  extract_lets finish
  have hfinish : ∀ e, Keeps I (finish e) := fun e => keeps_check_bind fun _ => k.alloc trivial
  cases w? with
  | none => exact hfinish _
  | some w => exact keeps_ask_bind fun _ => keeps_check_bind hfinish

theorem keeps_updateStream (hf : Bears I .files) (stream : Stream) :
    Keeps I (updateStream f stream) := by
  refine keeps_ask_bind fun _ => keeps_update (hf.2 f) fun o => ?_
  cases o <;> first
    | exact ⟨stream, rfl⟩
    | rfl

theorem keeps_contentFor (r : Reader) (limit : Option Nat) : Keeps I (contentFor r limit) := by
  refine keeps_get_bind fun s => ?_
  split
  · exact keeps_pure _
  · exact keeps_ite (keeps_pure _) (keeps_fatal _)

include k in
theorem keeps_newContent (binary : Bool) (bytes : Array UInt8) :
    Keeps I (newContent binary bytes) := by
  refine keeps_ite (k.alloc trivial) ?_
  split
  · exact k.alloc trivial
  · exact keeps_fatal _

include k in
theorem keeps_fileMethod (m : FileMethod) (hf : Files I) (file : File) :
    Keeps I (fileMethod m f file args) := by
  have hclose : Keeps I (do
      updateStream f .closed
      nothing) := keeps_bind (keeps_updateStream hf.files _) fun _ => keeps_nothing
  cases m with
  | read =>
    refine keeps_bind (keeps_presentArgument _ args) fun w? => ?_
    refine keeps_bind (keeps_optionMapM (fun _ => keeps_ask _) _) fun limit => ?_
    split
    · refine keeps_bind (keeps_contentFor _ _) fun content => ?_
      exact keeps_bind (keeps_updateStream hf.files _) fun _ => keeps_newContent k _ _
    · exact keeps_fatal _
    · exact keeps_fatal _
  | write =>
    refine keeps_check_bind fun w => keeps_ask_bind fun o => ?_
    extract_lets send
    have hsend : ∀ data, Keeps I (send data) := fun data => by
      unfold send
      split
      · exact keeps_bind (keeps_changeDisk hf.disk _) fun _ =>
          keeps_bind (keeps_updateStream hf.files _) fun _ => keeps_nothing
      · exact keeps_fatal _
      · exact keeps_fatal _
    split
    · exact hsend _
    · exact hsend _
    · exact keeps_ask_bind hsend
  | close =>
    refine keeps_check_bind fun _ => ?_
    dsimp only
    split
    · exact keeps_bind (keeps_changeDisk hf.disk _) fun _ => hclose
    · exact hclose

end Methods

end ObjectSpace.Space

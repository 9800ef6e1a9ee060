import ObjectSpace.Proofs.Run.Calls

/-!
# Operations

`Operation` lists what a program can ask of a space apart from collections: the values it can make
and intern, the operators, items, slices and attributes, dicts and sets, iterators, contexts and
names, calls of what is built in, the readings, and its output. The disk may change from outside
between two operations, so that is one more of them. Code of the program is left out: a call of it
stops with a violation.

**Theorem (`runs_operation`).** Under every trust, an operation that is given `ok` handles is made
of primitive steps and gives only `ok` handles back.
-/

namespace ObjectSpace

/-- What can be asked of a space, collections apart. -/
inductive Operation where
  | nothing
  | boolean (b : Bool)
  | typeObject (k : Kind)
  | internInt (n : Int64)
  | internStr (text : String)
  | newInt (n : Int64)
  | newStr (text : String)
  | newBytes (bs : Array UInt8)
  | newList (items : Array Handle)
  | newTuple (items : Array Handle)
  | newDict (pairs : List (Handle × Handle))
  | newSet (items : List Handle)
  | newRange (start stop step : Int64)
  | newFunction (name : String) (code : Nat)
  | newClass (name : String) (members : List (String × Handle))
  | binary (op : BinaryOp) (a b : Handle)
  | unary (op : UnaryOp) (v : Handle)
  | compare (op : Comparison) (a b : Handle)
  | contains (container item : Handle)
  | notContains (container item : Handle)
  | getItem (container key : Handle)
  | setItem (container key value : Handle)
  | deleteItem (container key : Handle)
  | slice (v : Handle) (start stop step : Option Handle)
  | typeOf (v : Handle)
  | getAttribute (v : Handle) (name : String)
  | setAttribute (v : Handle) (name : String) (value : Handle)
  | dictLookup (d key : Handle)
  | dictGet (d key : Handle)
  | dictInsert (d key value : Handle)
  | dictRemove (d key : Handle)
  | dictUpdate (d source : Handle)
  | setContains (u member : Handle)
  | setInsert (u member : Handle)
  | setRemove (u member : Handle)
  | iter (v : Handle)
  | next (it : Handle)
  | collect (v : Handle)
  | newContext (parent : Option Handle) (slots : Nat)
  | parentContext (ctx : Handle)
  | store (ctx : Handle) (index : Nat) (v : Handle)
  | load (ctx : Handle) (index : Nat)
  | declareGlobal (ctx : Handle) (name : String)
  | storeName (ctx : Handle) (name : String) (v : Handle)
  | loadName (ctx : Handle) (name : String)
  | bindFunction (ctx : Handle) (name : String) (f : Builtin) (keywords : List String)
  | bindType (ctx : Handle) (k : Kind)
  | initContext (ctx : Handle) (argv : List String)
  | call (ctx callee args : Handle) (kwargs : Option Handle)
  | callWith (ctx callee : Handle) (args : List Handle)
  | equal (a b : Handle)
  | hash (v : Handle)
  | lessThan (a b : Handle)
  | compares (op : Comparison) (a b : Handle)
  | sort (items : List Handle)
  | truthy (v : Handle)
  | repr (v : Handle)
  | str (v : Handle)
  | percentFormat (format : String) (v : Handle)
  | typeName (v : Handle)
  | asInt (v : Handle)
  | asStr (v : Handle)
  | expectInt (v : Handle) (name : String)
  | expectStr (v : Handle) (name : String)
  | arguments (v : Handle)
  | write (text : String)
  | takeOutput
  | outside (disk : Disk)

namespace Operation

/-- The handles that an operation is given. -/
def handles : Operation → List Handle
  | nothing | boolean _ | typeObject _ | internInt _ | internStr _ | newInt _ | newStr _
  | newBytes _ | newRange .. | newFunction .. | write _ | takeOutput | outside _ => []
  | newList items | newTuple items => items.toList
  | newSet items | sort items => items
  | newDict pairs => Carries.handles pairs
  | newClass _ members => members.map (·.2)
  | unary _ v | typeOf v | getAttribute v _ | iter v | next v | collect v | hash v | truthy v
  | repr v | str v | percentFormat _ v | typeName v | asInt v | asStr v | expectInt v _
  | expectStr v _ | arguments v => [v]
  | parentContext c | load c _ | declareGlobal c _ | loadName c _ | bindFunction c ..
  | bindType c _ | initContext c _ => [c]
  | binary _ a b | compare _ a b | contains a b | notContains a b | getItem a b | deleteItem a b
  | setAttribute a _ b | dictLookup a b | dictGet a b | dictRemove a b | dictUpdate a b
  | setContains a b | setInsert a b | setRemove a b | store a _ b | storeName a _ b | equal a b
  | lessThan a b | compares _ a b => [a, b]
  | setItem a b c | dictInsert a b c => [a, b, c]
  | slice v start stop step => v :: (start.toList ++ stop.toList ++ step.toList)
  | newContext parent _ => parent.toList
  | call ctx callee args kwargs => [ctx, callee, args] ++ kwargs.toList
  | callWith ctx callee args => [ctx, callee] ++ args

/-- Do something and give the handles in what it returns. -/
def returned {α : Type} [Carries α] (act : Action α) : Action (List Handle) :=
  Carries.handles <$> act

/-- Run an operation, giving the handles that it returns. -/
def run : Operation → Action (List Handle)
  | nothing => returned Space.nothing
  | boolean b => returned (Space.boolean b)
  | typeObject k => returned (Space.typeObject k)
  | internInt n => returned (Space.internInt n)
  | internStr text => returned (Space.internStr text)
  | newInt n => returned (Space.newInt n)
  | newStr text => returned (Space.newStr text)
  | newBytes bs => returned (Space.newBytes bs)
  | newList items => returned (Space.newList items)
  | newTuple items => returned (Space.newTuple items)
  | newDict pairs => returned (Space.newDict pairs)
  | newSet items => returned (Space.newSet items)
  | newRange start stop step => returned (Space.newRange start stop step)
  | newFunction name code => returned (Space.newFunction name code)
  | newClass name members => returned (Space.newClass name members)
  | binary op a b => returned (Space.binary op a b)
  | unary op v => returned (Space.unary op v)
  | compare op a b => returned (Space.compare op a b)
  | contains container item => returned (Space.contains container item)
  | notContains container item => returned (Space.notContains container item)
  | getItem container key => returned (Space.getItem container key)
  | setItem container key value => returned (Space.setItem container key value)
  | deleteItem container key => returned (Space.deleteItem container key)
  | slice v start stop step => returned (Space.slice v start stop step)
  | typeOf v => returned (Space.typeOf v)
  | getAttribute v name => returned (Space.getAttribute v name)
  | setAttribute v name value => returned (Space.setAttribute v name value)
  | dictLookup d key => returned (liftM (Heap.dictLookup d key))
  | dictGet d key => returned (liftM (Heap.dictGet d key))
  | dictInsert d key value => returned (Space.dictInsert d key value)
  | dictRemove d key => returned (Space.dictRemove d key)
  | dictUpdate d source => returned (Space.dictUpdate d source)
  | setContains u member => returned (liftM (Heap.setContains u member))
  | setInsert u member => returned (Space.setInsert u member)
  | setRemove u member => returned (Space.setRemove u member)
  | iter v => returned (Space.iter v)
  | next it => returned (Space.next it)
  | collect v => returned (Space.collect v)
  | newContext parent slots => returned (Space.newContext parent slots)
  | parentContext ctx => returned (liftM (Heap.parentContext ctx))
  | store ctx index v => returned (Space.store ctx index v)
  | load ctx index => returned (liftM (Heap.load ctx index))
  | declareGlobal ctx name => returned (Space.declareGlobal ctx name)
  | storeName ctx name v => returned (Space.storeName ctx name v)
  | loadName ctx name => returned (Space.loadName ctx name)
  | bindFunction ctx name f keywords => returned (Space.bindFunction ctx name f keywords)
  | bindType ctx k => returned (Space.bindType ctx k)
  | initContext ctx argv => returned (Space.initContext ctx argv)
  | call ctx callee args kwargs => returned (Space.call noCode ctx callee args kwargs)
  | callWith ctx callee args => returned (Space.callWith noCode ctx callee args)
  | equal a b => returned (liftM (Heap.equal a b))
  | hash v => returned (liftM (Heap.hash v))
  | lessThan a b => returned (liftM (Heap.lessThan a b))
  | compares op a b => returned (liftM (Heap.compares op a b))
  | sort items => returned (liftM (Heap.sort items))
  | truthy v => returned (liftM (Heap.truthy v))
  | repr v => returned (liftM (Heap.repr v))
  | str v => returned (liftM (Heap.str v))
  | percentFormat format v => returned (liftM (Heap.percentFormat format v))
  | typeName v => returned (liftM (Heap.typeName v))
  | asInt v => returned (liftM (Heap.asInt? v))
  | asStr v => returned (liftM (Heap.asStr? v))
  | expectInt v name => returned (liftM (Heap.expectInt v name))
  | expectStr v name => returned (liftM (Heap.expectStr v name))
  | arguments v => returned (liftM (Heap.arguments v))
  | write text => returned (Space.write text)
  | takeOutput => returned Space.takeOutput
  | outside disk => returned (Space.changeDisk fun _ => ((), disk))

end Operation

namespace Trust

variable {T : Trust} {s : Space} {α : Type} [Carries α]

theorem runs_returned {act : Action α} (ha : T.Runs s act) :
    T.Runs s (Operation.returned act) := by
  rw [Operation.returned, map_eq_pure_bind]
  exact runs_bind ha fun a s' _ ha => runs_pure ((ok_list _).2 fun h hh => by simpa using ha h hh)

theorem runs_reading {q : Query α} (hq : T.Asks s q) :
    T.Runs s (Operation.returned (liftM q)) := runs_returned (runs_ask hq)

/-- An operation on `ok` handles is made of primitive steps and gives `ok` handles back. -/
theorem runs_operation (op : Operation) (h : ∀ g ∈ op.handles, T.ok s.heap g) :
    T.Runs s op.run := by
  cases op
  all_goals
    simp only [Operation.handles, List.forall_mem_cons, List.forall_mem_append, List.not_mem_nil,
      false_implies, implies_true, and_true, Option.mem_toList] at h
    unfold Operation.run
  case nothing => exact runs_returned runs_nothing
  case boolean => exact runs_returned (runs_boolean _)
  case typeObject => exact runs_returned (runs_typeObject _)
  case internInt => exact runs_returned (runs_internInt _)
  case internStr => exact runs_returned (runs_internStr _)
  case newInt => exact runs_returned (runs_newInt _)
  case newStr => exact runs_returned (runs_newStr _)
  case newBytes => exact runs_returned (runs_newBytes _)
  case newList => exact runs_returned (runs_newList (by simpa using h))
  case newTuple => exact runs_returned (runs_newTuple (by simpa using h))
  case newDict => exact runs_returned (runs_newDict h)
  case newSet => exact runs_returned (runs_newSet h)
  case newRange => exact runs_returned (runs_newRange _ _ _)
  case newFunction => exact runs_returned (runs_newFunction _ _)
  case newClass => exact runs_returned (runs_newClass fun m hm => h _ (List.mem_map_of_mem hm))
  case binary => exact runs_returned (runs_binary _ h.1 h.2)
  case unary => exact runs_returned (runs_unary _ h)
  case compare => exact runs_returned (runs_compare _ h.1 h.2)
  case contains => exact runs_returned (runs_contains h.1 h.2)
  case notContains => exact runs_returned (runs_notContains h.1 h.2)
  case getItem => exact runs_returned (runs_getItem h.1 h.2)
  case setItem => exact runs_returned (runs_setItem h.1 h.2.1 h.2.2)
  case deleteItem => exact runs_returned (runs_deleteItem h.1 h.2)
  case slice =>
    exact runs_returned (runs_slice h.1 (by simpa [ok_option] using h.2.1.1)
      (by simpa [ok_option] using h.2.1.2) (by simpa [ok_option] using h.2.2))
  case typeOf => exact runs_returned (runs_typeOf h)
  case getAttribute => exact runs_returned (runs_getAttribute _ h)
  case setAttribute => exact runs_returned (runs_setAttribute _ h.1 h.2)
  case dictLookup => exact runs_reading (asks_dictLookup h.1 h.2)
  case dictGet => exact runs_reading (asks_dictGet h.1 h.2)
  case dictInsert => exact runs_returned (runs_dictInsert h.1 h.2.1 h.2.2)
  case dictRemove => exact runs_returned (runs_dictRemove h.1 h.2)
  case dictUpdate => exact runs_returned (runs_dictUpdate h.1 h.2)
  case setContains => exact runs_reading (asks_setContains h.1 h.2)
  case setInsert => exact runs_returned (runs_setInsert h.1 h.2)
  case setRemove => exact runs_returned (runs_setRemove h.1 h.2)
  case iter => exact runs_returned (runs_iter h)
  case next => exact runs_returned (runs_next h)
  case collect => exact runs_returned (runs_collect h)
  case newContext => exact runs_returned (runs_newContext _ (by simpa [ok_option] using h))
  case parentContext => exact runs_reading (asks_parentContext h)
  case store => exact runs_returned (runs_store _ h.1 h.2)
  case load => exact runs_reading (asks_load _ h)
  case declareGlobal => exact runs_returned (runs_declareGlobal _ h)
  case storeName => exact runs_returned (runs_storeName _ h.1 h.2)
  case loadName => exact runs_returned (runs_loadName _ h)
  case bindFunction => exact runs_returned (runs_bindFunction _ _ _ h)
  case bindType => exact runs_returned (runs_bindType _ h)
  case initContext => exact runs_returned (runs_initContext _ h)
  case call =>
    exact runs_returned (runs_call runsCode_noCode h.1.1 h.1.2.1 h.1.2.2
      (by simpa [ok_option] using h.2))
  case callWith => exact runs_returned (runs_callWith runsCode_noCode h.1.1 h.1.2 h.2)
  case equal => exact runs_reading (asks_equal h.1 h.2)
  case hash => exact runs_reading (asks_hash h)
  case lessThan => exact runs_reading (asks_lessThan h.1 h.2)
  case compares => exact runs_reading (asks_compares _ h.1 h.2)
  case sort => exact runs_reading (asks_sort h)
  case truthy => exact runs_reading (asks_truthy h)
  case repr => exact runs_reading (asks_repr h)
  case str => exact runs_reading (asks_str h)
  case percentFormat => exact runs_reading (asks_percentFormat _ h)
  case typeName => exact runs_reading (asks_typeName h)
  case asInt => exact runs_reading (asks_asInt? h)
  case asStr => exact runs_reading (asks_asStr? h)
  case expectInt => exact runs_reading (asks_expectInt _ h)
  case expectStr => exact runs_reading (asks_expectStr _ h)
  case arguments => exact runs_reading (asks_arguments h)
  case write => exact runs_returned (runs_write _)
  case takeOutput => exact runs_returned runs_takeOutput
  case outside => exact runs_returned (runs_changeDisk _)

end Trust

end ObjectSpace

import ObjectSpace.Bindings
import ObjectSpace.Builtin
import ObjectSpace.Files.Stream
import ObjectSpace.Method
import ObjectSpace.Progression
import ObjectSpace.Table

/-!
# Objects

The values of a program, as they are stored in the arena. An object refers to others by handle, so
an object is a plain finite piece of data whatever graph the handles form. `Object.children` lists
the handles an object keeps alive; `Object.footprint` is the size that decides its size class.
-/

namespace ObjectSpace

/-- Which part of the entries of a dict a view or an iterator shows. -/
inductive ViewPart where
  | keys | values | items
  deriving DecidableEq

/-- Where an iterator stands. Texts are addressed by byte offset. Once `done` is set an iterator
over entries or members stays at its end. -/
inductive Cursor where
  | forward (sequence : Handle) (kind : Kind) (position : Nat)
  | backward (sequence : Handle) (position : Nat)
  | range (next step : Int64) (remaining : Nat)
  | entries (dict : Handle) (part : ViewPart) (hash : UInt64) (place : Nat) (done : Bool)
  | members (set : Handle) (hash : UInt64) (place : Nat) (done : Bool)
  | enumerate (inner : Handle) (count : Int64)
  | zip (left right : Handle)

/-- What runs when a function is called. -/
inductive Entry where
  /-- Code of the program, by number. -/
  | compiled (code : Nat)
  /-- A built-in function with the keyword arguments it accepts. -/
  | builtin (function : Builtin) (keywords : List String)
  /-- A method of a built-in type; the receiver is the first positional argument. -/
  | method (m : Method)

/-- The variables of one activation. Names listed in `globals` are looked up in the outermost
context instead. -/
structure Context where
  slots : Array (Option Handle) := #[]
  names : Bindings := {}
  globals : List String := []
  parent : Option Handle := none

/-- A file that was opened under `path`. -/
structure File where
  path : String
  binary : Bool
  stream : Stream

/-- An object of the heap. -/
inductive Object where
  | nothing
  | bool (b : Bool)
  | int (n : Int64)
  /-- A text; interned texts carry their hash. -/
  | str (s : String) (hash? : Option UInt64)
  | bytes (bs : Array UInt8)
  | list (items : Array Handle)
  | tuple (items : Array Handle)
  | dict (entries : Table (Handle × Handle))
  | set (members : Table Handle)
  | userInstance (cls : Handle) (attributes : Bindings)
  | userClass (name : String) (members : Bindings)
  | boundMethod (receiver function : Handle)
  | function (name : String) (entry : Entry)
  | file (f : File)
  | iter (c : Cursor)
  | range (p : Progression)
  | view (dict : Handle) (part : ViewPart)
  | type (k : Kind)
  | context (c : Context)

/-- The type of a view. -/
def ViewPart.kind : ViewPart → Kind
  | keys => .dictKeys
  | values => .dictValues
  | items => .dictItems

/-- The type of an iterator over that part of a dict. -/
def ViewPart.iteratorKind : ViewPart → Kind
  | keys => .dictKeyIterator
  | values => .dictValueIterator
  | items => .dictItemIterator

namespace Cursor

/-- The type of an iterator. -/
def kind : Cursor → Kind
  | forward _ k _ => k
  | backward .. => .reversed
  | range .. => .rangeIterator
  | entries _ part .. => part.iteratorKind
  | members .. => .setIterator
  | enumerate .. => .enumerate
  | zip .. => .zip

/-- The handles an iterator keeps alive. -/
def children : Cursor → List Handle
  | forward s .. => [s]
  | backward s _ => [s]
  | range .. => []
  | entries d .. => [d]
  | members s .. => [s]
  | enumerate inner _ => [inner]
  | zip left right => [left, right]

end Cursor

/-- The type of a function. -/
def Entry.kind : Entry → Kind
  | compiled _ => .function
  | builtin .. => .builtinFunction
  | method _ => .methodDescriptor

/-- The handles a context keeps alive. -/
def Context.children (c : Context) : List Handle :=
  c.slots.toList.filterMap id ++ c.names.handles ++ c.parent.toList

namespace Object

/-- The built-in type of an object; instances and contexts have none. -/
def kind? : Object → Option Kind
  | nothing => some .noneType
  | bool _ => some .bool
  | int _ => some .int
  | str .. => some .str
  | bytes _ => some .bytes
  | list _ => some .list
  | tuple _ => some .tuple
  | dict _ => some .dict
  | set _ => some .set
  | userClass .. => some .type
  | boundMethod .. => some .method
  | function _ entry => some entry.kind
  | file _ => some .file
  | iter c => some c.kind
  | range _ => some .range
  | view _ part => some part.kind
  | type _ => some .type
  | userInstance .. => none
  | context _ => none

/-- The size of an object in bytes: a header word and what the object holds in place. -/
def footprint : Object → Nat
  | nothing => 8
  | bool _ => 9
  | int _ => 16
  | str .. => 40
  | bytes _ => 32
  | list _ => 32
  | tuple _ => 24
  | dict _ => 16
  | set _ => 16
  | userInstance .. => 16
  | userClass .. => 16
  | boundMethod .. => 32
  | function .. => 56
  | file _ => 16
  | iter _ => 16
  | range _ => 32
  | view .. => 21
  | type _ => 9
  | context _ => 176

/-- The size class an object goes to. -/
def sizeClass (o : Object) : SizeClass := (SizeClass.ofSize? o.footprint).getD SizeClass.large

theorem ofSize?_footprint (o : Object) : SizeClass.ofSize? o.footprint = some o.sizeClass := by
  cases o <;> rfl

/-- The handles an object keeps alive. -/
def children : Object → List Handle
  | list items => items.toList
  | tuple items => items.toList
  | dict t => t.toList.flatMap fun (k, v) => [k, v]
  | set t => t.toList
  | userInstance c attributes => c :: attributes.handles
  | userClass _ members => members.handles
  | boundMethod receiver f => [receiver, f]
  | iter c => c.children
  | view d _ => [d]
  | context c => c.children
  | nothing | bool _ | int _ | str .. | bytes _ | function .. | file _ | range _ | type _ => []

/-- The integer that an integer or a Boolean counts as. -/
def asInt? : Object → Option Int64
  | int n => some n
  | bool b => some (if b then 1 else 0)
  | _ => none

/-- The text of a text object. -/
def asStr? : Object → Option String
  | str s _ => some s
  | _ => none

/-- The elements of a list or a tuple. -/
def asSequence? : Object → Option (Array Handle)
  | list items => some items
  | tuple items => some items
  | _ => none

end Object

end ObjectSpace

import ObjectSpace.Kind

/-!
# Built-in methods

The methods of built-in types. Each has an owner and a name that is unique among the methods of
that owner; `Method.lookup?` is the inverse of the pair. Methods are numbered in the order of
`Method.all`, which is also the order in which their function objects are made.
-/

namespace ObjectSpace

/-- Methods of `dict`. -/
inductive DictMethod where
  | clear | copy | get | keys | items | values | pop | update
  deriving DecidableEq

/-- Methods of `list`. -/
inductive ListMethod where
  | append | count | extend | index | insert | pop | remove | reverse | sort | clear | copy
  deriving DecidableEq

/-- Methods of `set`. -/
inductive SetMethod where
  | add | clear | copy | differenceUpdate | discard | remove | update
  deriving DecidableEq

/-- Methods of `str`. -/
inductive StrMethod where
  | join | split | startswith | endswith | upper | lower | strip
  deriving DecidableEq

/-- Methods of `tuple`. -/
inductive TupleMethod where
  | count | index
  deriving DecidableEq

/-- Methods of `file`. -/
inductive FileMethod where
  | read | write | close
  deriving DecidableEq

/-- A method of a built-in type; `bytes` has the single method `decode`. -/
inductive Method where
  | dict (m : DictMethod)
  | list (m : ListMethod)
  | set (m : SetMethod)
  | str (m : StrMethod)
  | tuple (m : TupleMethod)
  | bytesDecode
  | file (m : FileMethod)
  deriving DecidableEq

namespace Method

/-- All methods in order. -/
def all : Vector Method 39 :=
  #v[dict .clear, dict .copy, dict .get, dict .keys, dict .items, dict .values, dict .pop,
    dict .update,
    list .append, list .count, list .extend, list .index, list .insert, list .pop, list .remove,
    list .reverse, list .sort, list .clear, list .copy,
    set .add, set .clear, set .copy, set .differenceUpdate, set .discard, set .remove, set .update,
    str .join, str .split, str .startswith, str .endswith, str .upper, str .lower, str .strip,
    tuple .count, tuple .index,
    bytesDecode,
    file .read, file .write, file .close]

/-- The place of a method in `all`. -/
def index : Method → Fin 39
  | dict m => ⟨m.ctorIdx, by cases m <;> decide⟩
  | list m => ⟨8 + m.ctorIdx, by cases m <;> decide⟩
  | set m => ⟨19 + m.ctorIdx, by cases m <;> decide⟩
  | str m => ⟨26 + m.ctorIdx, by cases m <;> decide⟩
  | tuple m => ⟨33 + m.ctorIdx, by cases m <;> decide⟩
  | bytesDecode => 35
  | file m => ⟨36 + m.ctorIdx, by cases m <;> decide⟩

theorem all_index (m : Method) : all[m.index] = m := by
  rcases m with m | m | m | m | m | _ | m <;> try cases m
  all_goals rfl

/-- The type whose values have the method. -/
def owner : Method → Kind
  | dict _ => .dict
  | list _ => .list
  | set _ => .set
  | str _ => .str
  | tuple _ => .tuple
  | bytesDecode => .bytes
  | file _ => .file

/-- The attribute name of the method. -/
def name : Method → String
  | dict .clear => "clear"
  | dict .copy => "copy"
  | dict .get => "get"
  | dict .keys => "keys"
  | dict .items => "items"
  | dict .values => "values"
  | dict .pop => "pop"
  | dict .update => "update"
  | list .append => "append"
  | list .count => "count"
  | list .extend => "extend"
  | list .index => "index"
  | list .insert => "insert"
  | list .pop => "pop"
  | list .remove => "remove"
  | list .reverse => "reverse"
  | list .sort => "sort"
  | list .clear => "clear"
  | list .copy => "copy"
  | set .add => "add"
  | set .clear => "clear"
  | set .copy => "copy"
  | set .differenceUpdate => "difference_update"
  | set .discard => "discard"
  | set .remove => "remove"
  | set .update => "update"
  | str .join => "join"
  | str .split => "split"
  | str .startswith => "startswith"
  | str .endswith => "endswith"
  | str .upper => "upper"
  | str .lower => "lower"
  | str .strip => "strip"
  | tuple .count => "count"
  | tuple .index => "index"
  | bytesDecode => "decode"
  | file .read => "read"
  | file .write => "write"
  | file .close => "close"

/-- Owner and name joined by a point, as diagnostics name the method. -/
def qualifiedName (m : Method) : String := m.owner.name ++ "." ++ m.name

/-- The method of type `owner` called `name`. -/
def lookup? (owner : Kind) (name : String) : Option Method :=
  all.toList.find? fun m => m.owner = owner ∧ m.name = name

end Method

end ObjectSpace

/-!
# Built-in types

Every value except an instance of a user class has a built-in type. Types are numbered in the order
of `Kind.all`, which is also the order in which their type objects are made.
-/

namespace ObjectSpace

/-- A built-in type. -/
inductive Kind where
  | noneType | bool | int | str | bytes | list | tuple | dict | set | range
  | enumerate | reversed | zip | type | function | builtinFunction | methodDescriptor | method
  | file | dictKeys | dictValues | dictItems
  | listIterator | tupleIterator | strIterator | bytesIterator | rangeIterator
  | dictKeyIterator | dictValueIterator | dictItemIterator | setIterator
  deriving DecidableEq

namespace Kind

/-- All built-in types in order. -/
def all : Vector Kind 31 :=
  #v[noneType, bool, int, str, bytes, list, tuple, dict, set, range,
    enumerate, reversed, zip, type, function, builtinFunction, methodDescriptor, method,
    file, dictKeys, dictValues, dictItems,
    listIterator, tupleIterator, strIterator, bytesIterator, rangeIterator,
    dictKeyIterator, dictValueIterator, dictItemIterator, setIterator]

/-- The place of a type in `all`. -/
def index (k : Kind) : Fin 31 := ⟨k.ctorIdx, by cases k <;> decide⟩

theorem all_index (k : Kind) : all[k.index] = k := by cases k <;> rfl

/-- The name a program sees. -/
def name : Kind → String
  | noneType => "NoneType"
  | bool => "bool"
  | int => "int"
  | str => "str"
  | bytes => "bytes"
  | list => "list"
  | tuple => "tuple"
  | dict => "dict"
  | set => "set"
  | range => "range"
  | enumerate => "enumerate"
  | reversed => "reversed"
  | zip => "zip"
  | type => "type"
  | function => "function"
  | builtinFunction => "builtin_function_or_method"
  | methodDescriptor => "method_descriptor"
  | method => "method"
  | file => "file"
  | dictKeys => "dict_keys"
  | dictValues => "dict_values"
  | dictItems => "dict_items"
  | listIterator => "list_iterator"
  | tupleIterator => "tuple_iterator"
  | strIterator => "str_iterator"
  | bytesIterator => "bytes_iterator"
  | rangeIterator => "range_iterator"
  | dictKeyIterator => "dict_keyiterator"
  | dictValueIterator => "dict_valueiterator"
  | dictItemIterator => "dict_itemiterator"
  | setIterator => "set_iterator"

/-- The type of a given name. -/
def ofName? (name : String) : Option Kind := all.toList.find? (·.name = name)

end Kind

end ObjectSpace

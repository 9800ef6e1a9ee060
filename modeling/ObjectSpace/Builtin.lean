/-!
# Built-in functions

The functions that are bound by name in the module context, in the order in which they are bound.
-/

namespace ObjectSpace

/-- A built-in function. -/
inductive Builtin where
  | abs | all | any | chr | hash | isinstance | iter | len | max | min | next | open | ord | print
  | repr | sorted
  /-- Gives back its positional arguments as a tuple, paired with its keyword arguments. -/
  | arguments
  deriving DecidableEq

namespace Builtin

/-- The functions every program starts with, in order. -/
def standard : List Builtin :=
  [abs, all, any, chr, hash, isinstance, iter, len, max, min, next, «open», ord, print, repr,
    sorted]

/-- The name a function is bound to. -/
def name : Builtin → String
  | abs => "abs"
  | all => "all"
  | any => "any"
  | chr => "chr"
  | hash => "hash"
  | isinstance => "isinstance"
  | iter => "iter"
  | len => "len"
  | max => "max"
  | min => "min"
  | next => "next"
  | «open» => "open"
  | ord => "ord"
  | print => "print"
  | repr => "repr"
  | sorted => "sorted"
  | arguments => "arguments"

/-- The keyword arguments a function takes. -/
def keywords : Builtin → List String
  | print => ["sep", "end"]
  | _ => []

end Builtin

end ObjectSpace

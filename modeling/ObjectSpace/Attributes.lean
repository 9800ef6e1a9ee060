import ObjectSpace.Space

/-!
# Attributes

An instance has attributes of its own and, behind them, the members of its class; a function among
those is bound to the instance when it is read. Classes have their members, and values of built-in
types the methods of their type. Only instances and classes can be given attributes.
-/

namespace ObjectSpace

namespace Heap

/-- Whether an object is a function. -/
def isFunction (h : Handle) : Query Bool := do
  match ← get h with
  | .function .. => return true
  | _ => return false

/-- The diagnostic for an attribute that is missing. -/
def unknownAttribute {α : Type} (h : Handle) (name : String) : Query α := do
  fatal (.unknownAttribute (← typeName h) name)

end Heap

namespace Space

/-- The class of an instance, or the type object of any other value. -/
def typeOf (v : Handle) : Action Handle := do
  match ← Heap.get v with
  | .userInstance cls _ => return cls
  | o =>
    match o.kind? with
    | some k => typeObject k
    | none => violate (.notValue v)

/-- A member of the class of `receiver`, bound to it if it is a function. -/
def bindMember (receiver member : Handle) : Action Handle := do
  if ← Heap.isFunction member then newBoundMethod receiver member else return member

/-- The method of a built-in type, bound to its receiver. -/
def builtinMethod (receiver : Handle) (name : String) (o : Object) : Action Handle := do
  match o.kind?.bind (Method.lookup? · name) with
  | some m => newBoundMethod receiver (← methodFunction m)
  | none => Heap.unknownAttribute receiver name

/-- The attribute of a value. -/
def getAttribute (v : Handle) (name : String) : Action Handle := do
  if name = "__class__" then typeOf v
  else
    match ← Heap.get v with
    | .userInstance cls attributes =>
      match attributes.get? name with
      | some value => return value
      | none =>
        match ← Heap.get cls with
        | .userClass _ members =>
          match members.get? name with
          | some member => bindMember v member
          | none => Heap.unknownAttribute v name
        | _ => Heap.unknownAttribute v name
    | .userClass className members =>
      if name = "__name__" then newStr className
      else
        match members.get? name with
        | some member => return member
        | none => Heap.unknownAttribute v name
    | .type k =>
      if name = "__name__" then newStr k.name
      else
        match Method.lookup? k name with
        | some m => methodFunction m
        | none => Heap.unknownAttribute v name
    | .function label entry =>
      if name = "__name__" then
        match entry with
        | .method m => newStr m.name
        | _ => newStr label
      else Heap.unknownAttribute v name
    | o => builtinMethod v name o

/-- Give an instance or a class an attribute. -/
def setAttribute (v : Handle) (name : String) (value : Handle) : Action Unit := do
  let settable :=
    match ← Heap.get v with
    | .userInstance .. | .userClass .. => true
    | _ => false
  if !settable || name = "__class__" then Heap.unimplemented "setattr" v
  else
    update v fun
      | .userInstance cls attributes => .userInstance cls (attributes.set name value)
      | .userClass className members => .userClass className (members.set name value)
      | o => o

end Space

end ObjectSpace

import ObjectSpace.Methods.Arguments

/-!
# Methods of lists and tuples
-/

namespace ObjectSpace.Space

/-- The place where `insert` puts an element: counted from the end if negative, and clamped. -/
def insertionPlace (index : Int64) (length : Nat) : Nat :=
  if index < 0 then (index.toInt + length).toNat else min index.toInt.toNat length

/-- The place of the first element equal to `needle`, which has to be there. -/
def placeOf (items : Array Handle) (needle : Handle) (container : String) : Query Nat := do
  match ← Heap.indexOf? items.toList needle with
  | some i => return i
  | none => fatal (.notInContainer container (← Heap.repr needle))

/-- Run a method of a list with the given elements. -/
def listMethod (method : ListMethod) (l : Handle) (items : Array Handle) (args : List Handle) :
    Action Handle := do
  let m := Method.list method
  match method with
  | .append =>
    let v ← m.oneArgument args
    updateList l (·.push v)
    nothing
  | .count => newInt (Int64.ofNat (← Heap.countOf items.toList (← m.oneArgument args)))
  | .extend =>
    let more ← collect (← m.oneArgument args)
    updateList l (· ++ more)
    nothing
  | .index => newInt (Int64.ofNat (← placeOf items (← m.oneArgument args) "list"))
  | .insert =>
    let (index, v) ← twoArguments m.qualifiedName args
    let i := insertionPlace (← m.expectInt index) items.size
    unless i ≤ items.size do violate (.outOfRange l i)
    updateList l (·.insertIdxIfInBounds i v)
    nothing
  | .pop =>
    let index ←
      match ← m.optionalArgument args with
      | some v => m.expectInt v
      | none => pure (-1)
    if items.isEmpty then fatal (.emptyCollection "list")
    let i ← normalizeIndex index items.size "pop"
    unless i < items.size do violate (.outOfRange l i)
    updateList l (·.eraseIdxIfInBounds i)
    return items.getD i l
  | .remove =>
    let i ← placeOf items (← m.oneArgument args) "list"
    unless i < items.size do violate (.outOfRange l i)
    updateList l (·.eraseIdxIfInBounds i)
    nothing
  | .reverse =>
    m.noArgument args
    updateList l Array.reverse
    nothing
  | .sort =>
    m.noArgument args
    let sorted ← Heap.sort items.toList
    updateList l fun _ => sorted.toArray
    nothing
  | .clear =>
    m.noArgument args
    updateList l fun _ => #[]
    nothing
  | .copy =>
    m.noArgument args
    newList items

/-- Run a method of a tuple with the given elements. -/
def tupleMethod (method : TupleMethod) (items : Array Handle) (args : List Handle) :
    Action Handle := do
  let needle ← (Method.tuple method).oneArgument args
  match method with
  | .count => newInt (Int64.ofNat (← Heap.countOf items.toList needle))
  | .index => newInt (Int64.ofNat (← placeOf items needle "tuple"))

end ObjectSpace.Space

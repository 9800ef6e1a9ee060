import ObjectSpace.Containers
import ObjectSpace.Slice

/-!
# Items and slices

Reading, setting and removing the item under an index or a key, and taking slices. A slice of a
range is a range again; a slice of any other sequence is a new sequence of the same type.
-/

namespace ObjectSpace

namespace Heap

/-- The integer of an index into `container`. -/
def indexArgument (container key : Handle) (operation : String) : Query Int64 := do
  match ← asInt? key with
  | some i => return i
  | none => unsupported operation container key

/-- A bound of a slice: absent, None or an integer. -/
def sliceBound (noneValue : Handle) : Option Handle → Query (Option Int64)
  | none => return none
  | some v => do
    if v = noneValue then return none
    return some (← expectInt v "slice")

end Heap

namespace Space

/-- The item of a container under an index or key. -/
def getItem (container key : Handle) : Action Handle := do
  let index (length : Nat) (type : String) : Action Nat := do
    normalizeIndex (← Heap.indexArgument container key "getitem") length type
  match ← Heap.get container with
  | .list items => return items.getD (← index items.size "list") container
  | .tuple items => return items.getD (← index items.size "tuple") container
  | .str s _ =>
    let i ← index s.length "string"
    newStr (String.ofList (s.toList[i]?).toList)
  | .bytes bs =>
    let i ← index bs.size "bytes"
    newInt (Int64.ofNat (bs.getD i 0).toNat)
  | .range p =>
    let i ← index p.length "range object"
    newInt (p.nth i)
  | .dict _ => Heap.dictGet container key
  | _ => Heap.unimplemented "getitem" container

/-- Change the elements of a list. -/
def updateList (l : Handle) (f : Array Handle → Array Handle) : Action Unit := do
  let _ ← Heap.list l
  update l fun
    | .list items => .list (f items)
    | o => o

/-- Set the item of a container under an index or key. -/
def setItem (container key value : Handle) : Action Unit := do
  match ← Heap.get container with
  | .list items =>
    let i ← normalizeIndex (← Heap.indexArgument container key "setitem") items.size "list"
    updateList container (·.setIfInBounds i value)
  | .dict _ => dictInsert container key value
  | _ => Heap.unimplemented "setitem" container

/-- Remove the item of a container under an index or key. -/
def deleteItem (container key : Handle) : Action Unit := do
  match ← Heap.get container with
  | .list items =>
    let i ← normalizeIndex (← Heap.indexArgument container key "delitem") items.size "list"
    updateList container (·.eraseIdxIfInBounds i)
  | .dict _ =>
    match ← dictRemove container key with
    | some _ => return
    | none => Heap.keyNotFound Heap.repr key
  | _ => Heap.unimplemented "delitem" container

/-- The part of a sequence between two bounds, by a step. -/
def slice (container : Handle) (start stop step : Option Handle) : Action Handle := do
  let noneValue ← nothing
  let start ← Heap.sliceBound noneValue start
  let stop ← Heap.sliceBound noneValue stop
  let step ← Heap.sliceBound noneValue step
  let bounds (length : Nat) : Action Slice := Slice.ofBounds length start stop step
  match ← Heap.get container with
  | .list items => newList ((← bounds items.size).pick items)
  | .tuple items => newTuple ((← bounds items.size).pick items)
  | .str s _ =>
    let chars := s.toList.toArray
    newStr (String.ofList ((← bounds chars.size).pick chars).toList)
  | .bytes bs => newBytes ((← bounds bs.size).pick bs)
  | .range p =>
    let (first, last, step) ← (← bounds p.length).ofProgression p
    newRange first last step
  | _ => Heap.unimplemented "slice" container

end Space

end ObjectSpace

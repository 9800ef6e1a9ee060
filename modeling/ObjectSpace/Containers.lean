import ObjectSpace.Iteration
import ObjectSpace.Repr

/-!
# Dicts and sets

Changes of dicts and sets. Each first finds where the key is filed, which fails for a key without a
hash before anything is touched. Inserting under an equal key keeps the key that is stored.
-/

namespace ObjectSpace

namespace Heap

/-- The value that a dict holds under a key, which has to be there. -/
def dictGet (d key : Handle) : Query Handle := do
  match ← dictLookup d key with
  | some v => return v
  | none => keyNotFound repr key

end Heap

namespace Space

/-- Change the entries of a dict. -/
def updateDict (d : Handle) (f : Table (Handle × Handle) → Table (Handle × Handle)) :
    Action Unit := do
  let _ ← Heap.dict d
  update d fun
    | .dict t => .dict (f t)
    | o => o

/-- Change the members of a set. -/
def updateSet (s : Handle) (f : Table Handle → Table Handle) : Action Unit := do
  let _ ← Heap.set s
  update s fun
    | .set t => .set (f t)
    | o => o

/-- Put a value under a key. -/
def dictInsert (d key value : Handle) : Action Unit := do
  let (hash, place) ← Heap.dictPlace d key
  match place with
  | some i => updateDict d (·.modify hash i fun (k, _) => (k, value))
  | none => updateDict d (·.push hash (key, value))

/-- Remove the entry under a key, giving its value. -/
def dictRemove (d key : Handle) : Action (Option Handle) := do
  let (hash, place) ← Heap.dictPlace d key
  match place with
  | some i =>
    let entry := (← Heap.dict d).entryAt? hash i
    updateDict d (·.erase hash i)
    return entry.map (·.2)
  | none => return none

/-- Add a member, telling whether it was absent. -/
def setInsert (s member : Handle) : Action Bool := do
  let (hash, place) ← Heap.setPlace s member
  match place with
  | some _ => return false
  | none =>
    updateSet s (·.push hash member)
    return true

/-- Remove a member, telling whether it was present. -/
def setRemove (s member : Handle) : Action Bool := do
  let (hash, place) ← Heap.setPlace s member
  match place with
  | some i =>
    updateSet s (·.erase hash i)
    return true
  | none => return false

/-- Put values under keys, one pair after the other. -/
def insertPairs (d : Handle) (pairs : List (Handle × Handle)) : Action Unit :=
  pairs.forM fun (k, v) => dictInsert d k v

/-- A new dict with the given entries. -/
def newDict (pairs : List (Handle × Handle)) : Action Handle := do
  let d ← alloc (.dict .empty)
  insertPairs d pairs
  return d

/-- A new set with the given members. -/
def newSet (items : List Handle) : Action Handle := do
  let s ← alloc (.set .empty)
  items.forM fun item => do
    let _ ← setInsert s item
  return s

/-- A pair given as a list or tuple of two elements. -/
def pairOf (item : Handle) : Query (Handle × Handle) := do
  match (← Heap.get item).asSequence?.map (·.toList) with
  | some [k, v] => return (k, v)
  | _ =>
    let text ← Heap.repr item
    fatal (.invalidValue ("dictionary update sequence element " ++ text ++ " is not a pair"))

/-- The pairs of another dict or of an iterable of pairs. -/
def pairsOf (source : Handle) : Action (List (Handle × Handle)) := do
  match ← Heap.get source with
  | .dict t => return t.toList
  | _ => (← collect source).toList.mapM fun item => pairOf item

/-- Put the pairs of another dict or of an iterable of pairs into a dict. The source is read whole
before the dict is touched. -/
def dictUpdate (d source : Handle) : Action Unit := do insertPairs d (← pairsOf source)

end Space

end ObjectSpace

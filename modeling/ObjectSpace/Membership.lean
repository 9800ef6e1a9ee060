import ObjectSpace.Ordering
import ObjectSpace.Text.Search

/-!
# Truth and membership

Which values count as true, and the `in` operator: a part of a text or of bytes, an element of a
sequence or a range, a key of a dict, a member of a set, and the matching part of a dict's entries
for its views.
-/

namespace ObjectSpace.Heap

/-- The truth value: zero, None and whatever is empty are false, everything else is true. -/
def truthy (v : Handle) : Query Bool := do
  match ← get v with
  | .nothing => return false
  | .bool b => return b
  | .int n => return n ≠ 0
  | .str s _ => return s ≠ ""
  | .bytes bs => return !bs.isEmpty
  | .list items | .tuple items => return !items.isEmpty
  | .dict t => return !t.isEmpty
  | .set t => return !t.isEmpty
  | .range p => return p.length ≠ 0
  | .view d _ => return !(← dict d).isEmpty
  | _ => return true

/-- Whether `item` is in `container`. -/
def contains (container item : Handle) : Query Bool := do
  match ← get container with
  | .str s _ =>
    match ← asStr? item with
    | some needle => return s.contains needle
    | none => unsupported "contains" container item
  | .bytes bs =>
    match ← get item with
    | .bytes needle => return occursIn needle.toList bs.toList
    | .int n => return bs.any fun b => b.toNat = n.toInt
    | _ => unsupported "contains" container item
  | .list items | .tuple items => return (← indexOf? items.toList item).isSome
  | .dict _ => return (← dictLookup container item).isSome
  | .set _ => setContains container item
  | .range p => return (← asInt? item).any p.contains
  | .view d .keys => return (← dictLookup d item).isSome
  | .view d .values => return (← indexOf? ((← dict d).toList.map (·.2)) item).isSome
  | .view d .items =>
    match ← get item with
    | .tuple items =>
      match items.toList with
      | [k, v] =>
        match ← dictLookup d k with
        | some stored => equal stored v
        | none => return false
      | _ => return false
    | _ => return false
  | _ => unimplemented "contains" container

end ObjectSpace.Heap

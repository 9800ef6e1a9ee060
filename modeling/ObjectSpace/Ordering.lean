import ObjectSpace.Equality

/-!
# Ordering and sorting

Integers and Booleans are ordered by number, texts by code points, bytes by value, lists and tuples
by their first difference and then by length, and sets by inclusion. Nothing else is ordered.

`sort` is a stable merge sort by `<`: it orders the two halves and merges them, taking from the
right half only what is less than the next element of the left one.
-/

namespace ObjectSpace.Heap

/-- The first pair of elements at the same place that are not equal. -/
def firstDifference : List Handle → List Handle → Query (Option (Handle × Handle))
  | x :: xs, y :: ys => do
    if ← equal x y then firstDifference xs ys else return some (x, y)
  | _, _ => return none

/-- Whether every member of `small` is one of `big`. -/
def isSubset (small big : Handle) : Query Bool := do
  (← set small).toList.allM fun k => setContains big k

/-- Ordering of values that are nested at most the given depth. -/
def orderedWithin : Nat → Comparison → Handle → Handle → Query Bool
  | 0, _, a, _ => violate (.endless a)
  | n + 1, op, a, b => do
    let x ← get a
    let y ← get b
    match x, y with
    | .str s _, .str t _ => return op.holds (compare s t)
    | .bytes s, .bytes t => return op.holds (List.compareLex compare s.toList t.toList)
    | .list xs, .list ys | .tuple xs, .tuple ys =>
      match ← firstDifference xs.toList ys.toList with
      | some (x, y) => orderedWithin n op x y
      | none => return op.holds (compare xs.size ys.size)
    | .set s, .set t =>
      match op with
      | .lt => if s.size < t.size then isSubset a b else return false
      | .le => if s.size ≤ t.size then isSubset a b else return false
      | .gt => if t.size < s.size then isSubset b a else return false
      | .ge => if t.size ≤ s.size then isSubset b a else return false
      | .eq | .ne => unsupported op.name a b
    | x, y =>
      match x.asInt?, y.asInt? with
      | some i, some j => return op.holds (compare i j)
      | _, _ => unsupported op.name a b

/-- Whether `a` stands before `b`. -/
def lessThan (a b : Handle) : Query Bool := do orderedWithin (← depth) .lt a b

/-- Whether two objects are of one variant, with Booleans counting as integers. -/
def comparable (x y : Object) : Bool :=
  x.asInt?.isSome && y.asInt?.isSome || x.ctorIdx == y.ctorIdx

/-- A comparison; `==` and `!=` are defined between values of one variant only. -/
def compares (op : Comparison) (a b : Handle) : Query Bool := do
  match op with
  | .eq | .ne =>
    let x ← get a
    let y ← get b
    if comparable x y then return (← equal a b) == (op == .eq) else unsupported op.name a b
  | _ => orderedWithin (← depth) op a b

/-! ## Sorting -/

/-- Merge two runs; of two elements neither of which is less, the left one comes first. -/
def merge (left right : List Handle) : Query (List Handle) :=
  match left, right with
  | [], right => return right
  | left, [] => return left
  | l :: ls, r :: rs => do
    if ← lessThan r l then return r :: (← merge (l :: ls) rs)
    else return l :: (← merge ls (r :: rs))
termination_by left.length + right.length

/-- The values in ascending order. -/
def sort (items : List Handle) : Query (List Handle) :=
  if _h : items.length ≤ 1 then return items
  else do
    let half := items.length / 2
    let left ← sort (items.take half)
    let right ← sort (items.drop half)
    merge left right
termination_by items.length
decreasing_by all_goals simp_wf; omega

/-- The first of the values that no later one is better than, where `better a b` tells whether `a`
is to be preferred to `b`. -/
def best (better : Handle → Handle → Query Bool) (first : Handle) (rest : List Handle) :
    Query Handle :=
  rest.foldlM (fun b x => return if ← better x b then x else b) first

end ObjectSpace.Heap

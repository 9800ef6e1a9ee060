import ObjectSpace.Heap

/-!
# Equality and hashing

Two values are equal when they have the same structure: integers and Booleans by number, texts and
bytes by content, lists and tuples element by element, dicts and sets by their entries, ranges by
their terms, bound methods by receiver and function, and everything else only with itself. Values
of unrelated types are never equal; equality is total.

A hash exists for the values that cannot change: integers, Booleans, None, texts, bytes, tuples of
such, and, by identity, types, classes and functions.

**Depth.** Both follow the parts of a value. The recursion is bounded by `Heap.depth`, which no
value exceeds unless it contains itself.
-/

namespace ObjectSpace.Heap

/-- The hash of a value that is nested at most the given depth. -/
def hashWithin : Nat → Handle → Query UInt64
  | 0, v => violate (.endless v)
  | n + 1, v => do
    match ← get v with
    | .int i => return i.toUInt64
    | .bool b => return if b then 1 else 0
    | .nothing => return Fnv.hashText "None"
    | .str _ (some hash) => return hash
    | .str s none => return Fnv.hashText s
    | .bytes bs => return Fnv.hash bs.toList
    | .tuple items =>
      let h ← items.toList.foldlM (fun h item => return h.word (← hashWithin n item)) Fnv.start
      return h.state
    | .type _ | .userClass .. | .function .. => return v.hash
    | _ => fatal (.unhashable (← typeName v))

/-- The hash that files a value in a table. -/
def hash (v : Handle) : Query UInt64 := do hashWithin (← depth) v

/-- A result, or none where a diagnostic stops the query. -/
def attempt {α : Type} (q : Query α) : Query (Option α) := fun heap =>
  match q heap with
  | .ok a => .ok (some a)
  | .error (.fatal _) => .ok none
  | .error (.violation v) => .error (.violation v)

/-- Whether two lists have the same length and stand in a relation element by element. -/
def allPairs (related : Handle → Handle → Query Bool) : List Handle → List Handle → Query Bool
  | [], [] => return true
  | x :: xs, y :: ys => do
    if ← related x y then allPairs related xs ys else return false
  | _, _ => return false

/-- Whether two objects have the same content, where `related` compares what they consist of. -/
def sameContent (related : Handle → Handle → Query Bool) : Object → Object → Query Bool
  | .str s _, .str t _ => return s == t
  | .bytes s, .bytes t => return s == t
  | .list xs, .list ys | .tuple xs, .tuple ys =>
    if xs.size = ys.size then allPairs related xs.toList ys.toList else return false
  | .dict d, .dict e =>
    if d.size = e.size then
      d.toList.allM fun (k, v) => do
        match ← attempt (hash k) with
        | none => return false
        | some h =>
          match ← (e.bucket h).findM? fun (k', _) => related k' k with
          | none => return false
          | some (_, w) => related v w
    else return false
  | .set s, .set t =>
    if s.size = t.size then
      s.toList.allM fun k => do
        match ← attempt (hash k) with
        | none => return false
        | some h => (t.bucket h).anyM fun k' => related k' k
    else return false
  | .range p, .range q => return p.sameTerms q
  | .boundMethod r f, .boundMethod r' f' => return r = r' && f = f'
  | x, y =>
    match x.asInt?, y.asInt? with
    | some i, some j => return i == j
    | _, _ => return false

/-- Equality of values that are nested at most the given depth. -/
def equalWithin : Nat → Handle → Handle → Query Bool
  | 0, a, _ => violate (.endless a)
  | n + 1, a, b => do
    if a = b then return true
    sameContent (equalWithin n) (← get a) (← get b)

/-- Whether two values are equal. -/
def equal (a b : Handle) : Query Bool := do equalWithin (← depth) a b

/-! ## Look-up in tables -/

/-- The place of the first element that satisfies a test. -/
def findPlace {α : Type} (test : α → Query Bool) : List α → Query (Option Nat)
  | [] => return none
  | x :: xs => do
    if ← test x then return some 0
    return (← findPlace test xs).map (· + 1)

/-- Where a dict files a key: its hash, and the place in the bucket if an equal key is there. -/
def dictPlace (d key : Handle) : Query (UInt64 × Option Nat) := do
  let h ← hash key
  let t ← dict d
  return (h, ← findPlace (fun (k, _) => equal k key) (t.bucket h))

/-- The value that a dict holds under a key equal to `key`. -/
def dictLookup (d key : Handle) : Query (Option Handle) := do
  let (h, place) ← dictPlace d key
  match place with
  | none => return none
  | some i => return ((← dict d).entryAt? h i).map (·.2)

/-- The diagnostic for a key that is missing; its text form is given by `text`. -/
def keyNotFound {α : Type} (text : Handle → Query String) (key : Handle) : Query α := do
  fatal (.keyNotFound (← text key))

/-- Where a set files a member: its hash, and the place in the bucket if an equal one is there. -/
def setPlace (s member : Handle) : Query (UInt64 × Option Nat) := do
  let h ← hash member
  let t ← set s
  return (h, ← findPlace (fun k => equal k member) (t.bucket h))

/-- Whether a set has a member equal to `member`. -/
def setContains (s member : Handle) : Query Bool := return (← setPlace s member).2.isSome

/-- The place of the first element equal to `needle`. -/
def indexOf? (items : List Handle) (needle : Handle) : Query (Option Nat) :=
  findPlace (fun x => equal x needle) items

/-- How many elements are equal to `needle`. -/
def countOf (items : List Handle) (needle : Handle) : Query Nat :=
  items.foldlM (fun n x => return if ← equal x needle then n + 1 else n) 0

end ObjectSpace.Heap

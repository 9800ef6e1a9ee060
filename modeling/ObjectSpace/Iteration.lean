import ObjectSpace.Membership
import ObjectSpace.Space

/-!
# Iteration

An iterator is a cursor over a sequence, a range, the entries of a dict or the members of a set, or
it numbers or pairs what other iterators give. `iter` makes a cursor, `next` advances one, and
`collect` lists everything an iterable gives.

A cursor over a list looks at the list as it is at each step. A cursor over a dict or a set resumes
at the position after the last entry it gave, whatever was filed or removed since, and stays at the
end once it got there.
-/

namespace ObjectSpace

/-- A value that a step yields: an existing one, or the content of a new one. -/
inductive Yield where
  | handle (h : Handle)
  | int (n : Int64)
  | str (s : String)
  | pair (a b : Handle)
  | numbered (n : Int64) (h : Handle)

/-- An iterator at another position. -/
def Object.moveTo (c : Cursor) : Object → Object
  | .iter _ => .iter c
  | o => o

namespace Cursor

/-- A cursor at the start of a value; none for values that are not iterable. -/
def ofObject? (v : Handle) : Object → Option Cursor
  | .list _ => some (.forward v .listIterator 0)
  | .tuple _ => some (.forward v .tupleIterator 0)
  | .str .. => some (.forward v .strIterator 0)
  | .bytes _ => some (.forward v .bytesIterator 0)
  | .range p => some (.range p.start p.step p.length)
  | .dict _ => some (.entries v .keys 0 0 false)
  | .view d part => some (.entries d part 0 0 false)
  | .set _ => some (.members v 0 0 false)
  | _ => none

/-- A cursor that runs backwards from the end of a sequence; none for other values. The step of a
range is negated modulo 2^64: that matters only for a step that no second term could follow. -/
def reversed? (v : Handle) : Object → Option Cursor
  | .list items | .tuple items => some (.backward v items.size)
  | .str s _ => some (.backward v s.utf8ByteSize)
  | .bytes bs => some (.backward v bs.size)
  | .range p =>
    let last := if p.length = 0 then p.start else p.nth (p.length - 1)
    some (.range last (-p.step) p.length)
  | _ => none

/-- The element of a sequence at a position, with the position after it. -/
def elementAt? (position : Nat) : Object → Option (Yield × Nat)
  | .list items | .tuple items => (items[position]?).map fun h => (.handle h, position + 1)
  | .str s _ =>
    (String.Pos.Raw.get? s ⟨position⟩).map fun c => (.str c.toString, position + c.utf8Size)
  | .bytes bs => (bs[position]?).map fun b => (.int (Int64.ofNat b.toNat), position + 1)
  | _ => none

/-- The element of a sequence before a position, with its own position. A position beyond the end
counts as the end. -/
def elementBefore? (position : Nat) : Object → Option (Yield × Nat)
  | .list items | .tuple items =>
    let i := min position items.size - 1
    if position = 0 then none else (items[i]?).map fun h => (.handle h, i)
  | .str s _ =>
    let p := String.Pos.Raw.prev s ⟨position⟩
    if position = 0 then none
    else (String.Pos.Raw.get? s p).map fun c => (.str c.toString, p.byteIdx)
  | .bytes bs =>
    let i := min position bs.size - 1
    if position = 0 then none else (bs[i]?).map fun b => (.int (Int64.ofNat b.toNat), i)
  | _ => none

/-- Whether a position is one of an object: in a text it stands between two characters. -/
def admits (position : Nat) : Object → Bool
  | .str s _ => String.Pos.Raw.isValid s ⟨position⟩
  | _ => true

/-- What an iterator over a part of a dict gives for an entry. -/
def showEntry (part : ViewPart) (key value : Handle) : Yield :=
  match part with
  | .keys => .handle key
  | .values => .handle value
  | .items => .pair key value

/-- One step of a cursor that does not draw on another iterator. -/
def step (c : Cursor) : Query (Option Yield × Cursor) := do
  match c with
  | forward s k position =>
    let o ← Heap.get s
    unless admits position o do violate (.outOfRange s position)
    match elementAt? position o with
    | some (y, position) => return (some y, forward s k position)
    | none => return (none, c)
  | backward s position =>
    let o ← Heap.get s
    unless admits position o do violate (.outOfRange s position)
    match elementBefore? position o with
    | some (y, position) => return (some y, backward s position)
    | none => return (none, backward s 0)
  | range n step remaining =>
    if remaining = 0 then return (none, c)
    else return (some (.int n), range (n + step) step (remaining - 1))
  | entries d part hash place done =>
    if done then return (none, c)
    match (← Heap.dict d).nextFrom? hash place with
    | some (hash, place, key, value) =>
      return (some (showEntry part key value), entries d part hash (place + 1) false)
    | none => return (none, entries d part hash place true)
  | members s hash place done =>
    if done then return (none, c)
    match (← Heap.set s).nextFrom? hash place with
    | some (hash, place, key) => return (some (.handle key), members s hash (place + 1) false)
    | none => return (none, members s hash place true)
  | enumerate .. | zip .. => return (none, c)

end Cursor

namespace Heap

/-- The iterator behind a handle. -/
def cursor (it : Handle) : Query Cursor := do
  match ← get it with
  | .iter c => return c
  | _ => unimplemented "next" it

/-- How many elements a sequence can still give, at most. -/
def sequenceLength : Object → Nat
  | .list items | .tuple items => items.size
  | .str s _ => s.utf8ByteSize
  | .bytes bs => bs.size
  | _ => 0

/-- How often an iterator can still be advanced before it ends, at most. -/
def stepsWithin : Nat → Handle → Query Nat
  | 0, it => violate (.endless it)
  | n + 1, it => do
    match ← cursor it with
    | .forward s .. | .backward s _ => return sequenceLength (← get s)
    | .range _ _ remaining => return remaining
    | .entries d _ _ _ done => if done then return 0 else return (← dict d).toList.length
    | .members s _ _ done => if done then return 0 else return (← set s).toList.length
    | .enumerate inner _ => stepsWithin n inner
    | .zip left _ => stepsWithin n left

end Heap

namespace Space

/-- Make the value that a step yields. -/
def emit : Yield → Action Handle
  | .handle h => return h
  | .int n => newInt n
  | .str s => newStr s
  | .pair a b => newTuple #[a, b]
  | .numbered n h => do
    let i ← newInt n
    newTuple #[i, h]

/-- The iterator for a value: a new cursor, or the value itself if it is an iterator. -/
def iter (v : Handle) : Action Handle := do
  match ← Heap.get v with
  | .iter _ => return v
  | o =>
    match Cursor.ofObject? v o with
    | some c => alloc (.iter c)
    | none => fatal (.notIterable (← Heap.typeName v))

/-- An iterator that runs backwards over a sequence. -/
def reversed (v : Handle) : Action Handle := do
  match Cursor.reversed? v (← Heap.get v) with
  | some c => alloc (.iter c)
  | none => fatal (.notIterable (← Heap.typeName v))

/-- The number after `n`, or the greatest word if there is none. -/
def successor (n : Int64) : Int64 := (Integer.ofInt? (n.toInt + 1)).getD Int64.maxValue

/-- Advance an iterator that draws on others to a bounded depth. -/
def nextWithin : Nat → Handle → Action (Option Handle)
  | 0, it => violate (.endless it)
  | n + 1, it => do
    let c ← Heap.cursor it
    let (yielded, c) ←
      match c with
      | .enumerate inner count =>
        match ← nextWithin n inner with
        | some v => pure (some (Yield.numbered count v), Cursor.enumerate inner (successor count))
        | none => pure (none, c)
      | .zip left right =>
        match ← nextWithin n left with
        | some a =>
          match ← nextWithin n right with
          | some b => pure (some (Yield.pair a b), c)
          | none => pure (none, c)
        | none => pure (none, c)
      | c => c.step
    update it (Object.moveTo c)
    yielded.mapM emit

/-- Advance an iterator; none once it is at its end. -/
def next (it : Handle) : Action (Option Handle) := do nextWithin (← Heap.depth) it

/-- Add what an iterator still gives to `done`, within a number of steps. -/
def drain (it : Handle) (done : Array Handle) : Nat → Action (Array Handle)
  | 0 => violate (.endless it)
  | n + 1 => do
    match ← next it with
    | some v => drain it (done.push v) n
    | none => return done

/-- Everything that an iterable gives, in order. -/
def collect (v : Handle) : Action (Array Handle) := do
  match ← Heap.get v with
  | .list items | .tuple items => return items
  | .set t => return t.toList.toArray
  | _ =>
    let it ← iter v
    let steps ← Heap.stepsWithin (← Heap.depth) it
    drain it #[] (steps + 1)

end Space

end ObjectSpace

import ObjectSpace.Arena.Unmarked
import ObjectSpace.Space

/-!
# The collector

A collection clears every liveness bit and marks what can be reached from the permanent objects,
from the context that runs and so from its callers, and from a value in flight. Nothing is swept:
a slot that stays unmarked is handed out again later.

Marking works through a stack of handles. A handle whose bit is set is passed over, so every object
is visited once, and the visits end because each leaves one unmarked cell less.
-/

namespace ObjectSpace

/-- How far marking got. -/
structure Marking where
  heap : Heap
  /-- Objects marked so far. -/
  count : Nat
  /-- A handle on the way whose slot was handed out again; marking stops there. -/
  stale : Option Handle := none

namespace Heap

/-- The handles that the object behind `h` keeps alive. -/
def childrenOf (heap : Heap) (h : Handle) : List Handle :=
  ((heap.get? h).map Object.children).getD []

/-- Mark what the handles on a stack reach, the top of the stack first. -/
def markFrom (heap : Heap) (count : Nat) (stack : List Handle) : Marking :=
  match stack with
  | [] => { heap, count }
  | h :: rest =>
    match _hc : heap.cell? h with
    | none => { heap, count, stale := some h }
    | some c =>
      if _hl : c.live then markFrom heap count rest
      else
        let children := heap.childrenOf h
        markFrom (heap.setMark h) (count + 1) (children.reverseAux rest)
termination_by (heap.unmarked, stack.length)
decreasing_by
  · exact Prod.Lex.right _ (Nat.lt_succ_self _)
  · exact Prod.Lex.left _ _ (Arena.unmarked_setMark_lt _hc (by simpa using _hl))

end Heap

namespace Space

/-- The handles that stay alive as long as the program runs. -/
def permanentRoots (s : Space) : List Handle :=
  [s.noneValue, s.trueValue, s.falseValue] ++ s.types.toList ++ s.methods.toList
    ++ s.integers.map (·.2) ++ s.texts.map (·.2) ++ s.globals.toList

/-- The handles that a collection starts from. -/
def roots (s : Space) (ctx : Handle) (inFlight : Option Handle) : List Handle :=
  s.permanentRoots ++ ctx :: inFlight.toList

/-- Mark what the handles on a stack reach, giving how many objects that are and the stale handle
where marking stopped, if there is one. -/
def mark (stack : List Handle) : Action (Nat × Option Handle) := modifyGet fun s =>
  let marking := Heap.markFrom s.heap 0 stack
  ((marking.count, marking.stale), { s with heap := marking.heap })

/-- Run a collection. -/
def collectNow (ctx : Handle) (inFlight : Option Handle) : Action Unit := do
  let roots := (← get).roots ctx inFlight
  modify fun s => { s with heap := s.heap.clearMarks, pending := 0 }
  let (count, stale) ← mark roots.reverse
  if let some h := stale then violate (.staleMark h)
  modify fun s =>
    { s with
      collections := s.collections + 1
      lastMarked := count
      totalMarked := s.totalMarked + count }

/-- Run a collection if enough was allocated since the last one, telling whether it ran. -/
def collectIfDue (ctx : Handle) (inFlight : Option Handle) : Action Bool := do
  let s ← get
  if s.pending < s.threshold then return false
  collectNow ctx inFlight
  return true

end Space

end ObjectSpace

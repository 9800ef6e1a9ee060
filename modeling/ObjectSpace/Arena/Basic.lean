import ObjectSpace.Arena.Handle
import ObjectSpace.Arena.Pool

/-!
# The arena

An arena is one pool per size class. A new object takes the first dead slot of the smallest class
that fits it; the pool grows by one block only when every slot is live. Slab blocks are drawn from
chunks, several to a chunk; blocks of the large pool are not.

**Handles.** A handle reads back its object as long as the generation it carries is the slot's
current one. Reading or writing through an older handle fails, as does marking.
-/

namespace ObjectSpace

/-- Pools of slots for objects of type `α`, one per size class. -/
structure Arena (α : Type) where
  layout : Layout
  pools : Vector (Pool α) 8
  /-- Chunks taken so far. -/
  chunks : Nat
  /-- Blocks of the newest chunk not given to a pool yet. -/
  spareBlocks : Nat

/-- Occupancy of one size class. -/
structure Occupancy where
  objectBytes : Nat
  blocks : Nat
  capacity : Nat
  live : Nat
  deriving DecidableEq

namespace Arena

variable {α : Type}

/-- The pool of a size class. -/
def pool (a : Arena α) (c : SizeClass) : Pool α := a.pools.get c

/-- Change the pool of one size class. -/
def modifyPool (a : Arena α) (c : SizeClass) (f : Pool α → Pool α) : Arena α :=
  { a with pools := ⟨a.pools.toArray.modify c f, by simp⟩ }

/-- Take a new chunk when the newest one is used up, then one block of it. -/
def drawBlock (a : Arena α) : Arena α :=
  if a.spareBlocks = 0 then
    { a with chunks := a.chunks + 1, spareBlocks := a.layout.blocksPerChunk - 1 }
  else
    { a with spareBlocks := a.spareBlocks - 1 }

/-- Give class `c` one more block. -/
def grow (a : Arena α) (c : SizeClass) : Arena α :=
  let a := if c = SizeClass.large then a else a.drawBlock
  a.modifyPool c Pool.grow

/-- The slab classes, in ascending size. -/
def slabs : List SizeClass := (List.finRange 8).filter (· ≠ SizeClass.large)

/-- An arena of a layout known to be sound: one block in each slab class, none in the large pool. -/
def empty (layout : Layout) : Arena α :=
  slabs.foldl grow
    { layout
      pools := Vector.ofFn fun c => { slots := layout.slots c }
      chunks := 1
      spareBlocks := layout.blocksPerChunk }

/-- An arena for `layout`, or the rule that the layout breaks. -/
def create (layout : Layout) : Except ArenaError (Arena α) := do
  layout.check
  return empty layout

/-! ## Handing out slots -/

/-- Bring the cursor of class `c` to a dead slot, adding a block if all slots are live. -/
def reserve (a : Arena α) (c : SizeClass) : Arena α :=
  let a := a.modifyPool c Pool.seek
  if (a.pool c).isFull then a.grow c else a

/-- The handle that goes with position `i` of class `c` when it is handed out next. -/
def handleAt (a : Arena α) (c : SizeClass) (i : Nat) : Handle :=
  { sizeClass := c
    block := i / (a.pool c).slots
    slot := i % (a.pool c).slots
    generation := (a.pool c).nextGeneration i }

/-- What the slot at position `i` of class `c` still holds. -/
def contentAt (a : Arena α) (c : SizeClass) (i : Nat) : Option α :=
  ((a.pool c).cells[i]?).bind (·.value)

/-- Place `value` in class `c`. Besides the new handle this gives back what the slot held before. -/
def allocateIn (a : Arena α) (c : SizeClass) (value : α) : Handle × Option α × Arena α :=
  let a := a.reserve c
  let i := (a.pool c).cursor
  (a.handleAt c i, a.contentAt c i, a.modifyPool c (·.occupy i value))

/-- Place `value` in the smallest class that fits `size` bytes. -/
def allocate (a : Arena α) (size : Nat) (value : α) : Except ArenaError (Handle × Arena α) :=
  match SizeClass.ofSize? size with
  | none => .error (.badSize size)
  | some c =>
    let (h, _, a) := a.allocateIn c value
    .ok (h, a)

/-! ## Handles -/

/-- Where in its pool the slot of `h` lies. -/
def position (a : Arena α) (h : Handle) : Nat := h.block * (a.pool h.sizeClass).slots + h.slot

/-- The cell that `h` names, if `h` is the handle last issued for it. -/
def cell? (a : Arena α) (h : Handle) : Option (Cell α) :=
  if h.slot < (a.pool h.sizeClass).slots then
    ((a.pool h.sizeClass).cells[a.position h]?).filter (·.generation = h.generation)
  else none

/-- The object `h` was issued for, as long as its slot was not handed out again. -/
def get? (a : Arena α) (h : Handle) : Option α := (a.cell? h).bind (·.value)

/-- The object behind `h`, or `h` itself when it is stale. -/
def fetch (a : Arena α) (h : Handle) : Except Handle α :=
  match a.get? h with
  | some v => .ok v
  | none => .error h

/-- Whether `h` is current and its liveness bit is set. -/
def isLive (a : Arena α) (h : Handle) : Bool := (a.cell? h).any (·.live)

/-- Whether `h` still names the object it was issued for. -/
def isCurrent (a : Arena α) (h : Handle) : Bool := (a.get? h).isSome

/-- Change the object in the slot of `h`. -/
def modify (a : Arena α) (h : Handle) (f : α → α) : Arena α :=
  let i := a.position h
  a.modifyPool h.sizeClass (·.update i f)

/-- Change the object behind `h`; none when `h` is stale. -/
def update? (a : Arena α) (h : Handle) (f : α → α) : Option (Arena α) :=
  if a.isCurrent h then some (a.modify h f) else none

/-! ## Liveness -/

/-- Clear every liveness bit, which starts a collection. -/
def clearMarks (a : Arena α) : Arena α := { a with pools := a.pools.map Pool.clearMarks }

/-- Set the liveness bit of the slot of `h`. -/
def setMark (a : Arena α) (h : Handle) : Arena α :=
  let i := a.position h
  a.modifyPool h.sizeClass (·.mark i)

/-- Set the liveness bit of `h`, telling whether it was set already; none when `h` is stale. -/
def mark? (a : Arena α) (h : Handle) : Option (Bool × Arena α) :=
  (a.cell? h).map fun c => (c.live, a.setMark h)

/-! ## Occupancy -/

/-- Occupancy of class `c`. -/
def occupancy (a : Arena α) (c : SizeClass) : Occupancy :=
  { objectBytes := c.bytes
    blocks := (a.pool c).blocks
    capacity := (a.pool c).cells.size
    live := (a.pool c).liveCount }

/-- Occupancy of every class, the large pool last. -/
def occupancies (a : Arena α) : List Occupancy := (List.finRange 8).map a.occupancy

/-- Blocks of all classes together. -/
def totalBlocks (a : Arena α) : Nat := SizeClass.total fun c => (a.pool c).blocks

/-- Live slots of all classes together. -/
def totalLive (a : Arena α) : Nat := SizeClass.total fun c => (a.pool c).liveCount

/-- Occupancy of the slab class that serves `size` bytes, if one does. -/
def occupancyForSize? (a : Arena α) (size : Nat) : Option Occupancy :=
  (SizeClass.slabOfSize? size).map a.occupancy

/-- Cells of all pools together. -/
def capacity (a : Arena α) : Nat := SizeClass.total fun c => (a.pool c).cells.size

end Arena

end ObjectSpace

/-!
# Pools

A pool is the slots of one size class: a row of cells cut into blocks of equal length. A cell keeps
a liveness bit, the generation of its current handle and the value last stored there. The bits are
all cleared when a collection starts and set again for what is still reached; a cell whose bit
stays clear is handed out again later, and its old value stays in place until then.

The cursor is where the search for a dead cell resumes. Every cell before it is live, because the
only step that clears bits also resets it, so the search from the cursor finds the first dead cell
of the whole pool.
-/

namespace ObjectSpace

/-- One slot: its liveness bit, the generation of its current handle, its value. -/
structure Cell (α : Type) where
  live : Bool := false
  generation : UInt32 := 0
  value : Option α := none

/-- The cells of one size class, in blocks of `slots` cells each. -/
structure Pool (α : Type) where
  slots : Nat
  cells : Array (Cell α) := #[]
  cursor : Nat := 0

namespace Pool

variable {α : Type}

/-- Position of the first dead cell from `i` on, or the number of cells if all are live. -/
def firstDead (cells : Array (Cell α)) (i : Nat) : Nat :=
  if h : i < cells.size then
    if cells[i].live then firstDead cells (i + 1) else i
  else cells.size
termination_by cells.size - i

/-- How many blocks the pool has. -/
def blocks (p : Pool α) : Nat := p.cells.size / p.slots

/-- How many cells are live. -/
def liveCount (p : Pool α) : Nat := p.cells.countP (·.live)

/-- How many cells are dead. -/
def deadCount (p : Pool α) : Nat := p.cells.countP (!·.live)

/-- One more block of fresh cells at the end. -/
def grow (p : Pool α) : Pool α :=
  { p with cells := p.cells ++ Array.replicate p.slots {} }

/-- Move the cursor to the first dead cell. -/
def seek (p : Pool α) : Pool α :=
  { p with cursor := firstDead p.cells p.cursor }

/-- Whether no dead cell is left from the cursor on. -/
def isFull (p : Pool α) : Bool := p.cells.size ≤ p.cursor

/-- Hand out the cell at `i` for `value`: it becomes live and gets the next generation. -/
def occupy (p : Pool α) (i : Nat) (value : α) : Pool α :=
  { p with
    cells := p.cells.modify i fun c => ⟨true, c.generation + 1, some value⟩
    cursor := i }

/-- Change the value at `i`, leaving the bit and the generation alone. -/
def update (p : Pool α) (i : Nat) (f : α → α) : Pool α :=
  { p with cells := p.cells.modify i fun c => { c with value := c.value.map f } }

/-- Set the liveness bit at `i`. -/
def mark (p : Pool α) (i : Nat) : Pool α :=
  { p with cells := p.cells.modify i fun c => { c with live := true } }

/-- Clear every liveness bit. -/
def clearMarks (p : Pool α) : Pool α :=
  { p with cells := p.cells.map fun c => { c with live := false }, cursor := 0 }

/-- The generation the handle of the cell at `i` carries when it is handed out next. -/
def nextGeneration (p : Pool α) (i : Nat) : UInt32 :=
  (p.cells[i]?.elim 0 (·.generation)) + 1

end Pool

end ObjectSpace

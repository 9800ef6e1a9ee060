/-!
# Bitmaps

The packed form of the liveness bits of a pool: per block one bit for each slot, in words of 64
bits. The bits past the last slot of a block are set whatever happens, so a search for a clear bit
passes over them, and a count of the set bits has to leave them out.

A search looks at one word after the other for the lowest clear bit, from the block of the cursor
on; the cursor moves past the blocks that turn out to be full.
-/

namespace ObjectSpace

/-- The liveness bits of a block of `slots` slots. -/
structure Bitmap where
  slots : Nat
  words : Array (BitVec 64)

namespace Bitmap

/-- Words for so many bits; there is one at least. -/
def wordCount (slots : Nat) : Nat := max 1 ((slots + 63) / 64)

/-- The last word of a block without a live slot: the bits past the last slot are set. -/
def tail (slots : Nat) : BitVec 64 :=
  if slots % 64 = 0 then 0 else BitVec.allOnes 64 <<< (slots % 64)

/-- The bits of a block without a live slot. -/
def cleared (slots : Nat) : Bitmap :=
  { slots, words := (Array.replicate (wordCount slots - 1) 0).push (tail slots) }

/-- Whether bit `i` is set. -/
def test (b : Bitmap) (i : Nat) : Bool := (b.words.getD (i / 64) 0).getLsbD (i % 64)

/-- Set bit `i`. -/
def set (b : Bitmap) (i : Nat) : Bitmap :=
  { b with words := b.words.modify (i / 64) (· ||| 1#64 <<< (i % 64)) }

/-- Set bit `i`, telling whether it was set already. -/
def mark (b : Bitmap) (i : Nat) : Bool × Bitmap := (b.test i, b.set i)

/-- The lowest clear bit of a row of words. -/
def lowestClear? : List (BitVec 64) → Option Nat
  | [] => none
  | w :: rest =>
    if ~~~w ≠ 0 then some (~~~w).ctz.toNat else (lowestClear? rest).map (64 + ·)

/-- Set the lowest clear bit. -/
def takeFree? (b : Bitmap) : Option (Nat × Bitmap) :=
  (lowestClear? b.words.toList).map fun i => (i, b.set i)

/-- How many bits are set. -/
def ones (b : Bitmap) : Nat := b.words.toList.foldr (fun w n => w.cpop.toNat + n) 0

/-- How many bits lie past the last slot. -/
def padding (b : Bitmap) : Nat := b.words.size * 64 - b.slots

/-- How many slots are live. -/
def liveCount (b : Bitmap) : Nat := b.ones - b.padding

end Bitmap

/-- The liveness bits of a pool whose blocks have `slots` slots each; the cursor is the block where
the next search begins. -/
structure PackedPool where
  slots : Nat
  blocks : Array Bitmap
  cursor : Nat

namespace PackedPool

/-- One more block without a live slot. -/
def grow (p : PackedPool) : PackedPool :=
  { p with blocks := p.blocks.push (.cleared p.slots) }

/-- Begin the next search with the first block. -/
def rewind (p : PackedPool) : PackedPool := { p with cursor := 0 }

/-- Clear the bit of every slot, and begin the next search with the first block. -/
def clear (p : PackedPool) : PackedPool :=
  { p.rewind with blocks := p.blocks.map fun b => .cleared b.slots }

/-- Set the bit of a slot. -/
def mark (p : PackedPool) (block slot : Nat) : PackedPool :=
  { p with blocks := p.blocks.modify block fun b => (b.mark slot).2 }

/-- Take the first free slot from the cursor on. -/
def scan (p : PackedPool) : Option (Nat × Nat) × PackedPool :=
  if h : p.cursor < p.blocks.size then
    match p.blocks[p.cursor].takeFree? with
    | some (slot, b) =>
      (some (p.cursor, slot), { p with blocks := p.blocks.setIfInBounds p.cursor b })
    | none => scan { p with cursor := p.cursor + 1 }
  else (none, p)
termination_by p.blocks.size - p.cursor

/-- Take the first free slot from the cursor on, in a new block if the pool has none. -/
def reserve (p : PackedPool) : Option (Nat × Nat) × PackedPool :=
  match p.scan with
  | (some place, p) => (some place, p)
  | (none, p) => p.grow.scan

/-- How many slots are live. -/
def liveCount (p : PackedPool) : Nat := p.blocks.toList.foldr (fun b n => b.liveCount + n) 0

end PackedPool

end ObjectSpace

/-!
# Sizes

Objects are placed by size. Seven slab classes serve small objects from blocks of one fixed size,
and one pool takes the rest up to a limit. A block keeps room for a link and for one liveness bit
per slot, which fixes how many slots it has.

`Layout.check` accepts a layout when its block size is a power of two not above the chunk size,
every slab class gets at least one slot in a block, and no class more than 65535.
-/

namespace ObjectSpace

/-- One of the seven slab classes, in ascending size, or the pool for large objects. -/
abbrev SizeClass := Fin 8

namespace SizeClass

/-- The pool for objects no slab class fits. -/
def large : SizeClass := 7

/-- The largest object a class takes, in bytes. -/
def bytes (c : SizeClass) : Nat :=
  #v[16, 24, 32, 40, 56, 64, 72, 1048576][c]

/-- A number added up over all classes. -/
def total (f : SizeClass → Nat) : Nat := (List.finRange 8).foldr (fun c n => f c + n) 0

/-- The smallest class that fits `size` bytes; none above the limit for large objects. -/
def ofSize? (size : Nat) : Option SizeClass :=
  (List.finRange 8).find? (size ≤ bytes ·)

/-- The smallest slab class that fits `size` bytes. -/
def slabOfSize? (size : Nat) : Option SizeClass :=
  (ofSize? size).filter (· ≠ large)

end SizeClass

/-- Why an arena refuses a layout or a request. -/
inductive ArenaError where
  /-- The request is above the limit for large objects. -/
  | badSize (size : Nat)
  /-- The layout breaks one of the rules of `Layout.check`. -/
  | badLayout (reason : String)
  deriving DecidableEq

/-- How memory is cut: chunks into blocks, blocks into slots. -/
structure Layout where
  blockSize : Nat := 16384
  chunkSize : Nat := 2097152
  deriving DecidableEq

namespace Layout

/-- Bytes of a block kept for the link to the next one. -/
def linkBytes : Nat := 8

/-- Slots in a block of the large pool, whatever the block size. -/
def largeSlots : Nat := 64

/-- The most slots a block may have. -/
def maxSlots : Nat := 65535

/-- Blocks in one chunk; a chunk holds at least one. -/
def blocksPerChunk (l : Layout) : Nat := max 1 (l.chunkSize / l.blockSize)

/-- How many objects of `size` bytes fit in a block next to one liveness bit each. -/
def slotsOfSize (l : Layout) (size : Nat) : Nat :=
  (l.blockSize - linkBytes) * 8 / (size * 8 + 1)

/-- Slots in a block of class `c`. -/
def slots (l : Layout) (c : SizeClass) : Nat :=
  if c = SizeClass.large then largeSlots else l.slotsOfSize c.bytes

/-- The rules a layout has to keep, tested in this order. -/
def check (l : Layout) : Except ArenaError Unit := do
  unless l.blockSize ≠ 0 ∧ Nat.pow 2 l.blockSize.log2 = l.blockSize do
    throw (.badLayout "block size must be a power of two")
  if l.chunkSize < l.blockSize then
    throw (.badLayout "chunk smaller than one block")
  if l.slotsOfSize 72 = 0 then
    throw (.badLayout "block too small for the largest size class")
  if maxSlots < l.slotsOfSize 16 then
    throw (.badLayout "block too large for 16-bit slot indices")

end Layout

end ObjectSpace

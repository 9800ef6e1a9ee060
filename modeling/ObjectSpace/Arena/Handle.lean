import ObjectSpace.Arena.Layout
import ObjectSpace.Fnv

/-!
# Handles

A handle names a slot by size class, block and position in the block, and carries the generation
the slot had when the handle was issued. A slot gets a new generation each time it is handed out,
so a handle that outlived its object differs from the handle of the slot's next occupant.
-/

namespace ObjectSpace

/-- A generation-tagged name of an arena slot. -/
structure Handle where
  sizeClass : SizeClass
  block : Nat
  slot : Nat
  generation : UInt32
  deriving DecidableEq

namespace Handle

/-- Whether the slot lies in the pool for large objects. -/
def isLarge (h : Handle) : Bool := h.sizeClass = SizeClass.large

/-- The written form, as it appears in reports of stale handles. -/
def text (h : Handle) : String :=
  "ObjectId(c" ++ toString h.sizeClass.val ++ ":b" ++ toString h.block ++ ":s" ++ toString h.slot
    ++ "@g" ++ toString h.generation.toNat ++ ")"

/-- The hash of the handle itself: class, block, slot and generation, each as little-endian bytes
of its width. It keys objects that are equal only to themselves. -/
def hash (h : Handle) : UInt64 :=
  Fnv.hash
    (Fnv.littleEndian 1 h.sizeClass.val.toUInt64 ++ Fnv.littleEndian 4 h.block.toUInt64
      ++ Fnv.littleEndian 2 h.slot.toUInt64 ++ Fnv.littleEndian 4 h.generation.toUInt64)

end Handle

end ObjectSpace

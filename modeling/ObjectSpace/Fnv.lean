/-!
# FNV-1a

The 64-bit hash of text, of bytes and of container keys. A state starts at the offset basis; each
byte is mixed in by exclusive or and then a multiplication by the prime, both modulo 2^64. A hash
of a concatenation continues the hash of its first part (`Fnv.write_append`).
-/

namespace ObjectSpace

/-- A running hash. -/
structure Fnv where
  state : UInt64
  deriving DecidableEq

namespace Fnv

/-- The state before any byte. -/
def start : Fnv := ⟨14695981039346656037⟩

/-- The multiplier. -/
def prime : UInt64 := 1099511628211

/-- Mix in one byte. -/
def byte (h : Fnv) (b : UInt8) : Fnv := ⟨(h.state ^^^ b.toUInt64) * prime⟩

/-- Mix in bytes, first to last. -/
def write (h : Fnv) (bs : List UInt8) : Fnv := bs.foldl byte h

@[simp] theorem write_nil (h : Fnv) : h.write [] = h := rfl

@[simp] theorem write_cons (h : Fnv) (b : UInt8) (bs : List UInt8) :
    h.write (b :: bs) = (h.byte b).write bs := rfl

theorem write_append (h : Fnv) (as bs : List UInt8) : h.write (as ++ bs) = (h.write as).write bs :=
  List.foldl_append ..

/-- The `n` low bytes of a word, least significant first. -/
def littleEndian : (n : Nat) → UInt64 → List UInt8
  | 0, _ => []
  | n + 1, w => w.toUInt8 :: littleEndian n (w >>> 8)

@[simp] theorem length_littleEndian (n : Nat) (w : UInt64) : (littleEndian n w).length = n := by
  induction n generalizing w with
  | zero => rfl
  | succ n ih => simp [littleEndian, ih]

/-- Mix in a 64-bit word. -/
def word (h : Fnv) (w : UInt64) : Fnv := h.write (littleEndian 8 w)

/-- The hash of a byte sequence. -/
def hash (bs : List UInt8) : UInt64 := (start.write bs).state

/-- The hash of a text is the hash of its UTF-8 bytes. -/
def hashText (s : String) : UInt64 := hash s.toUTF8.toList

end Fnv

end ObjectSpace

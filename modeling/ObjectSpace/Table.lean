import ObjectSpace.OrderedMap

/-!
# Hash-keyed tables

The storage behind dicts and sets: entries filed under the 64-bit hash of their key. Entries of one
hash form a bucket, in the order in which they came, and the buckets stand in ascending order of
their hashes. A hash alone never identifies an entry: a place in its bucket tells it apart.

The number of entries is counted along with every change, and a bucket goes with its last entry.
A table as such promises neither. That no bucket is empty and that the count is right is what
`Trim` says, and every change keeps it.

**Cursors.** A pair of hash and place is a position to resume an iteration from. `nextFrom?` gives
the first entry at or after it, which stays meaningful while the table changes.
-/

namespace ObjectSpace

/-- Buckets of entries under their hashes, and the number of entries. -/
structure Table (α : Type) where
  buckets : OrderedMap (Array α) := {}
  size : Nat := 0

namespace Table

variable {α : Type}

/-- A table without entries. -/
def empty : Table α := {}

/-- Whether no entry is counted. -/
def isEmpty (t : Table α) : Bool := t.size == 0

/-- The entries filed under a hash, oldest first. -/
def bucket (t : Table α) (hash : UInt64) : List α := ((t.buckets.find? hash).getD #[]).toList

/-- The entries with their hashes, bucket after bucket. -/
def entries (t : Table α) : Array (UInt64 × α) :=
  t.buckets.slots.flatMap fun (hash, bucket) => bucket.map (hash, ·)

/-- The entries without their hashes, in table order. -/
def toList (t : Table α) : List α := t.entries.toList.map (·.2)

/-! ## Changes -/

/-- Take away all entries. -/
def clear (_ : Table α) : Table α := { buckets := {}, size := 0 }

/-- File an entry under a hash, behind those that are there. -/
def push (t : Table α) (hash : UInt64) (x : α) : Table α :=
  let bucket := (t.buckets.find? hash).getD #[]
  { buckets := t.buckets.insert hash (bucket.push x)
    size := t.size + 1 }

/-- The entry at a place of a bucket. -/
def entryAt? (t : Table α) (hash : UInt64) (place : Nat) : Option α :=
  (t.buckets.find? hash).bind (·[place]?)

/-- Change the entry at a place of a bucket; nothing changes when there is no such place. -/
def modify (t : Table α) (hash : UInt64) (place : Nat) (f : α → α) : Table α :=
  match t.buckets.find? hash with
  | none => t
  | some bucket => { t with buckets := t.buckets.insert hash (bucket.modify place f) }

/-- Take away the entry at a place of a bucket, and the bucket with its last entry; nothing changes
when there is no such place. -/
def erase (t : Table α) (hash : UInt64) (place : Nat) : Table α :=
  match t.buckets.find? hash with
  | none => t
  | some bucket =>
    if h : place < bucket.size then
      let rest := bucket.eraseIdx place
      { buckets := if rest.isEmpty then t.buckets.erase hash else t.buckets.insert hash rest
        size := t.size - 1 }
    else t

/-! ## Cursors -/

/-- The first entry at or after a position: at `place` of the bucket of `hash`, or at the start of a
bucket of a greater hash. The entry comes with its own position. -/
def nextFrom? (t : Table α) (hash : UInt64) (place : Nat) : Option (UInt64 × Nat × α) :=
  t.buckets.firstFrom? hash fun h bucket =>
    let start := if h = hash then place else 0
    (bucket[start]?).map fun x => (h, start, x)

end Table

end ObjectSpace

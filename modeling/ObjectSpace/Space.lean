import ObjectSpace.Equality

/-!
# The space

A space is everything a running program can change: the heap with its permanent objects, the
output, the counters of the collector and the disk. An `Action` works on a space. It may stop with a
diagnostic or a violation, and then leaves the space as it was at that point.

**Primitive steps.** `alloc` places an object, `update` changes one, `write` adds to the output, and
`changeDisk` changes the disk; interning and the binding of the global context record a handle. All
other actions are made of these.
-/

namespace ObjectSpace

/-- How a space is set up. -/
structure Settings where
  /-- Allocations between two collections. -/
  threshold : Nat := 128
  /-- The text bound to `__name__` in the module context. -/
  moduleName : String := "__main__"
  layout : Layout := {}

/-- The state of a running program. -/
structure Space where
  heap : Heap
  /-- Allocations after which a collection is due. -/
  threshold : Nat
  moduleName : String
  noneValue : Handle
  trueValue : Handle
  falseValue : Handle
  /-- One type object per built-in type. -/
  types : Vector Handle 31
  /-- One function per built-in method. -/
  methods : Vector Handle 39
  /-- Interned integers. -/
  integers : List (Int64 × Handle) := []
  /-- Interned texts. -/
  texts : List (String × Handle) := []
  /-- The context that holds the names of the module. -/
  globals : Option Handle := none
  output : String := ""
  /-- Allocations since the last collection. -/
  pending : Nat
  collections : Nat := 0
  /-- Objects marked by the last collection. -/
  lastMarked : Nat := 0
  totalMarked : Nat := 0
  disk : Disk := {}

/-- A computation on a space. -/
abbrev Action := EStateM Halt Space

instance : MonadLift Query Action where
  monadLift q := fun s =>
    match q s.heap with
    | .ok a => .ok a s
    | .error e => .error e s

namespace Heap

/-- Place an object and count it. -/
def place (o : Object) : StateM (Heap × Nat) Handle := fun (heap, n) =>
  let (h, _, heap) := heap.allocateIn o.sizeClass o
  (h, heap, n + 1)

end Heap

namespace Space

/-- A space with its permanent objects: None, the two Booleans, the type objects and the methods. -/
def create (settings : Settings) (disk : Disk) : Except Diagnostic Space :=
  match Arena.create settings.layout with
  | .error e => .error e.diagnostic
  | .ok heap =>
    let permanent : StateM (Heap × Nat) Space := do
      let noneValue ← Heap.place .nothing
      let trueValue ← Heap.place (.bool true)
      let falseValue ← Heap.place (.bool false)
      let types ← Kind.all.mapM fun k => Heap.place (.type k)
      let methods ← Method.all.mapM fun m => Heap.place (.function m.qualifiedName (.method m))
      let (heap, pending) ← get
      return {
        heap, pending, noneValue, trueValue, falseValue, types, methods, disk
        threshold := max 1 settings.threshold
        moduleName := settings.moduleName }
    .ok (permanent.run (heap, 0)).1

/-! ## Primitive steps -/

/-- The disk after the object of a slot was dropped: a writer brings its buffer to the file. -/
def settle (dropped : Option Object) (disk : Disk) : Disk :=
  match dropped with
  | some (.file { stream := .writer w, .. }) => (w.flush disk).2
  | _ => disk

/-- Place an object. What the slot held before is dropped. -/
def alloc (o : Object) : Action Handle := fun s =>
  let (h, dropped, heap) := s.heap.allocateIn o.sizeClass o
  .ok h { s with heap, pending := s.pending + 1, disk := settle dropped s.disk }

/-- Change the object behind a handle. -/
def update (h : Handle) (f : Object → Object) : Action Unit := do
  unless (← get).heap.isCurrent h do violate (.staleHandle h)
  modify fun s => { s with heap := s.heap.modify h f }

theorem get_apply (s : Space) : (get : Action Space) s = .ok s s := rfl

theorem modify_apply (f : Space → Space) (s : Space) :
    (modify f : Action Unit) s = .ok () (f s) := rfl

theorem modifyGet_apply {α : Type} (f : Space → α × Space) (s : Space) :
    (modifyGet f : Action α) s = .ok (f s).1 (f s).2 := rfl

/-- Add to the output. -/
def write (text : String) : Action Unit := modify fun s => { s with output := s.output ++ text }

/-- Take what was written since the last time. -/
def takeOutput : Action String := modifyGet fun s => (s.output, { s with output := "" })

/-- Change the disk, or leave it when that is not possible. -/
def changeDisk {α : Type} (f : Disk → α × Disk) : Action α := modifyGet fun s =>
  let (a, disk) := f s.disk
  (a, { s with disk })

/-! ## Permanent values -/

/-- The None value. -/
def nothing : Action Handle := return (← get).noneValue

/-- One of the two Booleans. -/
def boolean (b : Bool) : Action Handle := do
  let s ← get
  return if b then s.trueValue else s.falseValue

/-- Whether a handle is that of None. -/
def isNone (h : Handle) : Action Bool := return h = (← get).noneValue

/-- The type object of a built-in type. -/
def typeObject (k : Kind) : Action Handle := return (← get).types.get k.index

/-- The function of a built-in method. -/
def methodFunction (m : Method) : Action Handle := return (← get).methods.get m.index

/-- The one object for an integer constant. -/
def internInt (n : Int64) : Action Handle := do
  match (← get).integers.lookup n with
  | some h => return h
  | none =>
    let h ← alloc (.int n)
    modify fun s => { s with integers := (n, h) :: s.integers }
    return h

/-- The one object for a text constant, which carries its hash. -/
def internStr (text : String) : Action Handle := do
  match (← get).texts.lookup text with
  | some h => return h
  | none =>
    let h ← alloc (.str text (some (Fnv.hashText text)))
    modify fun s => { s with texts := (text, h) :: s.texts }
    return h

/-! ## New values -/

/-- A new integer. -/
def newInt (n : Int64) : Action Handle := alloc (.int n)

/-- A new integer for a count, which has to fit in a word. -/
def newCount (operation : String) (n : Nat) : Action Handle := do
  newInt (← Integer.checked operation n)

/-- A new text. -/
def newStr (text : String) : Action Handle := alloc (.str text none)

/-- A new byte sequence. -/
def newBytes (bs : Array UInt8) : Action Handle := alloc (.bytes bs)

/-- A new list. -/
def newList (items : Array Handle) : Action Handle := alloc (.list items)

/-- A new tuple. -/
def newTuple (items : Array Handle) : Action Handle := alloc (.tuple items)

/-- A new range; its step must not be zero. -/
def newRange (start stop step : Int64) : Action Handle :=
  if h : step = 0 then fatal (.invalidValue "range() arg 3 must not be zero")
  else alloc (.range ⟨start, stop, step, h⟩)

/-- A new function that runs code of the program. -/
def newFunction (name : String) (code : Nat) : Action Handle :=
  alloc (.function name (.compiled code))

/-- A new class with the given members. -/
def newClass (name : String) (members : List (String × Handle)) : Action Handle :=
  alloc (.userClass name (Bindings.ofList members))

/-- A new method bound to its receiver. -/
def newBoundMethod (receiver function : Handle) : Action Handle :=
  alloc (.boundMethod receiver function)

end Space

end ObjectSpace

import ObjectSpace.Space

/-!
# Contexts and names

A context holds the variables of one activation: numbered slots, and names. A name is looked up in
the context and then in its parents, from the caller outwards. A name that a context declares
global is looked up and stored in the outermost context instead, which is the module context once
there is one.
-/

namespace ObjectSpace

namespace Heap

/-- The end of the parent chain of a context, within a number of steps. -/
def outermostWithin : Nat → Handle → Query Handle
  | 0, c => violate (.endless c)
  | n + 1, c => do
    match (← context c).parent with
    | some parent => outermostWithin n parent
    | none => return c

/-- What a name is bound to in a context or its parents, within a number of steps. -/
def findNameWithin : Nat → Handle → String → Query (Option Handle)
  | 0, c, _ => violate (.endless c)
  | n + 1, c, name => do
    let ctx ← context c
    match ctx.names.get? name with
    | some v => return some v
    | none =>
      match ctx.parent with
      | some parent => findNameWithin n parent name
      | none => return none

/-- The context where the search for a name starts: `c`, or the outermost one if `c` declares the
name global. -/
def searchStart (globals : Option Handle) (c : Handle) (name : String) : Query Handle := do
  if (← context c).globals.contains name then
    match globals with
    | some g => return g
    | none => outermostWithin (← depth) c
  else return c

/-- The value of a slot. -/
def load (c : Handle) (index : Nat) : Query Handle := do
  match (← context c).slots[index]? with
  | some (some v) => return v
  | _ => fatal (.slotNotDefined index)

/-- The caller's context. -/
def parentContext (c : Handle) : Query (Option Handle) := return (← context c).parent

end Heap

namespace Space

/-- A new context with empty slots. -/
def newContext (parent : Option Handle) (slots : Nat) : Action Handle :=
  alloc (.context { slots := Array.replicate slots none, parent })

/-- Change a context. -/
def updateContext (c : Handle) (f : Context → Context) : Action Unit := do
  let _ ← Heap.context c
  update c fun
    | .context ctx => .context (f ctx)
    | o => o

/-- Set a slot, adding slots up to it if there are fewer. -/
def store (c : Handle) (index : Nat) (v : Handle) : Action Unit :=
  updateContext c fun ctx =>
    let slots := ctx.slots ++ Array.replicate (index + 1 - ctx.slots.size) none
    { ctx with slots := slots.setIfInBounds index (some v) }

/-- Send later uses of a name in this context to the outermost one. -/
def declareGlobal (c : Handle) (name : String) : Action Unit :=
  updateContext c fun ctx => { ctx with globals := name :: ctx.globals }

/-- Bind a name. -/
def storeName (c : Handle) (name : String) (v : Handle) : Action Unit := do
  let target ← Heap.searchStart (← get).globals c name
  updateContext target fun ctx => { ctx with names := ctx.names.set name v }

/-- The value of a name. -/
def loadName (c : Handle) (name : String) : Action Handle := do
  let start ← Heap.searchStart (← get).globals c name
  match ← Heap.findNameWithin (← Heap.depth) start name with
  | some v => return v
  | none => fatal (.nameNotDefined name)

end Space

end ObjectSpace

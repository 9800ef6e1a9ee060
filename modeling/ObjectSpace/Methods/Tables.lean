import ObjectSpace.Methods.Arguments

/-!
# Methods of dicts and sets
-/

namespace ObjectSpace.Space

/-- Run a method of a dict with the given entries. -/
def dictMethod (method : DictMethod) (d : Handle) (entries : Table (Handle × Handle))
    (args : List Handle) : Action Handle := do
  let m := Method.dict method
  match method with
  | .clear =>
    m.noArgument args
    updateDict d (·.clear)
    nothing
  | .copy =>
    m.noArgument args
    alloc (.dict entries)
  | .get =>
    let (key, default?) ← m.oneOrTwoArguments args
    match ← Heap.dictLookup d key, default? with
    | some v, _ => return v
    | none, some v => return v
    | none, none => nothing
  | .keys =>
    m.noArgument args
    alloc (.view d .keys)
  | .values =>
    m.noArgument args
    alloc (.view d .values)
  | .items =>
    m.noArgument args
    alloc (.view d .items)
  | .pop =>
    let (key, default?) ← m.oneOrTwoArguments args
    match ← dictRemove d key, default? with
    | some v, _ => return v
    | none, some v => return v
    | none, none => Heap.keyNotFound Heap.repr key
  | .update =>
    dictUpdate d (← m.oneArgument args)
    nothing

/-- Add every item of an iterable to a set, one by one. -/
def addAll (s source : Handle) : Action Unit := do
  (← collect source).toList.forM fun item => do
    let _ ← setInsert s item

/-- Remove every item of an iterable from a set, one by one. -/
def removeAll (s source : Handle) : Action Unit := do
  (← collect source).toList.forM fun item => do
    let _ ← setRemove s item

/-- Run a method of a set with the given members. -/
def setMethod (method : SetMethod) (s : Handle) (members : Table Handle) (args : List Handle) :
    Action Handle := do
  let m := Method.set method
  match method with
  | .add =>
    let _ ← setInsert s (← m.oneArgument args)
    nothing
  | .clear =>
    m.noArgument args
    updateSet s (·.clear)
    nothing
  | .copy =>
    m.noArgument args
    alloc (.set members)
  | .differenceUpdate =>
    args.forM fun source => removeAll s source
    nothing
  | .discard =>
    let _ ← setRemove s (← m.oneArgument args)
    nothing
  | .remove =>
    let v ← m.oneArgument args
    if ← setRemove s v then nothing
    else fatal (.notInContainer "set" (← Heap.repr v))
  | .update =>
    args.forM fun source => addAll s source
    nothing

end ObjectSpace.Space

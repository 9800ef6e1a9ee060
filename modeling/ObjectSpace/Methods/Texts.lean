import ObjectSpace.Methods.Arguments

/-!
# Methods of texts and bytes
-/

namespace ObjectSpace.Space

/-- The affixes that an argument stands for: the elements of a tuple, or the argument. -/
def affixes (m : Method) (v : Handle) : Query (List String) := do
  match ← Heap.get v with
  | .tuple items => items.toList.mapM m.expectStr
  | _ => return [← m.expectStr v]

/-- Run a method of a text. -/
def strMethod (method : StrMethod) (s : String) (args : List Handle) : Action Handle := do
  let m := Method.str method
  match method with
  | .join =>
    let items ← collect (← m.oneArgument args)
    newStr (Text.join s (← items.toList.mapM fun v => m.expectStr v))
  | .split =>
    let parts ←
      match ← m.presentArgument args with
      | none => pure (Text.words s)
      | some v => do
        let sep ← m.expectStr v
        if sep = "" then fatal (.invalidValue "empty separator")
        pure (Text.split s sep)
    newList (← parts.mapM newStr).toArray
  | .startswith =>
    let tests ← affixes m (← m.oneArgument args)
    boolean (tests.any (Text.startsWith s))
  | .endswith =>
    let tests ← affixes m (← m.oneArgument args)
    boolean (tests.any (Text.endsWith s))
  | .upper =>
    m.noArgument args
    newStr (Text.upper s)
  | .lower =>
    m.noArgument args
    newStr (Text.lower s)
  | .strip =>
    match ← m.presentArgument args with
    | none => newStr (Text.trim s)
    | some v =>
      let chars ← m.expectStr v
      newStr (Text.trimWhere (chars.toList.contains ·) s)

/-- Decode bytes as a text. -/
def decodeMethod (bs : Array UInt8) (args : List Handle) : Action Handle := do
  let m := Method.bytesDecode
  let encoding ←
    match ← m.optionalArgument args with
    | some v => do
      let name ← m.expectStr v
      let e ← Encoding.ofName name
      pure e
    | none => pure Encoding.utf8
  newStr (← encoding.decode bs)

end ObjectSpace.Space

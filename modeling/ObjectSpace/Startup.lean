import ObjectSpace.Call
import ObjectSpace.Names

/-!
# The module context

Before a program runs, its module context gets a name for every built-in function and for every
type that can be called, the name of the module and the list of its arguments.
-/

namespace ObjectSpace

/-- The types that are bound by name, in order. -/
def Kind.named : List Kind :=
  [.bool, .bytes, .dict, .enumerate, .int, .list, .range, .reversed, .set, .str, .tuple, .type,
    .zip]

namespace Settings

/-- The settings for a threshold given as text: a positive number counts, anything else is passed
over. -/
def ofThreshold (text : Option String) : Settings :=
  match text.bind fun t => Numeral.positive? (Text.trim t) with
  | some n => { threshold := n }
  | none => {}

end Settings

namespace Space

/-- Bind a built-in function under a name, taking the given keyword arguments. -/
def bindFunction (ctx : Handle) (name : String) (f : Builtin) (keywords : List String) :
    Action Unit := do
  let h ← alloc (.function name (.builtin f keywords))
  storeName ctx name h

/-- Bind a type under its own name. -/
def bindType (ctx : Handle) (k : Kind) : Action Unit := do storeName ctx k.name (← typeObject k)

/-- Make `ctx` the module context and fill it. -/
def initContext (ctx : Handle) (argv : List String) : Action Unit := do
  modify fun s => { s with globals := some ctx }
  Builtin.standard.forM fun f => bindFunction ctx f.name f f.keywords
  Kind.named.forM fun k => bindType ctx k
  let name ← newStr (← get).moduleName
  storeName ctx "__name__" name
  let args ← argv.mapM newStr
  let list ← newList args.toArray
  storeName ctx "__args__" list

end Space

end ObjectSpace

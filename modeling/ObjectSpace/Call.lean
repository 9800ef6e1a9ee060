import ObjectSpace.Methods.Files
import ObjectSpace.Methods.Sequences
import ObjectSpace.Methods.Tables
import ObjectSpace.Methods.Texts

/-!
# Calls

A call passes positional arguments packed in a tuple and optional keyword arguments in a dict. Code
of the program gets both as they are, together with the module context and the caller's context.
Built-in functions and methods get the arguments unpacked, a bound receiver first.

Calling a class makes an instance: every function among the members is bound to it as an attribute,
and then `__init__` runs if there is one, whatever it returns.

The code of a program is a parameter, `Code`, so a call is not recursive here.
-/

namespace ObjectSpace

/-- What code of the program is called with. -/
structure Frame where
  globals : Handle
  caller : Handle
  args : Handle
  kwargs : Option Handle

/-- The code of a program, by number. -/
abbrev Code := Nat → Frame → Action Handle

/-- A program without code of its own. -/
def noCode : Code := fun n _ => violate (.missingCode n)

namespace Space

/-- Run a built-in method on a receiver, which has to be of the type that owns the method. -/
def runMethod (m : Method) (receiver : Handle) (args : List Handle) : Action Handle := do
  let o ← Heap.get receiver
  match m, o with
  | .dict m, .dict t => dictMethod m receiver t args
  | .list m, .list items => listMethod m receiver items args
  | .set m, .set t => setMethod m receiver t args
  | .str m, .str s _ => strMethod m s args
  | .tuple m, .tuple items => tupleMethod m items args
  | .bytesDecode, .bytes bs => decodeMethod bs args
  | .file m, .file f => fileMethod m receiver f args
  | m, _ => Heap.badArgument m.qualifiedName m.owner.name receiver

/-- Keyword arguments; None and an empty dict count as none. -/
def presentKeywords (kwargs : Option Handle) : Action (Option Handle) := do
  match kwargs with
  | none => return none
  | some k =>
    if ← isNone k then return none
    match ← Heap.get k with
    | .dict t => return if t.isEmpty then none else some k
    | _ => return some k

/-- Refuse keyword arguments that a function does not take. -/
def checkKeywords (name : String) (kwargs : Handle) (allowed : List String) : Query Unit := do
  match ← Heap.get kwargs with
  | .dict t =>
    if allowed.isEmpty then fatal (.noKeywordArguments name)
    t.toList.forM fun (key, _) => do
      let known := (← Heap.asStr? key).any allowed.contains
      unless known do fatal (.unexpectedKeyword name (← Heap.str key))
  | _ => Heap.badArgument name "dict" kwargs

/-- The positional arguments of a call, a bound receiver first. -/
def positional (receiver : Option Handle) (args : Handle) : Query (List Handle) :=
  return receiver.toList ++ (← Heap.arguments args).toList

/-- Call a function. -/
def callFunction (code : Code) (ctx : Handle) (name : String) (entry : Entry)
    (receiver : Option Handle) (args : Handle) (kwargs : Option Handle) : Action Handle := do
  match entry with
  | .compiled n =>
    let args ←
      match receiver with
      | some _ => newTuple (← positional receiver args).toArray
      | none => pure args
    code n { globals := (← get).globals.getD ctx, caller := ctx, args, kwargs }
  | .builtin f keywords =>
    match kwargs with
    | some kw => checkKeywords name kw keywords
    | none => pure ()
    runBuiltin f (← positional receiver args) kwargs
  | .method m =>
    if kwargs.isSome then fatal (.noKeywordArguments m.qualifiedName)
    match ← positional receiver args with
    | receiver :: rest => runMethod m receiver rest
    | [] => fatal (.argumentCount m.qualifiedName 1 countLimit 0)

/-- Give an instance an attribute of its own. -/
def setOwnAttribute (inst : Handle) (name : String) (value : Handle) : Action Unit :=
  update inst fun
    | .userInstance cls attributes => .userInstance cls (attributes.set name value)
    | o => o

/-- Bind the functions among the members to a new instance as attributes, giving the function
`__init__` if there is one. -/
def bindMembers (inst : Handle) (members : List (String × Handle)) : Action (Option Handle) :=
  members.foldlM (fun init? (name, member) => do
    if ← Heap.isFunction member then
      let bound ← newBoundMethod inst member
      setOwnAttribute inst name bound
      return if name = "__init__" then some member else init?
    else return init?) none

/-- Make an instance of a class. -/
def instantiate (code : Code) (ctx cls : Handle) (className : String) (members : Bindings)
    (args : Handle) (kwargs : Option Handle) : Action Handle := do
  let inst ← alloc (.userInstance cls {})
  match ← bindMembers inst members.entries with
  | some init =>
    let kwargs ← presentKeywords kwargs
    match ← Heap.get init with
    | .function name entry =>
      let _ ← callFunction code ctx name entry (some inst) args kwargs
    | _ => fatal (.notCallable (← Heap.typeName init))
  | none =>
    let given := (← Heap.arguments args).size
    if 0 < given then fatal (.argumentCount className 0 0 given)
    if kwargs.isSome then fatal (.noKeywordArguments className)
  return inst

/-- Call a value from code that runs in the context `ctx`. -/
def call (code : Code) (ctx callee args : Handle) (kwargs : Option Handle) : Action Handle := do
  let kwargs ← presentKeywords kwargs
  match ← Heap.get callee with
  | .function name entry => callFunction code ctx name entry none args kwargs
  | .boundMethod receiver f =>
    match ← Heap.get f with
    | .function name entry => callFunction code ctx name entry (some receiver) args kwargs
    | _ => fatal (.notCallable (← Heap.typeName f))
  | .userClass className members => instantiate code ctx callee className members args kwargs
  | .type k => construct k (← Heap.arguments args).toList kwargs
  | _ => fatal (.notCallable (← Heap.typeName callee))

/-- Call a value with positional arguments only. -/
def callWith (code : Code) (ctx callee : Handle) (args : List Handle) : Action Handle := do
  let pack ← newTuple args.toArray
  call code ctx callee pack none

end Space

end ObjectSpace

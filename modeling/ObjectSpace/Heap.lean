import ObjectSpace.Arena.Basic
import ObjectSpace.Diagnostic
import ObjectSpace.Object

/-!
# The heap

The heap is the arena of objects. A `Query` reads it and cannot change it; it may fail with a
diagnostic, which is the program's fault, or with a violation, which is the caller's: a handle
whose slot was handed out again, or one that names an object of the wrong variant.
-/

namespace ObjectSpace

/-- The arena of objects. -/
abbrev Heap := Arena Object

/-- A broken promise of the caller. -/
inductive Violation where
  | staleHandle (h : Handle)
  | staleMark (h : Handle)
  | notDict (h : Handle)
  | notSet (h : Handle)
  | notList (h : Handle)
  | notFile (h : Handle)
  | notArguments (h : Handle)
  | notContext (h : Handle)
  | notValue (h : Handle)
  /-- A value contains itself where equality or hashing has to follow its parts. -/
  | endless (h : Handle)
  /-- A sequence has no such position, or a text has it within a character. -/
  | outOfRange (h : Handle) (position : Nat)
  /-- A case was met that an earlier check rules out. -/
  | unreachable (check : String)
  /-- A function names code that the program does not have. -/
  | missingCode (code : Nat)
  /-- Code got fewer arguments than it reads. -/
  | missingArgument (index : Nat)
  deriving DecidableEq

/-- The report of a violation. -/
def Violation.message : Violation → String
  | staleHandle h => "stale object handle " ++ h.text
  | staleMark h => "marking stale object handle " ++ h.text
  | notDict h => "not a dict: Value(" ++ h.text ++ ")"
  | notSet h => "not a set: Value(" ++ h.text ++ ")"
  | notList h => "not a list: Value(" ++ h.text ++ ")"
  | notFile h => "not a file: Value(" ++ h.text ++ ")"
  | notArguments h => "argument pack is not a tuple: Value(" ++ h.text ++ ")"
  | notContext h => "not a context: ContextId(Value(" ++ h.text ++ "))"
  | notValue h => "not a program value: Value(" ++ h.text ++ ")"
  | endless h => "value contains itself: Value(" ++ h.text ++ ")"
  | outOfRange h position =>
    "position " ++ toString position ++ " is out of range: Value(" ++ h.text ++ ")"
  | unreachable check => "internal error: entered unreachable code: " ++ check
  | missingCode code => "no code " ++ toString code
  | missingArgument index => "no argument " ++ toString index

/-- Why an operation stops. -/
inductive Halt where
  | fatal (d : Diagnostic)
  | violation (v : Violation)
  deriving DecidableEq

/-- The text of what stopped an operation. -/
def Halt.message : Halt → String
  | fatal d => d.message
  | violation v => v.message

/-- An arena's refusal as a diagnostic. -/
def ArenaError.diagnostic : ArenaError → Diagnostic
  | badSize size => .badObjectSize size
  | badLayout reason => .arenaLayout reason

/-- A computation that reads the heap. -/
abbrev Query := ReaderT Heap (Except Halt)

instance : MonadLift (Except Diagnostic) (Except Halt) where
  monadLift
    | .ok a => .ok a
    | .error d => .error (.fatal d)

/-- Stop with a diagnostic. -/
def fatal {m : Type → Type} [MonadExceptOf Halt m] {α : Type} (d : Diagnostic) : m α :=
  throwThe Halt (.fatal d)

/-- Stop with a violation. -/
def violate {m : Type → Type} [MonadExceptOf Halt m] {α : Type} (v : Violation) : m α :=
  throwThe Halt (.violation v)

namespace Heap

/-- The object behind a handle. -/
def get (h : Handle) : Query Object := fun heap =>
  match heap.fetch h with
  | .ok o => .ok o
  | .error h => .error (.violation (.staleHandle h))

/-- A bound on the depth of any value that does not contain itself. -/
def depth : Query Nat := fun heap => .ok (heap.capacity + 1)

/-- The entries of a dict. -/
def dict (h : Handle) : Query (Table (Handle × Handle)) := do
  match ← get h with
  | .dict t => return t
  | _ => violate (.notDict h)

/-- The members of a set. -/
def set (h : Handle) : Query (Table Handle) := do
  match ← get h with
  | .set t => return t
  | _ => violate (.notSet h)

/-- The elements of a list. -/
def list (h : Handle) : Query (Array Handle) := do
  match ← get h with
  | .list items => return items
  | _ => violate (.notList h)

/-- The file behind a handle. -/
def file (h : Handle) : Query File := do
  match ← get h with
  | .file f => return f
  | _ => violate (.notFile h)

/-- The context behind a handle. -/
def context (h : Handle) : Query Context := do
  match ← get h with
  | .context c => return c
  | _ => violate (.notContext h)

/-- The integer value of an integer or a Boolean. -/
def asInt? (h : Handle) : Query (Option Int64) := return (← get h).asInt?

/-- The text of a text. -/
def asStr? (h : Handle) : Query (Option String) := return (← get h).asStr?

/-- The name of the type of a value: for an instance the name of its class. -/
def typeName (h : Handle) : Query String := do
  match ← get h with
  | .userInstance cls _ =>
    match ← get cls with
    | .userClass name _ => return name
    | _ => return "object"
  | .context _ => return "context"
  | o => return (o.kind?.map Kind.name).getD "object"

/-- The diagnostic for an argument of the wrong type. -/
def badArgument {α : Type} (name expected : String) (actual : Handle) : Query α := do
  fatal (.badArgument name expected (← typeName actual))

/-- The diagnostic for an operation that one value does not support. -/
def unimplemented {α : Type} (operation : String) (h : Handle) : Query α := do
  fatal (.unimplemented operation (← typeName h))

/-- The diagnostic for an operation that two values do not support. -/
def unsupported {α : Type} (operation : String) (left right : Handle) : Query α := do
  let l ← typeName left
  fatal (.binaryUnsupported operation l (← typeName right))

/-- The integer value of an argument. -/
def expectInt (h : Handle) (name : String) : Query Int64 := do
  match ← asInt? h with
  | some n => return n
  | none => badArgument name "int" h

/-- The text of an argument. -/
def expectStr (h : Handle) (name : String) : Query String := do
  match ← asStr? h with
  | some s => return s
  | none => badArgument name "str" h

/-- The positional arguments that a tuple or a list holds. -/
def arguments (h : Handle) : Query (Array Handle) := do
  match (← get h).asSequence? with
  | some items => return items
  | none => violate (.notArguments h)

end Heap

end ObjectSpace

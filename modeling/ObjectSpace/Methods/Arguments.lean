import ObjectSpace.Constructors
import ObjectSpace.Items

/-!
# Arguments of methods

Checks of what a built-in method is called with. Diagnostics name the method with its type.
-/

namespace ObjectSpace.Method

/-- Refuse a number of arguments outside the bounds. -/
def checkCount (m : Method) (least most : Nat) (args : List Handle) : Except Diagnostic Unit :=
  ObjectSpace.checkCount m.qualifiedName least most args

/-- The one argument of a method. -/
def oneArgument (m : Method) (args : List Handle) : Except Diagnostic Handle :=
  ObjectSpace.oneArgument m.qualifiedName args

/-- Refuse any argument. -/
def noArgument (m : Method) (args : List Handle) : Except Diagnostic Unit := m.checkCount 0 0 args

/-- An optional argument of a method. -/
def optionalArgument (m : Method) (args : List Handle) : Except Diagnostic (Option Handle) := do
  m.checkCount 0 1 args
  return args.head?

/-- A required and an optional argument of a method. -/
def oneOrTwoArguments (m : Method) (args : List Handle) :
    Except Diagnostic (Handle × Option Handle) :=
  ObjectSpace.oneOrTwoArguments m.qualifiedName args

/-- The integer value of an argument. -/
def expectInt (m : Method) (v : Handle) : Query Int64 := Heap.expectInt v m.qualifiedName

/-- The text of an argument. -/
def expectStr (m : Method) (v : Handle) : Query String := Heap.expectStr v m.qualifiedName

/-- An optional argument; None counts as absent. -/
def presentArgument (m : Method) (args : List Handle) : Action (Option Handle) := do
  match ← m.optionalArgument args with
  | some v => return if ← Space.isNone v then none else some v
  | none => return none

end ObjectSpace.Method

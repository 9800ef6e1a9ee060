/-!
# Operators

The operators of the language and the names under which diagnostics mention them.
-/

namespace ObjectSpace

/-- A binary operator. -/
inductive BinaryOp where
  | add | and | divmod | floorDiv | shiftLeft | mod | mul | or | pow | shiftRight | sub | trueDiv
  | xor
  deriving DecidableEq

/-- The name of a binary operator in diagnostics. -/
def BinaryOp.name : BinaryOp → String
  | add => "add"
  | and => "and"
  | divmod => "divmod"
  | floorDiv => "floordiv"
  | shiftLeft => "lshift"
  | mod => "mod"
  | mul => "mul"
  | or => "or"
  | pow => "pow"
  | shiftRight => "rshift"
  | sub => "sub"
  | trueDiv => "truediv"
  | xor => "xor"

/-- Every binary operator, by name. -/
def BinaryOp.all : List BinaryOp :=
  [add, and, divmod, floorDiv, shiftLeft, mod, mul, or, pow, shiftRight, sub, trueDiv, xor]

/-- A unary operator. -/
inductive UnaryOp where
  | not | neg | pos | invert
  deriving DecidableEq

/-- The name of a unary operator in diagnostics. -/
def UnaryOp.name : UnaryOp → String
  | not => "not"
  | neg => "neg"
  | pos => "pos"
  | invert => "invert"

/-- Every unary operator. -/
def UnaryOp.all : List UnaryOp := [not, neg, pos, invert]

/-- A comparison. -/
inductive Comparison where
  | eq | ne | lt | le | gt | ge
  deriving DecidableEq

/-- The name of a comparison in diagnostics. -/
def Comparison.name : Comparison → String
  | eq => "eq"
  | ne => "ne"
  | lt => "lt"
  | le => "le"
  | gt => "gt"
  | ge => "ge"

/-- Every comparison. -/
def Comparison.all : List Comparison := [eq, ne, lt, le, gt, ge]

/-- Whether a comparison holds of two things that stand in the order `o`. -/
def Comparison.holds : Comparison → Ordering → Bool
  | eq, o => o == .eq
  | ne, o => o != .eq
  | lt, o => o == .lt
  | le, o => o != .gt
  | gt, o => o == .gt
  | ge, o => o != .lt

end ObjectSpace

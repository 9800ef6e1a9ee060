import ObjectSpace.Diagnostic
import ObjectSpace.Operator

/-!
# Integers

Integers are signed words of 64 bits. A result that a word cannot hold is an `integerOverflow`, so
nothing wraps. Division rounds to the floor, and a remainder has the sign of the divisor: both
correct what division toward zero gives. Powers are multiplied up by repeated squaring, and a shift
to the left is checked by shifting back.
-/

namespace ObjectSpace.Integer

/-! ## Checked results -/

/-- The word for `n`, when 64 bits can hold it. -/
def ofInt? (n : Int) : Option Int64 :=
  if Int64.minValue.toInt ≤ n ∧ n ≤ Int64.maxValue.toInt then some (Int64.ofInt n) else none

/-- A word, or an overflow in `operation` where there is none. -/
def orOverflow (operation : String) : Option Int64 → Except Diagnostic Int64
  | some w => .ok w
  | none => .error (.integerOverflow operation)

/-- The word for `n`, or an overflow in `operation`. -/
def checked (operation : String) (n : Int) : Except Diagnostic Int64 :=
  orOverflow operation (ofInt? n)

/-- The product, when a word can hold it. -/
def checkedMul (a b : Int64) : Option Int64 := ofInt? (a.toInt * b.toInt)

/-- Division by `b` has no result in a word. -/
def Undivided (a b : Int64) : Prop := b = 0 ∨ a = Int64.minValue ∧ b = -1

instance (a b : Int64) : Decidable (Undivided a b) := inferInstanceAs (Decidable (_ ∨ _ ∧ _))

/-- The quotient rounded toward zero, when a word can hold it. -/
def checkedDiv (a b : Int64) : Option Int64 := if Undivided a b then none else some (a / b)

/-- What the quotient rounded toward zero leaves over, when a word can hold the quotient. -/
def checkedRem (a b : Int64) : Option Int64 := if Undivided a b then none else some (a % b)

/-- `acc` times `base` to a power, by repeated squaring, when all products fit into words. -/
def powLoop (base acc : Int64) : Nat → Option Int64
  | 0 => some acc
  | n + 1 =>
    let product := if (n + 1) % 2 = 1 then checkedMul acc base else some acc
    product.bind fun acc =>
      if n = 0 then some acc
      else (checkedMul base base).bind fun square => powLoop square acc ((n + 1) / 2)

/-- A power, when a word can hold it. -/
def checkedPow (a : Int64) (exponent : Nat) : Option Int64 := powLoop a 1 exponent

/-! ## Operators -/

/-- The floor of `a / b`. -/
def floorDiv (a b : Int64) : Except Diagnostic Int64 :=
  if b = 0 then .error .divisionByZero
  else do
    let q ← orOverflow "floordiv" (checkedDiv a b)
    return if a % b ≠ 0 ∧ ¬ (a < 0 ↔ b < 0) then q - 1 else q

/-- What the floor of `a / b` leaves over. -/
def floorMod (a b : Int64) : Except Diagnostic Int64 :=
  if b = 0 then .error .divisionByZero
  else
    let r := (checkedRem a b).getD 0
    .ok (if r ≠ 0 ∧ ¬ (r < 0 ↔ b < 0) then r + b else r)

/-- The greatest exponent that is multiplied up. -/
def maxExponent : Int64 := 4294967295

/-- `a` to the power `b`. -/
def pow (a b : Int64) : Except Diagnostic Int64 :=
  if b < 0 then .error .negativeExponent
  else if b ≤ maxExponent then orOverflow "pow" (checkedPow a b.toInt.toNat)
  else if a = 0 ∨ a = 1 then .ok a
  else if a = -1 then .ok (if b % 2 = 0 then 1 else -1)
  else .error (.integerOverflow "pow")

/-- `a` times two to the power `b`. -/
def shiftLeft (a b : Int64) : Except Diagnostic Int64 :=
  if b < 0 then .error .negativeShift
  else if a = 0 then .ok 0
  else if 64 ≤ b then .error (.integerOverflow "lshift")
  else
    let shifted := a <<< b
    if shifted >>> b ≠ a then .error (.integerOverflow "lshift") else .ok shifted

/-- The floor of `a` over two to the power `b`. -/
def shiftRight (a b : Int64) : Except Diagnostic Int64 :=
  if b < 0 then .error .negativeShift
  else .ok (if 64 ≤ b then (if a < 0 then -1 else 0) else a >>> b)

/-- A binary operator on integers; none for the operators integers do not have. -/
def binary? (op : BinaryOp) (a b : Int64) : Option (Except Diagnostic Int64) :=
  match op with
  | .add => some (checked "add" (a.toInt + b.toInt))
  | .sub => some (checked "sub" (a.toInt - b.toInt))
  | .mul => some (checked "mul" (a.toInt * b.toInt))
  | .floorDiv => some (floorDiv a b)
  | .mod => some (floorMod a b)
  | .pow => some (pow a b)
  | .shiftLeft => some (shiftLeft a b)
  | .shiftRight => some (shiftRight a b)
  | .and => some (.ok (a &&& b))
  | .or => some (.ok (a ||| b))
  | .xor => some (.ok (a ^^^ b))
  | .trueDiv | .divmod => none

/-- The negative of `a`. -/
def neg (a : Int64) : Except Diagnostic Int64 := checked "neg" (-a.toInt)

/-- The absolute value of `a`. -/
def abs (a : Int64) : Except Diagnostic Int64 := checked "abs" a.toInt.natAbs

end ObjectSpace.Integer

import ObjectSpace.Integer
import ObjectSpace.Text.Blank

/-!
# Numerals

Reading and writing integers in a base. A numeral is an optional sign, for the bases 16, 8 and 2 an
optional mark (`0x`, `0o`, `0b`), and digits; single underscores may stand between digits. Blanks
around it do not count.

Of two faults in one numeral the first from the left is reported: a digit that the base does not
have is `invalidLiteral`, a magnitude beyond 64 unsigned bits is `integerOverflow`.
-/

namespace ObjectSpace.Numeral

/-- The value of a digit, in either letter case. -/
def digitValue? (c : Char) : Option Nat :=
  if '0' ≤ c ∧ c ≤ '9' then some (c.toNat - '0'.toNat)
  else if 'a' ≤ c ∧ c ≤ 'z' then some (c.toNat - 'a'.toNat + 10)
  else if 'A' ≤ c ∧ c ≤ 'Z' then some (c.toNat - 'A'.toNat + 10)
  else none

/-- The value of a digit of `base`. -/
def digit? (base : Nat) (c : Char) : Option Nat := (digitValue? c).filter (· < base)

/-- Why digits have no value. -/
inductive Fault where
  | badDigit
  | tooLarge

/-- The value of digits that follow a number `n`, which has to stay below 2^64. -/
def magnitude (base : Nat) (n : Nat) : List Char → Except Fault Nat
  | [] => .ok n
  | c :: rest =>
    match digit? base c with
    | none => .error .badDigit
    | some d =>
      if Nat.pow 2 64 ≤ n * base + d then .error .tooLarge else magnitude base (n * base + d) rest

/-- The sign, as whether the number is negative, and what follows it. -/
def splitSign : List Char → Bool × List Char
  | '-' :: rest => (true, rest)
  | '+' :: rest => (false, rest)
  | cs => (false, cs)

/-- The letter that marks a base after a zero. -/
def baseMark? : Nat → Option (Char × Char)
  | 16 => some ('x', 'X')
  | 8 => some ('o', 'O')
  | 2 => some ('b', 'B')
  | _ => none

/-- What follows the mark of the base, if the mark is there. -/
def dropMark (base : Nat) : List Char → List Char
  | '0' :: c :: rest =>
    match baseMark? base with
    | some (l, u) => if c = l ∨ c = u then rest else '0' :: c :: rest
    | none => '0' :: c :: rest
  | cs => cs

/-- Whether no underscore is next to another one. -/
def noDoubleUnderscore : List Char → Bool
  | '_' :: '_' :: _ => false
  | _ :: rest => noDoubleUnderscore rest
  | [] => true

/-- Whether there are digits, with underscores only singly between them, and no second sign. -/
def wellFormed (digits : List Char) : Bool :=
  digits ≠ [] ∧ digits.head? ≠ some '_' ∧ digits.getLast? ≠ some '_'
    ∧ noDoubleUnderscore digits ∧ digits.head? ≠ some '+' ∧ digits.head? ≠ some '-'

/-- The integer that a text denotes in `base`. -/
def parse (base : Nat) (text : String) : Except Diagnostic Int64 :=
  let (negative, rest) := splitSign (Text.trim text).toList
  let digits := dropMark base rest
  if !wellFormed digits then .error (.invalidLiteral base text)
  else
    match magnitude base 0 (digits.filter (· ≠ '_')) with
    | .error .badDigit => .error (.invalidLiteral base text)
    | .error .tooLarge => .error (.integerOverflow "int")
    | .ok n => Integer.checked "int" (if negative then -n else n)

/-- The decimal form of a word. -/
def decimal (n : Int64) : String := toString n.toInt

/-- The hexadecimal form of a word: a minus sign if negative, then the digits of the magnitude. -/
def hexadecimal (n : Int64) : String :=
  (if n < 0 then "-" else "") ++ String.ofList (Nat.toDigits 16 n.toInt.natAbs)

/-- A positive number below 2^64 in decimal digits, with an optional plus sign. -/
def positive? (text : String) : Option Nat :=
  let digits :=
    match text.toList with
    | '+' :: rest => rest
    | cs => cs
  if digits.isEmpty then none
  else (magnitude 10 0 digits).toOption.filter (0 < ·)

end ObjectSpace.Numeral

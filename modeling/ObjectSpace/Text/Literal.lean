/-!
# Literals

The quoted form of texts and of bytes. The quote is an apostrophe, or a double quote when the
content holds apostrophes and no double quote. A backslash, the quote itself and the three common
control characters are escaped by a backslash, other control characters by their code in
hexadecimal; bytes escape everything outside printable ASCII that way.
-/

namespace ObjectSpace.Literal

/-- A lower-case hexadecimal digit for a number below 16. -/
def hexDigit (n : Nat) : Char := if n < 10 then Char.ofNat (48 + n) else Char.ofNat (87 + n)

/-- The escape of a code below 256: a backslash, an `x` and two digits. -/
def hexEscape (n : Nat) : List Char := ['\\', 'x', hexDigit (n / 16), hexDigit (n % 16)]

/-- The quote for some content. -/
def quoteFor (content : List Char) : Char :=
  if '\'' ∈ content ∧ '"' ∉ content then '"' else '\''

/-- The escapes that texts and bytes share. -/
def escape? (quote c : Char) : Option (List Char) :=
  if c = '\\' then some ['\\', '\\']
  else if c = '\n' then some ['\\', 'n']
  else if c = '\r' then some ['\\', 'r']
  else if c = '\t' then some ['\\', 't']
  else if c = quote then some ['\\', c]
  else none

/-- A character inside a text literal. -/
def textUnit (quote c : Char) : List Char :=
  (escape? quote c).getD
    (if c.toNat < 0x20 ∨ c.toNat = 0x7f then hexEscape c.toNat else [c])

/-- A byte, given as the character of that code, inside a bytes literal. -/
def byteUnit (quote c : Char) : List Char :=
  (escape? quote c).getD
    (if c.toNat < 0x20 ∨ 0x7e < c.toNat then hexEscape c.toNat else [c])

/-- The content between quotes, each character written by `unit`. -/
def quoted (unit : Char → Char → List Char) (content : List Char) : List Char :=
  let quote := quoteFor content
  quote :: content.flatMap (unit quote) ++ [quote]

/-- The literal of a text. -/
def ofText (s : String) : String := String.ofList (quoted textUnit s.toList)

/-- The literal of a byte sequence. -/
def ofBytes (bs : Array UInt8) : String :=
  String.ofList ('b' :: quoted byteUnit (bs.toList.map fun b => Char.ofNat b.toNat))

end ObjectSpace.Literal

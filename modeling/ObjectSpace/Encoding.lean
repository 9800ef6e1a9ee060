import ObjectSpace.Diagnostic
import ObjectSpace.Text.Case
import ObjectSpace.Text.Utf8

/-!
# Encodings

The encodings a program can name when it turns a text into bytes or back. ASCII is written only for
texts of ASCII characters; both are read as UTF-8.
-/

namespace ObjectSpace

/-- A text encoding. -/
inductive Encoding where
  | utf8 | ascii
  deriving DecidableEq

namespace Encoding

/-- The encoding of a name, in any letter case. -/
def ofName (name : String) : Except Diagnostic Encoding :=
  match Text.lowerAscii name with
  | "utf-8" | "utf8" => .ok utf8
  | "ascii" => .ok ascii
  | other => .error (.invalidValue ("unknown encoding: " ++ other))

/-- The bytes of a text. -/
def encode (e : Encoding) (s : String) : Except Diagnostic (Array UInt8) :=
  if e = ascii ∧ ¬ s.toList.all (·.toNat < 128) then
    .error (.invalidValue "'ascii' codec can't encode non-ASCII text")
  else .ok (Utf8.encode s)

/-- The text of bytes. -/
def decode (_ : Encoding) (bs : Array UInt8) : Except Diagnostic String :=
  match Utf8.decode bs with
  | some s => .ok s
  | none => .error (.invalidValue "invalid utf-8 data")

end Encoding

end ObjectSpace

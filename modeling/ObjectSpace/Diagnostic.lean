/-!
# Diagnostics

The ways a program can fail. Each constructor is one cause; `Diagnostic.message` is the wording a
user sees.
-/

namespace ObjectSpace

/-- Why a program cannot continue. -/
inductive Diagnostic where
  -- operations a value does not support
  | unimplemented (operation type : String)
  | binaryUnsupported (operation left right : String)
  | notCallable (type : String)
  | notIterable (type : String)
  | unhashable (type : String)
  -- the shape of arguments
  | argumentCount (name : String) (least most actual : Nat)
  | noKeywordArguments (name : String)
  | unexpectedKeyword (name keyword : String)
  | badArgument (name expected actual : String)
  | invalidLiteral (base : Nat) (text : String)
  | invalidValue (reason : String)
  -- look-ups
  | nameNotDefined (name : String)
  | slotNotDefined (index : Nat)
  | keyNotFound (key : String)
  | unknownAttribute (type name : String)
  | notInContainer (container item : String)
  | indexOutOfRange (type : String)
  | emptyCollection (what : String)
  | iteratorExhausted
  -- arithmetic
  | divisionByZero
  | integerOverflow (operation : String)
  | negativeShift
  | negativeExponent
  -- files
  | fileNotFound (path : String)
  | inputOutput (reason : String)
  | fileClosed
  -- memory
  | badObjectSize (size : Nat)
  | arenaLayout (reason : String)
  deriving DecidableEq

namespace Diagnostic

/-- The wording for a wrong number of arguments: exact, too few or too many. -/
def argumentCountMessage (name : String) (least most actual : Nat) : String :=
  if least = most then
    "wrong number of arguments to " ++ name ++ "(): expected " ++ toString least ++ ", got "
      ++ toString actual
  else if actual < least then
    "too few arguments to " ++ name ++ "(): expected at least " ++ toString least ++ ", got "
      ++ toString actual
  else
    "too many arguments to " ++ name ++ "(): expected at most " ++ toString most ++ ", got "
      ++ toString actual

/-- The text of a diagnostic. -/
def message : Diagnostic → String
  | unimplemented operation type => operation ++ " unimplemented for '" ++ type ++ "'"
  | binaryUnsupported operation left right =>
    operation ++ " unimplemented for '" ++ left ++ "' and '" ++ right ++ "'"
  | notCallable type => "'" ++ type ++ "' object is not callable"
  | notIterable type => "'" ++ type ++ "' object is not iterable"
  | unhashable type => "unhashable type: '" ++ type ++ "'"
  | argumentCount name least most actual => argumentCountMessage name least most actual
  | noKeywordArguments name => name ++ "() does not take keyword arguments"
  | unexpectedKeyword name keyword =>
    name ++ "() got an unexpected keyword argument '" ++ keyword ++ "'"
  | badArgument name expected actual =>
    "bad argument to " ++ name ++ "(): expected " ++ expected ++ ", got '" ++ actual ++ "'"
  | invalidLiteral base text =>
    "invalid literal for int() with base " ++ toString base ++ ": '" ++ text ++ "'"
  | invalidValue reason => reason
  | nameNotDefined name => "cannot find '" ++ name ++ "' in symbol table"
  | slotNotDefined index => "name at slot " ++ toString index ++ " is not defined"
  | keyNotFound key => "cannot find " ++ key ++ " in dict"
  | unknownAttribute type name =>
    "'" ++ type ++ "' object has no attribute '" ++ name ++ "'"
  | notInContainer container item => item ++ " is not in " ++ container
  | indexOutOfRange type => type ++ " index out of range"
  | emptyCollection what => what ++ " is empty"
  | iteratorExhausted => "iterator is exhausted"
  | divisionByZero => "integer division or modulo by zero"
  | integerOverflow operation => "integer overflow in " ++ operation
  | negativeShift => "negative shift count"
  | negativeExponent => "negative exponent needs floats"
  | fileNotFound path => "cannot open file '" ++ path ++ "'"
  | inputOutput reason => "i/o error: " ++ reason
  | fileClosed => "I/O operation on closed file"
  | badObjectSize size => "bad obj size " ++ toString size
  | arenaLayout reason => "bad arena layout: " ++ reason

end Diagnostic

end ObjectSpace

import ObjectSpace.Encoding
import ObjectSpace.Functions

/-!
# Built-in types as functions

Calling a built-in type makes a value of it: `int("12")`, `list(it)`, `range(1, 5)`. Types that a
program has no constructor for are refused.
-/

namespace ObjectSpace

/-- Refuse a number of arguments outside the bounds. -/
def checkCount (name : String) (least most : Nat) (args : List Handle) : Except Diagnostic Unit :=
  if args.length < least ∨ most < args.length then
    .error (.argumentCount name least most args.length)
  else .ok ()

namespace Space

/-- What the optional argument of a container type gives. -/
def contents (args : List Handle) : Action (Array Handle) := do
  match args with
  | v :: _ => collect v
  | [] => return #[]

/-- The integer that `int` makes of its arguments. -/
def integerOf (args : List Handle) : Action Int64 := do
  checkCount "int" 0 2 args
  match args with
  | [] => return 0
  | [v] =>
    match ← Heap.get v with
    | .str s _ => Numeral.parse 10 s
    | o =>
      match o.asInt? with
      | some n => return n
      | none => Heap.badArgument "int" "int or str" v
  | [v, base] =>
    let base ← Heap.expectInt base "int"
    if base < 2 ∨ 36 < base then fatal (.invalidValue "int() base must be >= 2 and <= 36")
    Numeral.parse base.toInt.toNat (← Heap.expectStr v "int")
  | _ => violate (.unreachable "arity checked")

/-- The byte that an element of an iterable stands for. -/
def byteOf (v : Handle) : Query UInt8 := do
  match ← Heap.asInt? v with
  | some n =>
    if 0 ≤ n ∧ n ≤ 255 then return UInt8.ofNat n.toInt.toNat
    else fatal (.invalidValue "bytes must be in range(0, 256)")
  | none => Heap.badArgument "bytes" "int" v

/-- The bytes that `bytes` makes of its arguments. -/
def bytesOf (args : List Handle) : Action (Array UInt8) := do
  checkCount "bytes" 0 2 args
  match args with
  | [] => return #[]
  | [v] =>
    match ← Heap.get v with
    | .bytes bs => return bs
    | .int n =>
      if n < 0 then fatal (.invalidValue "negative count")
      if sequenceLimit < n.toInt.toNat then fatal (.invalidValue "bytes count is too large")
      return Array.replicate n.toInt.toNat 0
    | .str .. => fatal (.invalidValue "string argument without an encoding")
    | _ => (← collect v).mapM fun item => byteOf item
  | [v, encoding] =>
    let encoding ← Encoding.ofName (← Heap.expectStr encoding "bytes")
    encoding.encode (← Heap.expectStr v "bytes")
  | _ => violate (.unreachable "arity checked")

/-- The range of one, two or three integers: the stop; start and stop; or start, stop and step. -/
def rangeOf (args : List Handle) : Action Handle := do
  checkCount "range" 1 3 args
  match ← args.mapM fun v => Heap.expectInt v "range" with
  | [stop] => newRange 0 stop 1
  | [start, stop] => newRange start stop 1
  | [start, stop, step] => newRange start stop step
  | _ => fatal (.argumentCount "range" 1 3 args.length)

/-- An iterator that numbers the elements of an iterable. -/
def enumerateOf (args : List Handle) : Action Handle := do
  checkCount "enumerate" 1 2 args
  match args with
  | v :: rest =>
    let count ← rest.head?.mapM fun n => Heap.expectInt n "enumerate"
    let inner ← iter v
    alloc (.iter (.enumerate inner (count.getD 0)))
  | [] => violate (.unreachable "arity checked")

/-- An iterator over the pairs of two iterables. -/
def zipOf (args : List Handle) : Action Handle := do
  let (a, b) ← twoArguments "zip" args
  let left ← iter a
  let right ← iter b
  alloc (.iter (.zip left right))

/-- Call a built-in type. -/
def construct (k : Kind) (args : List Handle) (kwargs : Option Handle) : Action Handle := do
  if kwargs.isSome then fatal (.noKeywordArguments k.name)
  match k with
  | .bool =>
    checkCount k.name 0 1 args
    match args with
    | v :: _ => boolean (← Heap.truthy v)
    | [] => boolean false
  | .int => newInt (← integerOf args)
  | .str =>
    checkCount k.name 0 1 args
    match args with
    | v :: _ => newStr (← Heap.str v)
    | [] => newStr ""
  | .bytes => newBytes (← bytesOf args)
  | .list =>
    checkCount k.name 0 1 args
    newList (← contents args)
  | .tuple =>
    checkCount k.name 0 1 args
    newTuple (← contents args)
  | .set =>
    checkCount k.name 0 1 args
    newSet (← contents args).toList
  | .dict =>
    checkCount k.name 0 1 args
    let d ← alloc (.dict .empty)
    match args with
    | source :: _ => dictUpdate d source
    | [] => pure ()
    return d
  | .range => rangeOf args
  | .enumerate => enumerateOf args
  | .reversed => reversed (← oneArgument k.name args)
  | .zip => zipOf args
  | .type => typeOf (← oneArgument k.name args)
  | _ => fatal (.invalidValue ("cannot create '" ++ k.name ++ "' instances"))

end Space

end ObjectSpace

import ObjectSpace.Arithmetic
import ObjectSpace.Attributes

/-!
# Built-in functions

What each built-in function does with its positional arguments and, for `print`, its keywords.
-/

namespace ObjectSpace

/-- The one argument of a call. -/
def oneArgument (name : String) : List Handle → Except Diagnostic Handle
  | [a] => .ok a
  | args => .error (.argumentCount name 1 1 args.length)

/-- The two arguments of a call. -/
def twoArguments (name : String) : List Handle → Except Diagnostic (Handle × Handle)
  | [a, b] => .ok (a, b)
  | args => .error (.argumentCount name 2 2 args.length)

/-- A required and an optional argument of a call. -/
def oneOrTwoArguments (name : String) : List Handle → Except Diagnostic (Handle × Option Handle)
  | [a] => .ok (a, none)
  | [a, b] => .ok (a, some b)
  | args => .error (.argumentCount name 1 2 args.length)

/-- How a file is to be opened. -/
inductive Access where
  | read | write | append
  deriving DecidableEq

/-- The access and whether the file is binary, for a mode. -/
def Access.ofMode? : String → Option (Access × Bool)
  | "r" | "rt" => some (read, false)
  | "rb" => some (read, true)
  | "w" | "wt" => some (write, false)
  | "wb" => some (write, true)
  | "a" | "at" => some (append, false)
  | "ab" => some (append, true)
  | _ => none

/-- The diagnostic for a path that cannot be opened. -/
def PathFault.diagnostic (path : String) : PathFault → Diagnostic
  | notFound => .fileNotFound path
  | fault => .inputOutput (path ++ ": " ++ fault.reason)

/-- The character with a code, unless there is none. -/
def charOfCode? (n : Int64) : Option Char :=
  if h : 0 ≤ n ∧ n.toInt.toNat.isValidChar then some (Char.ofNatAux n.toInt.toNat h.2) else none

namespace Heap

/-- The value of a keyword argument. -/
def keyword? (kwargs : Option Handle) (name : String) : Query (Option Handle) := do
  match kwargs with
  | none => return none
  | some kw =>
    let entry ← (← dict kw).toList.findM? fun (k, _) => return (← asStr? k) == some name
    return entry.map (·.2)

/-- The code of a text of one character or of a single byte. -/
def codeOf (v : Handle) : Query Int64 := do
  let code? ←
    match ← get v with
    | .str s _ =>
      match s.toList with
      | [c] => pure (some (Int64.ofNat c.toNat))
      | _ => pure none
    | .bytes bs => pure (if bs.size = 1 then some (Int64.ofNat (bs.getD 0 0).toNat) else none)
    | _ => badArgument "ord" "str" v
  match code? with
  | some code => return code
  | none => fatal (.invalidValue "ord() expected a character")

/-- How many elements a value has. -/
def length (v : Handle) : Query Nat := do
  match ← get v with
  | .str s _ => return s.length
  | .bytes bs => return bs.size
  | .list items | .tuple items => return items.size
  | .dict t => return t.size
  | .set t => return t.size
  | .range p => return p.length
  | .view d _ => return (← dict d).size
  | _ => unimplemented "len" v

end Heap

namespace Space

/-- What `max` and `min` choose from: the elements of a single argument, or the arguments. -/
def candidates (name : String) (args : List Handle) : Action (Handle × List Handle) := do
  let items ←
    match args with
    | [] => fatal (.argumentCount name 1 countLimit 0)
    | [single] => pure (← collect single).toList
    | many => pure many
  match items with
  | [] => fatal (.emptyCollection (name ++ "() argument"))
  | first :: rest => return (first, rest)

/-- Whether a value is an instance of a class, or of one of a tuple of classes nested at most the
given depth. Booleans are integers. -/
def instanceOfWithin : Nat → Handle → Handle → Action Bool
  | 0, _, cls => violate (.endless cls)
  | n + 1, v, cls => do
    match ← Heap.get cls with
    | .type .int => return (← Heap.asInt? v).isSome
    | .type _ | .userClass .. => return (← typeOf v) = cls
    | .tuple classes => classes.toList.anyM fun c => instanceOfWithin n v c
    | _ => Heap.badArgument "isinstance" "type" cls

/-- The text of an optional keyword argument of `print`. -/
def printOption (kwargs : Option Handle) (name default : String) : Action String := do
  match ← Heap.keyword? kwargs name with
  | some v => if ← isNone v then return default else Heap.expectStr v "print"
  | none => return default

/-- Write the text forms of values in one piece. -/
def print (args : List Handle) (kwargs : Option Handle) : Action Handle := do
  let sep ← printOption kwargs "sep" " "
  let ending ← printOption kwargs "end" "\n"
  let texts ← args.mapM fun v => Heap.str v
  write (sep.intercalate texts ++ ending)
  nothing

/-- Open a file. -/
def openFile (path mode : String) : Action Handle := do
  match Access.ofMode? mode with
  | none => fatal (.invalidValue ("invalid mode: '" ++ mode ++ "'"))
  | some (access, binary) =>
    let disk := (← get).disk
    let opened : Except PathFault (Stream × Disk) :=
      match access with
      | .read => (disk.openForReading path).map fun place => (.reader { place }, disk)
      | .write =>
        (disk.openForWriting path true).map fun (place, disk) =>
          (.writer { place, offset := some 0 }, disk)
      | .append =>
        (disk.openForWriting path false).map fun (place, disk) =>
          (.writer { place, offset := none }, disk)
    match opened with
    | .error fault => fatal (fault.diagnostic path)
    | .ok (stream, disk) =>
      changeDisk fun _ => ((), disk)
      alloc (.file { path, binary, stream })

/-- Run a built-in function. -/
def runBuiltin (f : Builtin) (args : List Handle) (kwargs : Option Handle) : Action Handle := do
  match f with
  | .abs =>
    let v ← oneArgument f.name args
    match ← Heap.asInt? v with
    | some n => newInt (← Integer.abs n)
    | none => Heap.unimplemented f.name v
  | .all =>
    let items ← collect (← oneArgument f.name args)
    boolean (← items.toList.allM fun v => Heap.truthy v)
  | .any =>
    let items ← collect (← oneArgument f.name args)
    boolean (← items.toList.anyM fun v => Heap.truthy v)
  | .chr =>
    let v ← oneArgument f.name args
    match charOfCode? (← Heap.expectInt v f.name) with
    | some c => newStr c.toString
    | none => fatal (.invalidValue "chr() arg not in range(0x110000)")
  | .hash => newInt (← Heap.hash (← oneArgument f.name args)).toInt64
  | .isinstance =>
    let (v, cls) ← twoArguments f.name args
    boolean (← instanceOfWithin (← Heap.depth) v cls)
  | .iter => iter (← oneArgument f.name args)
  | .len =>
    let v ← oneArgument f.name args
    newCount f.name (← Heap.length v)
  | .max =>
    let (first, rest) ← candidates f.name args
    Heap.best (fun x b => Heap.lessThan b x) first rest
  | .min =>
    let (first, rest) ← candidates f.name args
    Heap.best Heap.lessThan first rest
  | .next =>
    let (it, default?) ← oneOrTwoArguments f.name args
    match ← next it, default? with
    | some v, _ => return v
    | none, some v => return v
    | none, none => fatal .iteratorExhausted
  | .open =>
    let (path, mode?) ← oneOrTwoArguments f.name args
    let path ← Heap.expectStr path f.name
    let mode ← mode?.mapM fun mode => Heap.expectStr mode f.name
    openFile path (mode.getD "r")
  | .ord => newInt (← Heap.codeOf (← oneArgument f.name args))
  | .print => print args kwargs
  | .repr => newStr (← Heap.repr (← oneArgument f.name args))
  | .sorted =>
    let items ← collect (← oneArgument f.name args)
    newList (← Heap.sort items.toList).toArray
  | .arguments =>
    let positional ← newTuple args.toArray
    let keywords ← nothing
    newTuple #[positional, kwargs.getD keywords]

end Space

end ObjectSpace

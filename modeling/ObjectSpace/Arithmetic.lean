import ObjectSpace.Containers

/-!
# Operators

Binary and unary operators on values. Integers and Booleans follow `Integer.binary?`; texts, bytes,
lists and tuples can be joined to their like and repeated; a text can be filled as a format; sets
have union, intersection and the two differences. Any other combination is an error that names the
operator and both types. An operator never changes an operand: its result is a new value or one of
the Booleans.
-/

namespace ObjectSpace

/-- The largest memory a repetition may take, in bytes. -/
def sequenceLimit : Nat := Nat.pow 2 32

/-- The size of a handle in a list or tuple, in bytes. -/
def handleBytes : Nat := 12

/-- The greatest count of elements that a machine word can hold. -/
def countLimit : Nat := Nat.pow 2 64 - 1

/-- The length of a repetition: `length` elements of `size` bytes, `n` times. Beyond a machine word
it is an overflow, beyond the memory limit it is refused. -/
def repeatedLength (length size : Nat) (n : Int64) : Except Diagnostic Nat :=
  let total := length * n.toInt.toNat
  if countLimit < total then .error (.integerOverflow "mul")
  else if sequenceLimit < total * size then .error (.invalidValue "repeated sequence is too large")
  else .ok total

/-- `n` copies of a sequence one after the other; none for a negative `n`. -/
def repeatArray {α : Type} (items : Array α) (size : Nat) (n : Int64) :
    Except Diagnostic (Array α) := do
  let _ ← repeatedLength items.size size n
  return if items.isEmpty then #[] else (Array.replicate n.toInt.toNat items).flatten

/-- `n` copies of a text one after the other. -/
def repeatText (s : String) (n : Int64) : Except Diagnostic String := do
  let _ ← repeatedLength s.utf8ByteSize 1 n
  return if s.isEmpty then "" else String.join (List.replicate n.toInt.toNat s)

/-- The repetition of a sequence object; none for other objects. -/
def Object.repeated? (o : Object) (n : Int64) : Option (Except Diagnostic Object) :=
  match o with
  | .str s _ => some ((repeatText s n).map fun s => .str s none)
  | .bytes bs => some ((repeatArray bs 1 n).map .bytes)
  | .list items => some ((repeatArray items handleBytes n).map .list)
  | .tuple items => some ((repeatArray items handleBytes n).map .tuple)
  | _ => none

/-- The result of joining or repeating sequences; none if the operands are not of that kind. -/
def Object.sequenceBinary? (op : BinaryOp) (x y : Object) : Option (Except Diagnostic Object) :=
  match op with
  | .add =>
    match x, y with
    | .str s _, .str t _ => some (.ok (.str (s ++ t) none))
    | .bytes s, .bytes t => some (.ok (.bytes (s ++ t)))
    | .list xs, .list ys => some (.ok (.list (xs ++ ys)))
    | .tuple xs, .tuple ys => some (.ok (.tuple (xs ++ ys)))
    | _, _ => none
  | .mul =>
    match y.asInt?, x.asInt? with
    | some n, _ => x.repeated? n
    | none, some n => y.repeated? n
    | none, none => none
  | _ => none

namespace Heap

/-- The elements of `items` for which a test gives `wanted`. -/
def select (test : Handle → Query Bool) (wanted : Bool) (items : List Handle) :
    Query (List Handle) :=
  items.filterM fun k => return (← test k) == wanted

/-- The members of the result of a set operator; none for operators that sets do not have. -/
def setMembers (op : BinaryOp) (a b : Handle) : Query (Option (List Handle)) := do
  let left := (← set a).toList
  let right := (← set b).toList
  match op with
  | .or => return some (left ++ right)
  | .and => return some (← select (setContains b) true left)
  | .sub => return some (← select (setContains b) false left)
  | .xor =>
    let kept ← select (setContains b) false left
    return some (kept ++ (← select (setContains a) false right))
  | _ => return none

end Heap

namespace Space

/-- A binary operator on the integers `i` and `j` that `a` and `b` stand for. -/
def integerBinary (op : BinaryOp) (a b : Handle) (i j : Int64) (bothBool : Bool) :
    Action Handle := do
  match Integer.binary? op i j with
  | none => Heap.unsupported op.name a b
  | some result =>
    let n ← result
    if bothBool && (op = .and || op = .or || op = .xor) then boolean (n ≠ 0) else newInt n

/-- Whether an object is a Boolean. -/
def isBool : Object → Bool
  | .bool _ => true
  | _ => false

/-- A binary operator. -/
def binary (op : BinaryOp) (a b : Handle) : Action Handle := do
  let x ← Heap.get a
  let y ← Heap.get b
  match x.asInt?, y.asInt? with
  | some i, some j => integerBinary op a b i j (isBool x && isBool y)
  | _, _ =>
    match Object.sequenceBinary? op x y with
    | some result => alloc (← result)
    | none =>
      match op, x, y with
      | .mod, .str format _, _ => newStr (← Heap.percentFormat format b)
      | op, .set _, .set _ =>
        match ← Heap.setMembers op a b with
        | some members => newSet members
        | none => Heap.unsupported op.name a b
      | op, _, _ => Heap.unsupported op.name a b

/-- A unary operator. -/
def unary (op : UnaryOp) (v : Handle) : Action Handle := do
  match op with
  | .not => boolean !(← Heap.truthy v)
  | op =>
    match ← Heap.asInt? v with
    | none => Heap.unimplemented op.name v
    | some n =>
      match op with
      | .neg => newInt (← Integer.neg n)
      | .invert => newInt (~~~n)
      | .pos | .not => newInt n

/-- A comparison, as one of the Booleans. -/
def compare (op : Comparison) (a b : Handle) : Action Handle := do boolean (← Heap.compares op a b)

/-- The `in` operator, as one of the Booleans. -/
def contains (container item : Handle) : Action Handle := do
  boolean (← Heap.contains container item)

/-- The `not in` operator, as one of the Booleans. -/
def notContains (container item : Handle) : Action Handle := do
  boolean !(← Heap.contains container item)

end Space

end ObjectSpace

import ObjectSpace.Equality
import ObjectSpace.Text.Literal
import ObjectSpace.Text.Numeral

/-!
# Text forms

`repr` writes a value so that the parts of a container can be told apart; `str` differs only for
texts, which it gives as they are. `percentFormat` fills a format with values.

**Containers within themselves.** While a list, tuple, dict, set or view is being written it is
active, and an occurrence of it inside is written as a mark. So the nesting that is written never
repeats a container, and `Heap.depth` bounds it.
-/

namespace ObjectSpace.Heap

/-- The parts one after the other between brackets. -/
def bracketed (opening closing : String) (parts : List String) : String :=
  opening ++ ", ".intercalate parts ++ closing

/-- The name of a function in the text form of a bound method. -/
def functionLabel : Object → String
  | .function _ (.method m) => m.name
  | .function name _ => name
  | _ => "?"

/-- Whether the parts of an object are written out. -/
def isContainer : Object → Bool
  | .list _ | .tuple _ | .dict _ | .set _ | .view .. => true
  | _ => false

/-- The mark for an active container inside itself. -/
def activeMark : Object → String
  | .list _ => "[...]"
  | .tuple _ => "(...)"
  | _ => "\x7b...\x7d"

/-- The text form of a value inside the `active` containers, to a bounded depth. -/
def reprWithin : Nat → List Handle → Handle → Query String
  | 0, _, v => violate (.endless v)
  | n + 1, active, v => do
    let o ← get v
    if isContainer o && active.contains v then return activeMark o
    let part := reprWithin n (v :: active)
    match o with
    | .nothing => return "None"
    | .bool b => return if b then "True" else "False"
    | .int i => return Numeral.decimal i
    | .str s _ => return Literal.ofText s
    | .bytes bs => return Literal.ofBytes bs
    | .list items => return bracketed "[" "]" (← items.toList.mapM part)
    | .tuple items =>
      let closing := if items.size = 1 then ",)" else ")"
      return bracketed "(" closing (← items.toList.mapM part)
    | .dict t =>
      let parts ← t.toList.mapM fun (k, w) => do
        let key ← part k
        return key ++ ": " ++ (← part w)
      return bracketed "\x7b" "\x7d" parts
    | .set t =>
      if t.isEmpty then return "set()"
      return bracketed "\x7b" "\x7d" (← t.toList.mapM part)
    | .view d shown =>
      let parts ← (← dict d).toList.mapM fun (k, w) => do
        match shown with
        | .keys => part k
        | .values => part w
        | .items => return bracketed "(" ")" (← [k, w].mapM part)
      return shown.kind.name ++ bracketed "([" "])" parts
    | .range p =>
      let bounds := [p.start, p.stop] ++ if p.step = 1 then [] else [p.step]
      return "range" ++ bracketed "(" ")" (bounds.map Numeral.decimal)
    | .type k => return "<class '" ++ k.name ++ "'>"
    | .userClass name _ => return "<class '" ++ name ++ "'>"
    | .userInstance .. | .iter _ => return "<" ++ (← typeName v) ++ " object>"
    | .function name (.compiled _) => return "<function " ++ name ++ ">"
    | .function name (.builtin ..) => return "<built-in function " ++ name ++ ">"
    | .function _ (.method m) =>
      return "<method '" ++ m.name ++ "' of '" ++ m.owner.name ++ "' objects>"
    | .boundMethod receiver function =>
      let label := functionLabel (← get function)
      return "<bound method " ++ (← typeName receiver) ++ "." ++ label ++ ">"
    | .file f => return "<file '" ++ f.path ++ "'>"
    | .context _ => return "<context>"

/-- The text form of a value that shows its structure. -/
def repr (v : Handle) : Query String := do reprWithin (← depth) [] v

/-- The text form of a value for reading: a text as it is, anything else as by `repr`. -/
def str (v : Handle) : Query String := do
  match ← get v with
  | .str s _ => return s
  | _ => repr v

/-! ## Formats -/

/-- How a format converts an argument at a `%` and the given character. -/
def conversion? : Char → Option (Handle → Query String)
  | 's' => some str
  | 'r' => some repr
  | 'd' | 'i' => some fun v => return Numeral.decimal (← expectInt v "%d format")
  | 'x' => some fun v => return Numeral.hexadecimal (← expectInt v "%x format")
  | _ => none

/-- Fill the rest of a format after `done`; every argument has to be used. -/
def fill (done : String) : List Char → List Handle → Query String
  | [], [] => return done
  | [], _ :: _ => fatal (.invalidValue "not all arguments converted during string formatting")
  | '%' :: '%' :: rest, args => fill (done.push '%') rest args
  | ['%'], _ => fatal (.invalidValue "incomplete format")
  | '%' :: c :: rest, args =>
    match conversion? c, args with
    | none, _ => fatal (.invalidValue ("unsupported format character '" ++ c.toString ++ "'"))
    | some _, [] => fatal (.invalidValue "not enough arguments for format string")
    | some convert, v :: args => do fill (done ++ (← convert v)) rest args
  | c :: rest, args => fill (done.push c) rest args

/-- A format filled with the elements of a tuple, or with any other value as the only argument. -/
def percentFormat (format : String) (args : Handle) : Query String := do
  match ← get args with
  | .tuple items => fill "" format.toList items.toList
  | _ => fill "" format.toList [args]

end ObjectSpace.Heap

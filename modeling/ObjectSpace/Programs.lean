import ObjectSpace.Collector
import ObjectSpace.Startup

/-!
# Built-in programs

Eight small programs over the operations of a space. Each keeps what it needs later in its module
context, and lets the collector run at the points where nothing else is held. What happens at these
points is a parameter of the programs, their hook; they run with `safePoint` for it.
-/

namespace ObjectSpace

/-- What a program does at the points where the collector may run, given the context it is in. -/
abbrev Hook := Handle → Action Unit

/-- A program: its name, what it shows, the slots of its module context, and what it does in that
context with a hook. -/
structure Program where
  name : String
  about : String
  slots : Nat := 0
  script : Hook → Handle → Action Unit

namespace Program

open Space

/-- Call what a name is bound to. -/
def callName (ctx : Handle) (name : String) (args : List Handle) : Action Handle := do
  let f ← loadName ctx name
  callWith noCode ctx f args

/-- Call a method of a value. -/
def callMethod (code : Code) (ctx receiver : Handle) (name : String) (args : List Handle) :
    Action Handle := do
  let m ← getAttribute receiver name
  callWith code ctx m args

/-- Print values. -/
def printAll (ctx : Handle) (args : List Handle) : Action Unit := do
  let _ ← callName ctx "print" args

/-- Advance the iterator in slot 0 and do `body` with what it gives, within a number of rounds. -/
def eachRound (ctx : Handle) (body : Handle → Action Unit) : Nat → Action Unit
  | 0 => return
  | n + 1 => do
    match ← next (← Heap.load ctx 0) with
    | none => return
    | some v =>
      body v
      eachRound ctx body n

/-- Put an iterator for a value in slot 0 and do `body` with everything it gives. -/
def forEach (ctx iterable : Handle) (body : Handle → Action Unit) : Action Unit := do
  let it ← iter iterable
  store ctx 0 it
  let rounds ← Heap.stepsWithin (← Heap.depth) it
  eachRound ctx body (rounds + 1)

/-- Let the collector run if it is due. -/
def safePoint : Hook := fun ctx => do
  let _ ← collectIfDue ctx none

/-! ## The programs -/

/-- Append to a list and print its length. -/
def lists : Program where
  name := "lists"
  about := "list building and len()"
  script _ ctx := do
    let items ← [1, 2, 3].mapM internInt
    storeName ctx "xs" (← newList items.toArray)
    let xs ← loadName ctx "xs"
    let four ← internInt 4
    let _ ← callMethod noCode ctx xs "append" [four]
    let xs ← loadName ctx "xs"
    let n ← callName ctx "len" [xs]
    printAll ctx [n]

/-- Count the words of a text in a dict and print the counts in order. -/
def words : Program where
  name := "words"
  about := "word counts through a dict"
  slots := 1
  script hook ctx := do
    storeName ctx "counts" (← newDict [])
    let text ← internStr "the cat and the hat and the bat"
    let split ← callMethod noCode ctx text "split" []
    forEach ctx split fun w => do
      storeName ctx "w" w
      let counts ← loadName ctx "counts"
      let zero ← internInt 0
      let current ← callMethod noCode ctx counts "get" [w, zero]
      let one ← internInt 1
      let bumped ← binary .add current one
      setItem counts w bumped
      hook ctx
    let counts ← loadName ctx "counts"
    let items ← callMethod noCode ctx counts "items" []
    let ordered ← callName ctx "sorted" [items]
    let it ← iter ordered
    store ctx 0 it
    let format ← internStr "%s=%d"
    let first ← internInt 0
    let second ← internInt 1
    let rounds ← Heap.stepsWithin (← Heap.depth) it
    eachRound ctx (fun pair => do
      let k ← getItem pair first
      storeName ctx "k" k
      let v ← getItem pair second
      storeName ctx "v" v
      let args ← newTuple #[k, v]
      let line ← binary .mod format args
      printAll ctx [line]
      hook ctx) (rounds + 1)

/-- Look up a key that a dict does not have. -/
def dictMissing : Program where
  name := "dict_missing"
  about := "subscript of an absent key"
  script _ ctx := do
    storeName ctx "d" (← newDict [])
    let d ← loadName ctx "d"
    let a ← internStr "a"
    let one ← internInt 1
    setItem d a one
    let b ← internStr "b"
    let v ← getItem d b
    printAll ctx [v]

/-- Add an integer and a text. -/
def arithError : Program where
  name := "arith_error"
  about := "int + str"
  script _ ctx := do
    let one ← internInt 1
    let a ← internStr "a"
    let sum ← binary .add one a
    printAll ctx [sum]

/-- An argument of code, by place. -/
def argument (args : Array Handle) (i : Nat) : Action Handle :=
  match args[i]? with
  | some v => return v
  | none => violate (.missingArgument i)

/-- `__init__` of the counter: keep the start. -/
def counterInit (f : Frame) : Action Handle := do
  let ctx ← newContext (some f.caller) 2
  let args ← Heap.arguments f.args
  store ctx 0 (← argument args 0)
  store ctx 1 (← argument args 1)
  let this ← Heap.load ctx 0
  let start ← Heap.load ctx 1
  setAttribute this "n" start
  nothing

/-- `bump` of the counter: add one and give the new number. -/
def counterBump (hook : Hook) (f : Frame) : Action Handle := do
  let ctx ← newContext (some f.caller) 1
  let args ← Heap.arguments f.args
  store ctx 0 (← argument args 0)
  let this ← Heap.load ctx 0
  let n ← getAttribute this "n"
  let one ← internInt 1
  let bumped ← binary .add n one
  setAttribute this "n" bumped
  hook ctx
  getAttribute this "n"

/-- The code of the counter class. -/
def counterCode (hook : Hook) : Code
  | 0, f => counterInit f
  | 1, f => counterBump hook f
  | n, _ => violate (.missingCode n)

/-- Make a counter, bump it twice and print it. -/
def classes : Program where
  name := "classes"
  about := "user class with __init__ and a method"
  script hook ctx := do
    let init ← newFunction "__init__" 0
    let bump ← newFunction "bump" 1
    storeName ctx "Counter" (← newClass "Counter" [("__init__", init), ("bump", bump)])
    let cls ← loadName ctx "Counter"
    let ten ← internInt 10
    let c ← callWith (counterCode hook) ctx cls [ten]
    storeName ctx "c" c
    let _ ← callMethod (counterCode hook) ctx c "bump" []
    hook ctx
    let c ← loadName ctx "c"
    let n ← callMethod (counterCode hook) ctx c "bump" []
    let type ← callName ctx "type" [c]
    let name ← getAttribute type "__name__"
    printAll ctx [n, name]

/-- Print the module name and the arguments. -/
def args : Program where
  name := "args"
  about := "module name and command line"
  script _ ctx := do
    let name ← loadName ctx "__name__"
    let argv ← loadName ctx "__args__"
    let argc ← callName ctx "len" [argv]
    let one ← internInt 1
    let rest ← slice argv (some one) none none
    printAll ctx [name, argc, rest]

/-- Write a file and print its words. -/
def files : Program where
  name := "files"
  about := "write a file, read it back"
  script hook ctx := do
    let argv ← loadName ctx "__args__"
    let one ← internInt 1
    let path ← getItem argv one
    storeName ctx "path" path
    let mode ← internStr "w"
    let f ← callName ctx "open" [path, mode]
    storeName ctx "f" f
    ["alpha\n", "beta\n"].forM fun line => do
      let text ← internStr line
      let _ ← callMethod noCode ctx f "write" [text]
    let _ ← callMethod noCode ctx f "close" []
    hook ctx
    let path ← loadName ctx "path"
    let reader ← callName ctx "open" [path]
    let content ← callMethod noCode ctx reader "read" []
    let words ← callMethod noCode ctx content "split" []
    printAll ctx [words]

/-- Make many short-lived values and keep a few. -/
def gcStress : Program where
  name := "gc_stress"
  about := "allocation loop with collection hooks"
  slots := 1
  script hook ctx := do
    storeName ctx "keep" (← newList #[])
    let bound ← internInt 10000
    let range ← callName ctx "range" [bound]
    let it ← iter range
    store ctx 0 it
    let hundred ← internInt 100
    let zero ← internInt 0
    let rounds ← Heap.stepsWithin (← Heap.depth) it
    eachRound ctx (fun i => do
      storeName ctx "i" i
      let s ← callName ctx "str" [i]
      storeName ctx "s" s
      let rem ← binary .mod i hundred
      if ← Heap.equal rem zero then
        let keep ← loadName ctx "keep"
        let _ ← callMethod noCode ctx keep "append" [s]
      hook ctx) (rounds + 1)
    let keep ← loadName ctx "keep"
    let n ← callName ctx "len" [keep]
    let last ← internInt (-1)
    let tail ← getItem keep last
    printAll ctx [n, tail]

/-- The programs that can be run by name. -/
def all : List Program :=
  [lists, words, dictMissing, arithError, classes, args, files, gcStress]

/-- The program of a name. -/
def find? (name : String) : Option Program := all.find? (·.name = name)

/-- Run a program in a context. -/
def run (p : Program) : Handle → Action Unit := p.script safePoint

/-- Set up a module context and run a program in it, with a hook. -/
def executeWith (hook : Hook) (p : Program) (argv : List String) : Action Unit := do
  let ctx ← newContext none p.slots
  initContext ctx argv
  p.script hook ctx

/-- Set up a module context and run a program in it. -/
def execute (p : Program) (argv : List String) : Action Unit := p.executeWith safePoint argv

end Program

end ObjectSpace

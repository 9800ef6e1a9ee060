import ObjectSpace.Methods.Arguments

/-!
# Methods of files
-/

namespace ObjectSpace.Space

/-- Replace the stream of a file. -/
def updateStream (f : Handle) (stream : Stream) : Action Unit := do
  let _ ← Heap.file f
  update f fun
    | .file file => .file { file with stream }
    | o => o

/-- The content of the file that a reader reads. A directory has none: reading at least one byte of
it fails. -/
def contentFor (r : Reader) (limit : Option Nat) : Action (Array UInt8) := do
  match (← get).disk.content? r.place with
  | some content => return content
  | none =>
    if limit = some 0 then return #[]
    else fatal (.inputOutput PathFault.isDirectory.reason)

/-- Bytes that were read, as a value. -/
def newContent (binary : Bool) (bytes : Array UInt8) : Action Handle := do
  if binary then newBytes bytes
  else
    match Utf8.decode bytes with
    | some s => newStr s
    | none =>
      fatal (.inputOutput ("invalid utf-8 at byte " ++ toString (Utf8.validLength bytes)))

/-- Run a method of a file. -/
def fileMethod (method : FileMethod) (f : Handle) (file : File) (args : List Handle) :
    Action Handle := do
  let m := Method.file method
  match method with
  | .read =>
    let limit ← (← m.presentArgument args).mapM fun v => m.expectInt v
    let limit := limit.bind fun n => if n < 0 then none else some n.toInt.toNat
    match file.stream with
    | .reader r =>
      let content ← contentFor r limit
      let (bytes, r) := r.read content limit !file.binary
      updateStream f (.reader r)
      newContent file.binary bytes
    | .writer _ => fatal (.inputOutput "file not open for reading")
    | .closed => fatal .fileClosed
  | .write =>
    let v ← m.oneArgument args
    let data ←
      match ← Heap.get v with
      | .str s _ => pure (Utf8.encode s)
      | .bytes bs => pure bs
      | _ => Heap.badArgument m.qualifiedName "str" v
    match file.stream with
    | .writer w =>
      let w ← changeDisk fun disk => w.write disk data
      updateStream f (.writer w)
      nothing
    | .reader _ => fatal (.inputOutput "file not open for writing")
    | .closed => fatal .fileClosed
  | .close =>
    m.noArgument args
    match file.stream with
    | .writer w => changeDisk fun disk => ((), (w.flush disk).2)
    | _ => pure ()
    updateStream f .closed
    nothing

end ObjectSpace.Space

import ObjectSpace.CommandLine

/-!
# The executable

Brings the files that the arguments name onto the disk of the run, runs the command, writes back
what changed, and passes on output and exit code.
-/

namespace ObjectSpace.Executable

/-- The paths of a file's directories, outermost first. -/
def directoriesOf (path : String) : List String :=
  let parts := Disk.partsOf path
  (List.range parts.length).filterMap fun n =>
    let dir := "/".intercalate (parts.take n)
    if dir = "" then none else some dir

/-- Whether a directory stands at a path. -/
def isDirectory (path : String) : IO Bool :=
  try return ← (← IO.FS.realPath path).isDir catch _ => return false

/-- Add what stands at a path to the disk. -/
def load (disk : Disk) (path : String) : IO Disk := do
  let mut disk := disk
  for dir in directoriesOf path do
    if ← isDirectory dir then disk := disk.makeDirectory dir
  if ← isDirectory path then return disk.makeDirectory path
  try
    let content ← IO.FS.readBinFile path
    return disk.writeFile path content.data
  catch _ => return disk

/-- Write a file back if the run changed it. -/
def save (before after : Disk) (path : String) : IO Unit := do
  match after.fileContent? path with
  | some content =>
    if before.fileContent? path ≠ some content then IO.FS.writeBinFile path ⟨content⟩
  | none => return

end ObjectSpace.Executable

open ObjectSpace Executable in
/-- Run the command with the arguments and the environment of the process. -/
def main (args : List String) : IO UInt32 := do
  let paths := args.drop 1
  let disk ← paths.foldlM load {}
  let outcome := CommandLine.run args (← IO.getEnv "PYC_GC_THRESHOLD") disk
  paths.forM (save disk outcome.disk)
  IO.print outcome.stdout
  IO.eprint outcome.stderr
  return UInt32.ofNat outcome.exitCode

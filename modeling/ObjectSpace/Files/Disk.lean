/-!
# The disk

Files and directories by their place relative to the working directory. A path is cut at slashes;
empty parts and `.` stand for the directory they are in, `..` for the one above. Every part but the
last has to be a directory, and so has the last one when the path ends in a slash, `.` or `..`.

A file that is opened for writing is created if it is missing; a name followed by a slash cannot be
created, whatever stands there. A directory can be opened for reading, but reading it fails.
-/

namespace ObjectSpace

/-- What stands at a place. -/
inductive Node where
  | directory
  | file (content : Array UInt8)

/-- The names that lead from the working directory, or for absolute paths from an empty name, to
the place. Names of `..` stand first: they lead to the directories above the working directory. -/
abbrev Place := List String

/-- The directory above a directory; nothing is above the root of the absolute paths. -/
def Place.above (p : Place) : Place :=
  if p = [""] then p
  else if p.all (· = "..") then p ++ [".."]
  else p.dropLast

/-- Files and directories, apart from the working directory itself. -/
structure Disk where
  nodes : List (Place × Node) := []

/-- Why a path cannot be opened. -/
inductive PathFault where
  | notFound
  | notDirectory
  | isDirectory
  | nameTooLong
  | nulByte
  deriving DecidableEq

/-- The wording of a fault other than a missing file. -/
def PathFault.reason : PathFault → String
  | notFound => "No such file or directory (os error 2)"
  | notDirectory => "Not a directory (os error 20)"
  | isDirectory => "Is a directory (os error 21)"
  | nameTooLong => "File name too long (os error 36)"
  | nulByte => "file name contained an unexpected NUL byte"

namespace Disk

/-- The longest name of a file, in bytes. -/
def nameLimit : Nat := 255

/-- The longest path, in bytes. -/
def pathLimit : Nat := 4095

/-- What stands at a place; the places that paths start from and those above are directories. -/
def node? (d : Disk) (place : Place) : Option Node :=
  if place = [""] ∨ place.all (· = "..") then some .directory else d.nodes.lookup place

/-- Put something at a place. -/
def put (d : Disk) (place : Place) (node : Node) : Disk :=
  ⟨(place, node) :: d.nodes.filter (·.1 ≠ place)⟩

/-- The content of the file at a place. -/
def content? (d : Disk) (place : Place) : Option (Array UInt8) :=
  match d.node? place with
  | some (.file content) => some content
  | _ => none

/-! ## Paths -/

/-- The parts of a path between its slashes. -/
def partsOf (path : String) : List String :=
  (path.toList.splitOn '/').map String.ofList

/-- Where a path starts and the parts to go through from there. -/
structure Route where
  start : Place
  parts : List String
  /-- Whether a slash ends the path. -/
  slash : Bool

/-- Whether the last part is a name and not one of the signs for a directory. -/
def Route.endsInName (r : Route) : Bool :=
  r.parts.getLast?.any fun last => last ≠ "." ∧ last ≠ ".."

/-- Read a path. -/
def Route.ofPath (path : String) : Except PathFault Route := do
  if path.toList.contains (Char.ofNat 0) then throw .nulByte
  if path = "" then throw .notFound
  if pathLimit < path.utf8ByteSize then throw .nameTooLong
  return {
    start := if path.toList.head? = some '/' then [""] else []
    parts := (partsOf path).filter (· ≠ "")
    slash := path.toList.getLast? = some '/' }

/-- Go from a directory through the parts of a path to the place of the last one, which need not
exist. -/
def walk (d : Disk) (here : Place) : List String → Except PathFault Place
  | [] => .ok here
  | part :: rest =>
    match d.node? here with
    | none => .error .notFound
    | some (.file _) => .error .notDirectory
    | some .directory =>
      if part = "." then d.walk here rest
      else if part = ".." then d.walk here.above rest
      else if nameLimit < part.utf8ByteSize then .error .nameTooLong
      else d.walk (here ++ [part]) rest

/-- The place at the end of a route, with what stands there. -/
def locate (d : Disk) (r : Route) : Except PathFault (Place × Option Node) := do
  let place ← d.walk r.start r.parts
  match d.node? place with
  | some (.file content) =>
    if r.slash then throw .notDirectory
    return (place, some (.file content))
  | node => return (place, node)

/-! ## Opening -/

/-- The place of a file or directory that exists. -/
def openForReading (d : Disk) (path : String) : Except PathFault Place := do
  match ← d.locate (← Route.ofPath path) with
  | (_, none) => throw .notFound
  | (place, some _) => return place

/-- The place of a file to write to, which is created or, with `truncate`, emptied. -/
def openForWriting (d : Disk) (path : String) (truncate : Bool) :
    Except PathFault (Place × Disk) := do
  let r ← Route.ofPath path
  if r.slash ∧ r.endsInName then
    -- The directory that the name would be in has to be there.
    let _ ← d.walk r.start (r.parts.dropLast ++ ["."])
    throw .isDirectory
  match ← d.locate r with
  | (_, some .directory) => throw .isDirectory
  | (place, some (.file _)) => return (place, if truncate then d.put place (.file #[]) else d)
  | (place, none) => return (place, d.put place (.file #[]))

/-! ## Content -/

/-- Write bytes over the content from `offset` on; a gap before `offset` is filled with zeros. -/
def overwrite (content : Array UInt8) (offset : Nat) (data : Array UInt8) : Array UInt8 :=
  content.extract 0 offset ++ Array.replicate (offset - content.size) 0 ++ data
    ++ content.extract (offset + data.size) content.size

/-- Write bytes to the file at a place, at `offset` or, without one, at the end. -/
def write (d : Disk) (place : Place) (offset : Option Nat) (data : Array UInt8) : Disk :=
  let content := (d.content? place).getD #[]
  d.put place (.file (overwrite content (offset.getD content.size) data))

/-- Create a directory at a path; nothing changes if the path cannot be reached or is taken. -/
def makeDirectory (d : Disk) (path : String) : Disk :=
  match Route.ofPath path >>= d.locate with
  | .ok (place, none) => d.put place .directory
  | _ => d

/-- Make a file of the given content; nothing changes if the path cannot be written to. -/
def writeFile (d : Disk) (path : String) (data : Array UInt8) : Disk :=
  match d.openForWriting path true with
  | .ok (place, d) => d.write place (some 0) data
  | .error _ => d

/-- The content of the file at a path. -/
def fileContent? (d : Disk) (path : String) : Option (Array UInt8) :=
  match d.openForReading path with
  | .ok place => d.content? place
  | .error _ => none

/-- The files directly in the working directory, by name. -/
def files (d : Disk) : List (String × Array UInt8) :=
  d.nodes.filterMap fun
    | ([name], .file content) => some (name, content)
    | _ => none

end Disk

end ObjectSpace

import ObjectSpace.Programs

/-!
# The command line

The first argument names the program to run, or asks for the list of programs. The outcome is what
goes to the two output streams, the exit code, and the disk afterwards. A program that fails ends
with its diagnostic after its output and with exit code 1; a wrong use of the command line ends
with exit code 2.
-/

namespace ObjectSpace.CommandLine

/-- What a run leaves behind. -/
structure Outcome where
  exitCode : Nat := 0
  stdout : String := ""
  stderr : String := ""
  disk : Disk

/-- How to use the command, with the programs it knows. -/
def usage : String :=
  let line (p : Program) : String :=
    "  " ++ p.name ++ String.ofList (List.replicate (14 - p.name.length) ' ') ++ p.about ++ "\n"
  "Usage: pyc <program> [args]\n\nPrograms:\n" ++ String.join (Program.all.map line)

/-- Run a program with the arguments of the command line. -/
def runProgram (p : Program) (args : List String) (settings : Settings) (disk : Disk) : Outcome :=
  match Space.create settings disk with
  | .error d => { exitCode := 1, stderr := d.message ++ "\n", disk }
  | .ok space =>
    match (p.execute args).run space with
    | .ok _ s => { stdout := s.output, disk := s.disk }
    | .error (.fatal d) s =>
      { exitCode := 1, stdout := s.output ++ d.message ++ "\n", disk := s.disk }
    | .error (.violation v) s =>
      { exitCode := 101, stdout := s.output, stderr := v.message ++ "\n", disk := s.disk }

/-- Run the command. The threshold of the collector is given as text. -/
def run (args : List String) (threshold : Option String) (disk : Disk) : Outcome :=
  match args with
  | [] => { exitCode := 2, stderr := usage, disk }
  | name :: _ =>
    if name = "--list" then
      { stdout := String.join (Program.all.map (·.name ++ "\n")), disk }
    else
      match Program.find? name with
      | none => { exitCode := 2, stderr := "Unknown program: " ++ name ++ "\n" ++ usage, disk }
      | some p => runProgram p args (Settings.ofThreshold threshold) disk

end ObjectSpace.CommandLine

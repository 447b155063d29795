import PartDepot.Command.Log
import PartDepot.Command.Run
import PartDepot.Disk.Change

/-!
# The program

The command at work on real files.  Standard input names what it may see, one absolute path a line;
a path that ends in a slash is a directory, as in

    find "$PWD" "$PARTFETCH_CACHE_DIR" -type d -printf '%p/\n' -o -type f -print | partfetch build

The named files are read, the command runs on the disk that they make, and the changes it made are
carried out.  The program has no way to the network: every request ends as one that nobody answers.
So nothing new is ever stored, and the time of storing, which the clock would tell, is never asked
for.
-/

namespace PartDepot.Program

partial def readLines (input : IO.FS.Stream) (before : Array String) : IO (List String) := do
  let line ← input.getLine
  if line.isEmpty then return before.toList
  let text := if line.endsWith "\n" then (line.dropEnd 1).toString else line
  readLines input (if text.isEmpty then before else before.push text)

def placeOf (path : String) : Place := (Path.mk path).steps.filter (· ≠ ".")

def pathTo (p : Place) : String := "/" ++ "/".intercalate p

def readNode (path : String) : IO (Place × Node) := do
  if path.endsWith "/" then return (placeOf path, .dir)
  return (placeOf path, .file (← IO.FS.readBinFile path))

def readEnvironment : IO Environment :=
  Command.readVariables.filterMapM fun name => return (← IO.getEnv name).map (name, ·)

def readDisk : IO Disk := do
  let here := placeOf (toString (← IO.currentDir))
  return Disk.ofNodes here (← (← readLines (← IO.getStdin) #[]).mapM readNode)

def carryOut : Disk.Change → IO Unit
  | .removeFile p => IO.FS.removeFile (pathTo p)
  | .removeDir p => IO.FS.removeDir (pathTo p)
  | .makeDir p => IO.FS.createDirAll (pathTo p)
  | .writeFile p content => IO.FS.writeBinFile (pathTo p) content

/-- Runs an invocation on the named files; yields the exit status. -/
def run (env : Environment) (i : Command.Invocation) : IO UInt32 := do
  let disk ← readDisk
  let world : World := ⟨disk, false, fun _ => ⟨0, 0⟩, Listing.asStored, []⟩
  let (result, after) := Command.run env Network.unreachable i world
  (Command.records i.verbosity after.journal).forM fun r => IO.eprintln (Command.recordText r)
  (disk.changes after.disk).forM carryOut
  match result with
  | .ok output => do
    IO.print output
    return 0
  | .error failure => do
    IO.eprintln (Command.failureText failure)
    return 1

end PartDepot.Program

open PartDepot in
def main (args : List String) : IO UInt32 := do
  let env ← Program.readEnvironment
  match Command.parse env args with
  | .run invocation => Program.run env invocation
  | .version =>
    IO.println Command.versionText
    return 0
  | .help =>
    IO.println Command.usage
    return 0
  | .rejected =>
    IO.eprintln Command.usage
    return 2

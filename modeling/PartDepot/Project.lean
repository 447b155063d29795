import PartDepot.Manifest

/-!
# Projects on the disk

A project is a directory with a project file.  A user may point at the directory, at the file, at a
design in it, or stand somewhere below; the nearest project on the way up is meant.
-/

namespace PartDepot

structure Project where
  manifest : Manifest
  root : Path
deriving DecidableEq

namespace Project

def fileName : String := "partfetch.yaml"

def stateDir (p : Project) : Path := p.root.join ".partfetch"

def isRoot (d : Disk) (dir : Path) : Bool := d.isFile (dir.join fileName)

/-- The first of a path and those above it for which something holds, `count` of them at most. -/
def firstAbove (holds : Path → Bool) : Nat → Path → Option Path
  | 0, _ => none
  | count + 1, p =>
    if holds p then some p
    else match p.parent? with
      | some above => firstAbove holds count above
      | none => none

/-- The nearest directory with a project file, from a start upwards. Every step up takes a piece off
the path, and one more step may lead to the root. -/
def findRoot (d : Disk) (start : Path) : Except ConfigError Path :=
  match firstAbove (isRoot d) (start.pieces.length + 1) start with
  | some root => .ok root
  | none => .error (.noProject start)

def load (d : Disk) (root : Path) : Except ConfigError Project :=
  let path := root.join fileName
  match d.readText path with
  | .error _ => .error (.manifestRead path)
  | .ok text => (Manifest.parse text path).map (⟨·, root⟩)

def folder (p : Path) : Path := p.parent?.getD ⟨"."⟩

def start (d : Disk) : Option String → Path
  | none => d.workingDirectory
  | some entry =>
    match EntryPoint.parse entry with
    | .address file _ => if (folder file).text.isEmpty then ⟨"."⟩ else folder file
    | .path p => if d.isFile p then folder p else p

def discover (d : Disk) (entry : Option String) : Except ConfigError Project := do
  load d (← findRoot d (start d entry))

end Project

end PartDepot

import PartDepot.Disk.Basic

/-!
# Changing the disk

Each operation answers the disk afterwards and, if it was refused, why.  One that works in several
steps may have carried out some of them when it is refused.
-/

namespace PartDepot.Disk

/-- A disk after an operation, with the reason if it was refused. -/
abbrev Edited := Option Fault × Disk

/-- Puts a file where a path leads, whatever file stands there. -/
def write (d : Disk) (p : Path) (content : ByteArray) : Edited :=
  match d.find true p with
  | .ok (.taken place (.file _)) => (none, d.put place (.file content))
  | .ok (.taken ..) => (some .isDirectory, d)
  | .ok (.free place) => (none, d.put place (.file content))
  | .error f => (some f, d)

/-- Puts a new file in the place of what a path names, as one step. A link is replaced itself. -/
def replace (d : Disk) (p : Path) (content : ByteArray) : Edited :=
  match d.find false p with
  | .ok (.taken _ .dir) => (some .isDirectory, d)
  | .ok (.taken place _) => (none, d.put place (.file content))
  | .ok (.free place) => (none, d.put place (.file content))
  | .error f => (some f, d)

/-- Makes the directories that are missing on a walk from `place`. -/
def makeDirsFrom (d : Disk) (place : Place) : List String → Edited
  | [] => (none, d)
  | name :: rest =>
    match d.walk true linkLimit place [name] with
    | .ok (.taken next .dir) => d.makeDirsFrom next rest
    | .ok (.taken ..) => (some (if rest.isEmpty then .alreadyExists else .notDirectory), d)
    | .ok (.free next) =>
      if next = place ++ [name] then (d.put next .dir).makeDirsFrom next rest
      else (some .alreadyExists, d)
    | .error f => (some f, d)

/-- Makes a directory and all that are missing above it. A link that leads nowhere is in the way. -/
def makeDirs (d : Disk) (p : Path) : Edited :=
  if p.text.isEmpty then (none, d)
  else match d.start p with
    | .ok origin => d.makeDirsFrom origin p.steps
    | .error f => (some f, d)

def freshName (d : Disk) (place : Place) : String :=
  let taken := d.names place
  let candidates := (List.range (taken.length + 1)).map fun n => ".tmp" ++ toString n
  (candidates.find? fun name => !taken.contains name).getD ".tmp"

/-- Makes a directory in another one, under a name that nothing has there. -/
def makeFresh (d : Disk) (dir : Path) : Except Fault (Path × Disk) :=
  match d.find true dir with
  | .ok (.taken place .dir) =>
    let fresh := dir.join (d.freshName place)
    match d.find false fresh with
    | .ok (.free spot) => .ok (fresh, d.put spot .dir)
    | .ok (.taken ..) => .error .alreadyExists
    | .error f => .error f
  | .ok (.taken ..) => .error .notDirectory
  | .ok (.free _) => .error .notFound
  | .error f => .error f

def removeFile (d : Disk) (p : Path) : Edited :=
  match d.find false p with
  | .ok (.taken _ .dir) => (some .isDirectory, d)
  | .ok (.taken place _) => (none, d.erase place)
  | .ok (.free _) => (some .notFound, d)
  | .error f => (some f, d)

/-- Whether the last step of a path is a dot, which can be walked but not removed. -/
def endsInDot (p : Path) : Bool :=
  (p.pieces.filter (!·.isEmpty)).getLast? == some ['.']

/-- Removes a directory with all that is in it; of a link only the link. A directory that is named
by a dot is emptied and then refused. -/
def removeTree (d : Disk) (p : Path) : Edited :=
  match d.find false p with
  | .ok (.taken place .dir) =>
    let emptied := d.eraseBelow place
    if endsInDot p then (some .invalidArgument, emptied) else (none, emptied.erase place)
  | .ok (.taken place (.link _)) => (none, d.erase place)
  | .ok (.taken _ (.file _)) => (some .notDirectory, d)
  | .ok (.free _) => (some .notFound, d)
  | .error f => (some f, d)

/-- The disk with the node at `src`, and all below it, standing at `dst` instead. -/
def move (d : Disk) (src dst : Place) : Disk :=
  let (moved, kept) := d.nodes.partition fun e => src.isPrefixOf e.1
  { d with nodes := kept ++ moved.map fun e => (dst ++ e.1.drop src.length, e.2) }

/-- Gives what a path names another name. What has that name gives way if it is of the same kind, a
directory only if it is empty. -/
def rename (d : Disk) (src dst : Path) : Edited :=
  match d.find false src, d.find false dst with
  | .error f, _ => (some f, d)
  | .ok (.free _), _ => (some .notFound, d)
  | _, .error f => (some f, d)
  | .ok (.taken a _), .ok (.free b) =>
    if a.isPrefixOf b then (some .invalidArgument, d) else (none, d.move a b)
  | .ok (.taken a .dir), .ok (.taken b .dir) =>
    if a = b then (none, d)
    else if a.isPrefixOf b then (some .invalidArgument, d)
    else if (d.names b).isEmpty then (none, (d.erase b).move a b)
    else (some .notEmpty, d)
  | .ok (.taken _ .dir), .ok (.taken ..) => (some .notDirectory, d)
  | .ok (.taken ..), .ok (.taken _ .dir) => (some .isDirectory, d)
  | .ok (.taken a _), .ok (.taken b _) =>
    if a = b then (none, d) else (none, (d.erase b).move a b)

/-- The places below a directory, as paths from there; directories end in a slash. -/
def below (d : Disk) (p : Place) : List String :=
  d.nodes.filterMap fun e =>
    if p.isPrefixOf e.1 && e.1 != p then
      let path := "/".intercalate (e.1.drop p.length)
      some (if e.2.isDir then path ++ "/" else path)
    else none

end PartDepot.Disk

import PartDepot.Disk.Path

/-!
# The disk

Directories, files and symbolic links by their places.  A place is the list of names from the
root of the file system; the root itself is always a directory.  Paths are walked from a
working directory: names are looked up one by one, links are followed, and `.` and `..` mean
what is physically there.

The lemmas say what is found at a place after one entry was put or erased.
-/

namespace PartDepot

/-- The names on the way from the root. -/
abbrev Place := List String

inductive Node where
  | file (content : ByteArray)
  | dir
  | link (target : String)

def Node.isDir : Node → Bool
  | .dir => true
  | _ => false

/-- Why a file operation is refused. -/
inductive Fault where
  | notFound
  | notDirectory
  | isDirectory
  | alreadyExists
  | notEmpty
  | nameTooLong
  | tooManyLinks
  | invalidArgument
  | nulInPath
  | notText
deriving DecidableEq

def Fault.message : Fault → String
  | .notFound => "No such file or directory (os error 2)"
  | .notDirectory => "Not a directory (os error 20)"
  | .isDirectory => "Is a directory (os error 21)"
  | .alreadyExists => "File exists (os error 17)"
  | .notEmpty => "Directory not empty (os error 39)"
  | .nameTooLong => "File name too long (os error 36)"
  | .tooManyLinks => "Too many levels of symbolic links (os error 40)"
  | .invalidArgument => "Invalid argument (os error 22)"
  | .nulInPath => "file name contained an unexpected NUL byte"
  | .notText => "stream did not contain valid UTF-8"

structure Disk where
  /-- What stands at the places below the root, in the order in which directories show it. -/
  nodes : List (Place × Node)
  here : Place

namespace Disk

/-- What stands at a place. -/
def node? (d : Disk) (p : Place) : Option Node :=
  if p = [] then some .dir else d.nodes.lookup p

def put (d : Disk) (p : Place) (n : Node) : Disk :=
  { d with nodes := d.nodes.filter (·.1 ≠ p) ++ [(p, n)] }

def erase (d : Disk) (p : Place) : Disk :=
  { d with nodes := d.nodes.filter (·.1 ≠ p) }

/-- The disk without anything strictly below a place. -/
def eraseBelow (d : Disk) (p : Place) : Disk :=
  { d with nodes := d.nodes.filter fun e => !(p.isPrefixOf e.1) || e.1 = p }

/-- Whether a text can be the name of something in a directory. -/
def isName (s : String) : Bool := !s.isEmpty && s != "." && s != ".." && !s.toList.contains '/'

/-- The names in a directory, in the order of the disk. -/
def names (d : Disk) (p : Place) : List String :=
  d.nodes.filterMap fun e =>
    if e.1 ≠ [] ∧ e.1.dropLast = p then e.1.getLast?.filter isName else none

theorem lookup_filter_ne (l : List (Place × Node)) (p q : Place) :
    (l.filter (·.1 ≠ p)).lookup q = if q = p then none else l.lookup q := by
  induction l with
  | nil => split <;> rfl
  | cons e l ih =>
    obtain ⟨k, n⟩ := e
    by_cases hk : k = p
    · rw [List.filter_cons_of_neg (by simp [hk]), ih, List.lookup_cons]
      split
      · rfl
      · next hq =>
        have hbeq : (q == k) = false := by rw [hk]; simpa using hq
        rw [hbeq]
    · rw [List.filter_cons_of_pos (by simp [hk]), List.lookup_cons, List.lookup_cons, ih]
      by_cases hq : q = k
      · rw [if_neg (by rw [hq]; exact hk)]
        simp [hq, hk]
      · have hbeq : (q == k) = false := by simpa using hq
        simp [hbeq]

theorem lookup_append_singleton (l : List (Place × Node)) (p q : Place) (n : Node) :
    (l ++ [(p, n)]).lookup q = (l.lookup q).or (if q = p then some n else none) := by
  induction l with
  | nil =>
    by_cases h : q = p
    · simp [h]
    · have hbeq : (q == p) = false := by simpa using h
      simp [List.lookup_cons, hbeq, h]
  | cons e l ih =>
    obtain ⟨k, m⟩ := e
    by_cases h : q = k
    · subst h; simp
    · have hbeq : (q == k) = false := by simpa using h
      simpa [List.lookup_cons, hbeq] using ih

theorem node?_put {d : Disk} {p : Place} (hp : p ≠ []) (n : Node) (q : Place) :
    (d.put p n).node? q = if q = p then some n else d.node? q := by
  unfold node? put
  by_cases hq : q = p
  · subst hq
    rw [lookup_append_singleton, lookup_filter_ne]
    simp [hp]
  · rw [lookup_append_singleton, lookup_filter_ne]
    simp [hq]

theorem node?_erase {d : Disk} {p : Place} (hp : p ≠ []) (q : Place) :
    (d.erase p).node? q = if q = p then none else d.node? q := by
  unfold node? erase
  by_cases hq : q = p
  · subst hq
    rw [lookup_filter_ne]
    simp [hp]
  · rw [lookup_filter_ne]
    simp [hq]

/-! ## Walking -/

/-- Where a walk ends: at a node, or at a free name in a directory. -/
inductive Spot where
  | taken (place : Place) (node : Node)
  | free (place : Place)

/-- The longest name of a file, in bytes. -/
def nameLimit : Nat := 255

def linkLimit : Nat := 40

/-- Walks from a directory along names; where to go on at a link that is followed is given. The last
name is followed if it is a link only when `follow` says so. -/
def walkWith (d : Disk) (follow : Bool) (atLink : Place → List String → Except Fault Spot) :
    Place → List String → Except Fault Spot
  | place, [] => .ok (.taken place .dir)
  | place, name :: rest =>
    if name = "." then walkWith d follow atLink place rest
    else if name = ".." then walkWith d follow atLink place.dropLast rest
    else if nameLimit < name.utf8ByteSize then .error .nameTooLong
    else match d.node? (place ++ [name]) with
      | none => if rest.isEmpty then .ok (.free (place ++ [name])) else .error .notFound
      | some (.file content) =>
        if rest.isEmpty then .ok (.taken (place ++ [name]) (.file content))
        else .error .notDirectory
      | some .dir => walkWith d follow atLink (place ++ [name]) rest
      | some (.link target) =>
        if rest.isEmpty && !follow then .ok (.taken (place ++ [name]) (.link target))
        else
          let goal : Path := ⟨target⟩
          atLink (if goal.isAbsolute then [] else place) (goal.steps ++ rest)

/-- Walks from a directory along names, through as many links as allowed. -/
def walk (d : Disk) (follow : Bool) : Nat → Place → List String → Except Fault Spot
  | 0 => d.walkWith follow fun _ _ => .error .tooManyLinks
  | links + 1 => d.walkWith follow (d.walk follow links)

/-- The longest path, in bytes. -/
def pathLimit : Nat := 4095

/-- Where a path starts, if it can name anything. -/
def start (d : Disk) (p : Path) : Except Fault Place :=
  if p.text.toList.contains '\x00' then .error .nulInPath
  else if p.text.isEmpty then .error .notFound
  else if pathLimit < p.text.utf8ByteSize then .error .nameTooLong
  else .ok (if p.isAbsolute then [] else d.here)

/-- Where a path leads. -/
def find (d : Disk) (follow : Bool) (p : Path) : Except Fault Spot := do
  d.walk follow linkLimit (← d.start p) p.steps

/-! ## Questions -/

def isFile (d : Disk) (p : Path) : Bool :=
  match d.find true p with
  | .ok (.taken _ (.file _)) => true
  | _ => false

def isDir (d : Disk) (p : Path) : Bool :=
  match d.find true p with
  | .ok (.taken _ .dir) => true
  | _ => false

def has (d : Disk) (p : Path) : Bool :=
  match d.find true p with
  | .ok (.taken ..) => true
  | _ => false

def read (d : Disk) (p : Path) : Except Fault ByteArray := do
  match ← d.find true p with
  | .taken _ (.file content) => .ok content
  | .taken .. => .error .isDirectory
  | .free _ => .error .notFound

def readText (d : Disk) (p : Path) : Except Fault String := do
  match String.fromUTF8? (← d.read p) with
  | some text => .ok text
  | none => .error .notText

def list (d : Disk) (p : Path) : Except Fault (List String) := do
  match ← d.find true p with
  | .taken place .dir => .ok (d.names place)
  | .taken .. => .error .notDirectory
  | .free _ => .error .notFound

def workingDirectory (d : Disk) : Path := ⟨"/" ++ "/".intercalate d.here⟩

end Disk

end PartDepot

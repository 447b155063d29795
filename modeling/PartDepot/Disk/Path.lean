/-!
# Path texts

A path is a text; its parts are separated by slashes.  These operations work on the text
alone and do not look at any file: joining, the part before the last, the last part with its
stem and extension.
-/

namespace PartDepot

structure Path where
  text : String
deriving DecidableEq

namespace Path

def splitSlashes : List Char → List (List Char)
  | [] => [[]]
  | c :: rest =>
    match splitSlashes rest with
    | [] => [[c]]
    | p :: ps => if c = '/' then [] :: p :: ps else (c :: p) :: ps

def joinSlashes : List (List Char) → List Char
  | [] => []
  | [p] => p
  | p :: ps => p ++ '/' :: joinSlashes ps

def pieces (p : Path) : List (List Char) := splitSlashes p.text.toList

def isAbsolute (p : Path) : Bool := p.text.toList.head? == some '/'

/-- The path of `name` seen from `base`; an absolute name stands for itself. -/
def join (base : Path) (name : String) : Path :=
  if name.toList.head? == some '/' then ⟨name⟩
  else if base.text.isEmpty || base.text.toList.getLast? == some '/' then ⟨base.text ++ name⟩
  else ⟨base.text ++ "/" ++ name⟩

/-- Whether a piece of a path is a part of its own: empty pieces are not, and a single dot only at
the very start. -/
def isPart (isFirst : Bool) (piece : List Char) : Bool :=
  !(piece.isEmpty || (piece == ['.'] && !isFirst))

/-- Drops the pieces at the end that are no parts. The pieces come last first. -/
def dropIdle : List (List Char) → List (List Char)
  | [] => []
  | p :: ps => if isPart ps.isEmpty p then p :: ps else dropIdle ps

/-- The path without its last part, for a path that has one. -/
def parent? (p : Path) : Option Path :=
  match dropIdle p.pieces.reverse with
  | [] => none
  | _ :: before =>
    match dropIdle before with
    | [] => some ⟨if p.isAbsolute then "/" else ""⟩
    | kept => some ⟨String.ofList (joinSlashes kept.reverse)⟩

/-- The last part of a path, unless it is a dot or two. -/
def fileName? (p : Path) : Option String :=
  match dropIdle p.pieces.reverse with
  | [] => none
  | last :: _ => if last == ['.'] || last == ['.', '.'] then none else some (String.ofList last)

/-- A file name cut at its last dot: the stem, and the extension if the dot is not at the start. -/
def splitExtension (name : String) : String × Option String :=
  let reversed := name.toList.reverse
  let extension := (reversed.takeWhile (· != '.')).reverse
  match reversed.dropWhile (· != '.') with
  | [] => (name, none)
  | _ :: stem =>
    if stem.isEmpty || name == ".." then (name, none)
    else (String.ofList stem.reverse, some (String.ofList extension))

/-- The steps of a walk along the path. A slash at the end asks for a directory, as a dot does. -/
def steps (p : Path) : List String :=
  let named := (p.pieces.filter (!·.isEmpty)).map String.ofList
  if p.text.toList.getLast? == some '/' then named ++ ["."] else named

end Path

end PartDepot

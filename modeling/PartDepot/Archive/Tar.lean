import PartDepot.Archive.Inflate
import PartDepot.Disk.Edit

/-!
# Archives

Reads the entries of a tar archive and unpacks them into a directory.  Nothing is written outside of
that directory: entries whose path climbs are passed over, and an entry whose directory turns out to
lie elsewhere, through a link, breaks the archive.
-/

namespace PartDepot.Tar

inductive Kind where
  | file (content : ByteArray)
  | dir
  | link (target : String)
  /-- One more name of a file of the archive. -/
  | again (target : String)

structure Entry where
  path : String
  kind : Kind

/-! ## Reading -/

def blockSize : Nat := 512

def fieldBytes (header : List UInt8) (offset width : Nat) : List UInt8 :=
  ((header.drop offset).take width).takeWhile (· != 0)

def fieldText? (header : List UInt8) (offset width : Nat) : Option String :=
  String.fromUTF8? ⟨(fieldBytes header offset width).toArray⟩

def octal? (bytes : List UInt8) : Option Nat :=
  let isSpace (b : UInt8) : Bool := b == 32 || (9 ≤ b && b ≤ 13)
  let digits := ((bytes.dropWhile isSpace).reverse.dropWhile isSpace).reverse
  if digits.isEmpty then none
  else digits.foldl (fun n b => do
    let n ← n
    if 48 ≤ b && b ≤ 55 then some (n * 8 + (b.toNat - 48)) else none) (some 0)

/-- A size: octal, or binary if its first bit is set. -/
def size? (header : List UInt8) : Option Nat :=
  match (header.drop 124).take 12 with
  | first :: rest =>
    if 128 ≤ first then some ((rest.drop 3).foldl (fun n b => n * 256 + b.toNat) 0)
    else octal? (fieldBytes header 124 12)
  | [] => none

/-- The check sum counts the bytes of the header with blanks in its own place. -/
def checks (header : List UInt8) : Bool :=
  let sum (bs : List UInt8) : Nat := bs.foldl (fun n b => n + b.toNat) 0
  octal? (fieldBytes header 148 8)
    == some (sum (header.take 148) + 8 * 32 + sum (header.drop 156))

def isStandard (header : List UInt8) : Bool :=
  (header.drop 257).take 8 == "ustar\x0000".toUTF8.data.toList

/-- The path of a header, in newer archives in two parts. -/
def headerPath? (header : List UInt8) : Option String := do
  let name ← fieldText? header 0 100
  let front ← if isStandard header then fieldText? header 345 155 else some ""
  some (if front.isEmpty then name else front ++ "/" ++ name)

/-- What the entries before one say about it. -/
structure Extras where
  path : Option String := none
  target : Option String := none
  size : Option Nat := none

/-- Records of the form `length key=value`, each on a line. -/
def extraRecords : Nat → List UInt8 → Option (List (String × String))
  | 0, _ => none
  | _, [] => some []
  | fuel + 1, s => do
    let digits := s.takeWhile (· != 32)
    let length ← (String.fromUTF8? ⟨digits.toArray⟩).bind (·.toNat?)
    if length ≤ digits.length + 1 || s.length < length then none
    let record ← String.fromUTF8? ⟨((s.take (length - 1)).drop (digits.length + 1)).toArray⟩
    let key := String.ofList (record.toList.takeWhile (· != '='))
    let value := String.ofList ((record.toList.dropWhile (· != '=')).drop 1)
    (extraRecords fuel (s.drop length)).map ((key, value) :: ·)

def Extras.addRecords (e : Extras) (records : List (String × String)) : Extras :=
  { path := (records.lookup "path").or e.path
    target := (records.lookup "linkpath").or e.target
    size := ((records.lookup "size").bind (·.toNat?)).or e.size }

/-- The entries of an archive, if it is sound up to its end mark. -/
def readEntries (whole : Bool) : Nat → Extras → List UInt8 → Option (List Entry)
  | 0, _, _ => none
  | fuel + 1, extras, data => do
    if data.isEmpty then if whole then some [] else none
    else
      let header := data.take blockSize
      if header.length < blockSize then none
      else if header.all (· == 0) then some []
      else if !checks header then none
      else
        let ownSize ← size? header
        let type := Char.ofNat ((header.drop 156).headD 0).toNat
        let special := type == 'L' || type == 'K' || type == 'x' || type == 'g'
        let size := if special then ownSize else extras.size.getD ownSize
        let body := data.drop blockSize
        let padded := (size + blockSize - 1) / blockSize * blockSize
        if body.length < padded then none
        else
          let content := body.take size
          let next := body.drop padded
          let text := String.fromUTF8? ⟨(content.takeWhile (· != 0)).toArray⟩
          if type == 'L' then readEntries whole fuel { extras with path := some (← text) } next
          else if type == 'K' then
            readEntries whole fuel { extras with target := some (← text) } next
          else if type == 'x' then
            let records ← extraRecords (content.length + 1) content
            readEntries whole fuel (extras.addRecords records) next
          else if type == 'g' then readEntries whole fuel extras next
          else
            let path ← match extras.path with
              | some p => some p
              | none => headerPath? header
            let target ← match extras.target with
              | some t => some t
              | none => fieldText? header 157 100
            let kind ← if type == '1' || type == '2' then
                if target.isEmpty then none
                else some (if type == '1' then Kind.again target else .link target)
              else if type == '5' || (!isStandard header && path.toList.getLast? == some '/') then
                some .dir
              else some (.file ⟨content.toArray⟩)
            (readEntries whole fuel {} next).map (⟨path, kind⟩ :: ·)

/-! ## Unpacking -/

/-- The names of an entry's path below the directory it is unpacked into; none if it climbs. -/
def relative? (path : String) : Option Place :=
  let names := ((Path.mk path).pieces.map String.ofList).filter fun n => n != "" && n != "."
  if names.contains ".." then none else some names

def pathOf (p : Place) : Path := ⟨"/" ++ "/".intercalate p⟩

/-- The place that a path really leads to, if there is a node. -/
def realPlace? (d : Disk) (p : Path) : Option Place :=
  match d.find true p with
  | .ok (.taken place _) => some place
  | _ => none

/-- The disk without what stands in the way of an entry that is no directory. A directory stays
there, and is refused if it is empty. -/
def clear? (d : Disk) (target : Path) : Option Disk :=
  match d.find false target with
  | .ok (.taken place .dir) => if (d.names place).isEmpty then none else some d
  | .ok (.taken place _) => some (d.erase place)
  | _ => some d

/-- Puts an entry at its path, in a directory that is there. -/
def putEntry (root : Place) (d : Disk) (target : Path) : Kind → Option Disk
  | .dir =>
    if d.isDir target then some d
    else match d.makeDirs target with
      | (none, d) => some d
      | (some _, _) => none
  | .file content => do
    match (← clear? d target).replace target content with
    | (none, d) => some d
    | (some _, _) => none
  | .link text => do
    let cleared ← clear? d target
    match cleared.find false target with
    | .ok (.free place) => some (cleared.put place (.link text))
    | _ => none
  | .again text => do
    let source := pathOf (root ++ (← relative? text))
    let real ← realPlace? d source
    if !root.isPrefixOf real then none
    else
      let cleared ← clear? d target
      match d.find false source, cleared.find false target with
      | .ok (.taken _ .dir), _ => none
      | .ok (.taken _ node), .ok (.free place) => some (cleared.put place node)
      | _, _ => none

def unpackEntry (root : Place) (d : Disk) (e : Entry) : Option Disk :=
  match relative? e.path with
  | none | some [] => some d
  | some names => do
    let folder := pathOf (root ++ names.dropLast)
    let (fault, d) := d.makeDirs folder
    if fault.isSome then none
    else
      let real ← realPlace? d folder
      if !root.isPrefixOf real then none
      else putEntry root d (pathOf (root ++ names)) e.kind

/-- Puts the entries under a directory, directories last and the deepest first. -/
def unpackEntries (root : Place) (d : Disk) (entries : List Entry) : Option Disk :=
  let isDir (e : Entry) : Bool := match e.kind with
    | .dir => true
    | _ => false
  let dirs := (entries.filter isDir).mergeSort fun a b => !(a.path < b.path)
  (entries.filter (!isDir ·) ++ dirs).foldlM (unpackEntry root) d

def bareDisk (root : Place) : Disk :=
  { nodes := ((List.range root.length).map fun i => (root.take (i + 1), Node.dir)), here := [] }

/-- What a packed archive unpacks to in an empty directory: the places in it and their nodes. -/
def unpack (root : Place) (file : ByteArray) : Option (List (Place × Node)) := do
  let data := Inflate.gunzip file.data.toList
  let entries ← readEntries data.whole (data.bytes.size + 1) {} data.bytes.toList
  let d ← unpackEntries root (bareDisk root) entries
  some (d.nodes.filter fun e => root.isPrefixOf e.1 && e.1 != root)

end PartDepot.Tar

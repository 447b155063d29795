import PartDepot.Time.Text
import PartDepot.World
import PartDepot.Yaml.Decode
import PartDepot.Yaml.Writer

/-!
# The lock of installed packages

Which packages are installed, at which version, and with which digest.  The lock is kept in a file
of its own, so that it can be told without the network what is missing.
-/

namespace PartDepot

structure InstalledPackage where
  name : String
  version : String
  /-- The digest of the archive, if the catalog gave one. -/
  digest : Option String
  installedAt : String
deriving DecidableEq

structure Lock where
  apiVersion : String
  /-- When the lock was last written. -/
  generated : String
  installed : List InstalledPackage
deriving DecidableEq

namespace Lock

def currentVersion : String := "partfetch.dev/v1"

def empty (time : Timestamp) : Lock := ⟨currentVersion, time.withOffset, []⟩

/-! ## Entries -/

def byName (a b : InstalledPackage) : Bool := !(b.name < a.name)

/-- Records that a package is installed, in the place of what was recorded for its name. -/
def record (l : Lock) (name version : String) (digest : Option String) (time : Timestamp) : Lock :=
  let entry : InstalledPackage := ⟨name, version, digest, time.withOffset⟩
  { l with installed := (l.installed.filter (·.name ≠ name) ++ [entry]).mergeSort byName }

def get? (l : Lock) (name : String) : Option InstalledPackage :=
  l.installed.find? (·.name = name)

def isInstalled (l : Lock) (name version : String) : Bool :=
  (l.get? name).any (·.version = version)

/-! ## The file -/

def decodeEntry (depth : Nat) (n : Yaml.Node) : Yaml.Decode InstalledPackage := do
  let fields ← Yaml.Decode.members depth n
  let name ← Yaml.Decode.required "name" Yaml.Decode.text fields
  let version ← Yaml.Decode.required "version" Yaml.Decode.text fields
  let digest ← Yaml.Decode.withDefault "digest" none Yaml.Decode.optionalText fields
  let installedAt ← Yaml.Decode.required "installedAt" Yaml.Decode.text fields
  return { name, version, digest, installedAt }

def decode (depth : Nat) (n : Yaml.Node) : Yaml.Decode Lock := do
  let fields ← Yaml.Decode.members depth n
  let apiVersion ← Yaml.Decode.required "apiVersion" Yaml.Decode.text fields
  let generated ← Yaml.Decode.required "generated" Yaml.Decode.text fields
  let installed ← Yaml.Decode.required "installed"
    (Yaml.Decode.list (depth - 1) decodeEntry) fields
  return { apiVersion, generated, installed }

def parse (text : String) : Option Lock := Yaml.Decode.run decode text

def entryTree (e : InstalledPackage) : Yaml.Tree :=
  .mapping
    [("name", .text e.name),
     ("version", .text e.version),
     ("digest", match e.digest with
      | some digest => .text digest
      | none => .plain "null"),
     ("installedAt", .text e.installedAt)]

def render (l : Lock) : String :=
  Yaml.renderDocument
    [("apiVersion", .text l.apiVersion),
     ("generated", .text l.generated),
     ("installed", .list (l.installed.map entryTree))]

/-- A lock without packages, made now. -/
def fresh {ε : Type} : Act ε Lock := do return empty (← Act.now)

/-- Reads a lock file; where there is none, nothing is installed. -/
def load (path : Path) : Act Failure Lock := do
  if !(← Act.look (·.disk.has path)) then fresh
  else
    let text ← Act.ask (·.readText path) fun f =>
      .context s!"Failed to read {path.text}" (.refused f)
    match parse text with
    | some l => return l
    | none => Act.fail (.context s!"Failed to parse {path.text}" (.cause "no lock file"))

def save (l : Lock) (path : Path) : Act Failure Unit := do
  match path.parent? with
  | some folder => Act.edit (·.makeDirs folder) .refused
  | none => pure ()
  let time ← Act.now
  let text := { l with generated := time.withOffset }.render
  Act.edit (fun d => d.write path text.toUTF8) fun f =>
    .context s!"Failed to write {path.text}" (.refused f)

end Lock

end PartDepot

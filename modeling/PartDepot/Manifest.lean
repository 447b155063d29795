import PartDepot.Failure
import PartDepot.PartId
import PartDepot.Version
import PartDepot.Yaml.Decode

/-!
# Project manifests

What a project file says: the name of the project, its builds with the parts they need, and the
packages it depends on.  `Manifest.select` finds the targets that a user asks for.
-/

namespace PartDepot

/-- A selected build. -/
structure BuildTarget where
  name : String
  entry : Option String
  parts : List PartId
deriving DecidableEq

structure BuildConfig where
  entry : Option String
  parts : List PartId
deriving DecidableEq

/-- A package at an exact version. -/
structure Dependency where
  name : String
  version : String
deriving DecidableEq

namespace Dependency

def text (d : Dependency) : String := s!"{d.name}@{d.version}"

/-- The order by name, and for one name by the text of the version. -/
def le (a b : Dependency) : Bool :=
  a.name < b.name || (a.name == b.name && !(b.version < a.version))

end Dependency

structure Manifest where
  name : String
  /-- The builds in the order of their names, which are different. -/
  builds : List (String × BuildConfig)
  dependencies : List Dependency
deriving DecidableEq

/-! ## Design addresses -/

/-- A user points at a project by a path, or at a module of a design in a file. -/
inductive EntryPoint where
  | path (path : Path)
  | address (file : Path) (module : String)
deriving DecidableEq

namespace EntryPoint

def designSuffix : List Char := ".ato".toList

/-- A text is an address if a design file stands in front of its last colon and a name behind. -/
def parse (entry : String) : EntryPoint :=
  let reversed := entry.toList.reverse
  let module := (reversed.takeWhile (· != ':')).reverse
  match reversed.dropWhile (· != ':') with
  | [] => .path ⟨entry⟩
  | _ :: file =>
    if designSuffix.reverse.isPrefixOf file && !module.isEmpty then
      .address ⟨String.ofList file.reverse⟩ (String.ofList module)
    else .path ⟨entry⟩

end EntryPoint

namespace Manifest

/-! ## Reading -/

def decodePart (_ : Nat) (n : Yaml.Node) : Yaml.Decode PartId := do
  Yaml.Decode.ofOption (PartId.parse (← Yaml.Decode.text n)).toOption

def decodeBuild (depth : Nat) (n : Yaml.Node) : Yaml.Decode BuildConfig := do
  let fields ← Yaml.Decode.members depth n
  let entry ← Yaml.Decode.withDefault "entry" none Yaml.Decode.optionalText fields
  let parts ← Yaml.Decode.withDefault "parts" []
    (Yaml.Decode.list (depth - 1) decodePart) fields
  return { entry, parts }

def decodeDependency (depth : Nat) (n : Yaml.Node) : Yaml.Decode Dependency := do
  let fields ← Yaml.Decode.members depth n
  let name ← Yaml.Decode.required "name" Yaml.Decode.text fields
  let version ← Yaml.Decode.required "version" Yaml.Decode.text fields
  return { name, version }

def decode (depth : Nat) (n : Yaml.Node) : Yaml.Decode Manifest := do
  let fields ← Yaml.Decode.members depth n
  let name ← Yaml.Decode.required "name" Yaml.Decode.text fields
  let builds ← Yaml.Decode.withDefault "builds" []
    (Yaml.Decode.table (depth - 1) decodeBuild) fields
  let dependencies ← Yaml.Decode.withDefault "dependencies" []
    (Yaml.Decode.list (depth - 1) decodeDependency) fields
  return { name, builds, dependencies }

/-! ## Checking -/

/-- Whether a text can name a package, which becomes the name of a directory. -/
def isPackageName (s : String) : Bool :=
  !s.isEmpty && !PartId.hasSeparator s.toList && !PartId.hasTwoDots s.toList

def dependencyFlaw? (d : Dependency) : Option String :=
  if !isPackageName d.name then some s!"invalid dependency name '{d.name}'"
  else if !Version.isValid d.version then
    some s!"dependency '{d.name}' has invalid version '{d.version}'"
  else none

def flaw? (m : Manifest) : Option String :=
  if Text.allBlank m.name then some "project name is required"
  else m.dependencies.findSome? dependencyFlaw?

def parse (text : String) (path : Path) : Except ConfigError Manifest :=
  match Yaml.Decode.run decode text with
  | none => .error (.manifestParse path)
  | some m =>
    match m.flaw? with
    | some reason => .error (.invalidManifest path reason)
    | none => .ok m

/-! ## Selecting builds -/

def defaultBuild : String := "default"

def build? (m : Manifest) (name : String) : Option BuildConfig := m.builds.lookup name

def target (name : String) (b : BuildConfig) : BuildTarget := ⟨name, b.entry, b.parts⟩

def selectOne (m : Manifest) (name : String) : Except ConfigError BuildTarget :=
  match m.build? name with
  | some b => .ok (target name b)
  | none => .error (.unknownBuild name (", ".intercalate (m.builds.map (·.1))))

/-- The target for a module of a design, which takes the parts of the default build. -/
def adHoc (m : Manifest) (entry module : String) : BuildTarget :=
  ⟨module, some entry, ((m.build? defaultBuild).map (·.parts)).getD []⟩

/-- The targets for an entry and selected builds: for an address the one it names, else the selected
builds in their order, or all builds if none is selected. -/
def select (m : Manifest) (entry : Option String) (selected : List String) :
    Except ConfigError (List BuildTarget) :=
  match entry.map fun e => (e, EntryPoint.parse e) with
  | some (e, .address _ module) => .ok [m.adHoc e module]
  | _ =>
    if selected.isEmpty then .ok (m.builds.map fun (name, b) => target name b)
    else selected.mapM m.selectOne

end Manifest

end PartDepot

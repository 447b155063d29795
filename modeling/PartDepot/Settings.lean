import PartDepot.Failure
import PartDepot.Text.Blank

/-!
# Settings

What the environment says about the offline gate, the catalog and the cache directory.
-/

namespace PartDepot

abbrev Environment := List (String × String)

def offlineVariable : String := "PARTFETCH_OFFLINE"
def apiUrlVariable : String := "PARTFETCH_API_URL"
def cacheDirVariable : String := "PARTFETCH_CACHE_DIR"

def defaultApiUrl : String := "https://components.partfetch.dev"

/-- How long a request may take, in seconds. -/
def requestTimeout : Nat := 30

/-- The truth value of a flag: unset and empty mean no, and case and outer blanks do not count. -/
def parseFlag (key : String) : Option String → Except ConfigError Bool
  | none => .ok false
  | some raw =>
    let word := String.ofList ((Text.trim raw).toList.map Char.toLower)
    if word == "1" || word == "true" || word == "yes" then .ok true
    else if word == "0" || word == "false" || word == "no" || word == "" then .ok false
    else .error (.invalidFlag key raw)

structure Settings where
  offline : Bool
  apiUrl : String
  cacheDir : Path
  timeout : Nat

namespace Settings

/-- The directory for caches of the user: the one the environment names, if its path is absolute,
else the usual one in the home directory. -/
def userCacheDir? (env : Environment) : Option Path :=
  match (env.lookup "XDG_CACHE_HOME").filter fun dir => (Path.mk dir).isAbsolute with
  | some dir => some ⟨dir⟩
  | none => ((env.lookup "HOME").filter fun home => !home.isEmpty).map fun home =>
      (Path.mk home).join ".cache"

def defaultCacheDir (env : Environment) : Except ConfigError Path :=
  match userCacheDir? env with
  | some dir => .ok ((dir.join "partfetch").join "parts")
  | none => .error .noCacheDir

/-- Reads the settings. `user` is the environment that says where the user's files are. -/
def read (env user : Environment) : Except ConfigError Settings := do
  let offline ← parseFlag offlineVariable (env.lookup offlineVariable)
  let given := ((env.lookup apiUrlVariable).map fun url => Text.trimEnd '/' (Text.trim url)).getD ""
  let cacheDir ← match (env.lookup cacheDirVariable).filter fun dir => !Text.allBlank dir with
    | some dir => pure ⟨dir⟩
    | none => defaultCacheDir user
  return { offline
           apiUrl := if given.isEmpty then defaultApiUrl else given
           cacheDir
           timeout := requestTimeout }

end Settings

end PartDepot

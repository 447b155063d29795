import PartDepot.Command.Arguments
import PartDepot.Project
import PartDepot.Text.Table
import PartDepot.Workflow

/-!
# Running the command

Every task reads the settings, sets the gate, and does its work; what it prints and how it fails are
its results.
-/

namespace PartDepot

def ConfigError.failure (e : ConfigError) : Failure :=
  match e with
  | .manifestRead _ => .context e.message (.cause "unreadable")
  | .manifestParse _ => .context e.message (.cause "no manifest")
  | _ => .message e.message

def Halt.fetchFailure : Halt FetchError → Failure
  | .failed e => .context "Failed to fetch parts" (.fetch e)
  | .panicked p => .message p.message

namespace Command

def versionText : String := "partfetch 0.1.0"

def usage : String := "\n".intercalate
  ["Fetch and cache part data so hardware builds can run offline",
   "",
   "Usage: partfetch [OPTIONS] <COMMAND>",
   "",
   "Commands:",
   "  fetch-parts [-b <BUILDS>] [--refresh] [ENTRY]",
   "               Download every part the selected builds need into the cache",
   "  build [-b <BUILDS>] [ENTRY]",
   "               Build the selected targets using the current offline policy",
   "  cache list [--json]",
   "               List the cached parts",
   "  cache clear  Remove every cached part",
   "",
   "Options:",
   "  --log-level <LEVEL>  error, warn, info, debug or trace",
   "  --offline            Never touch the network",
   "  -h, --help           Print help",
   "  -V, --version        Print version"]

/-- The variables of the environment that the command looks at. -/
def readVariables : List String :=
  [offlineVariable, apiUrlVariable, cacheDirVariable, buildVariable, "HOME", "XDG_CACHE_HOME"]

def conclude (r : Report) : Act Failure Unit := do
  if !r.isSuccess then
    Act.log .error s!"{r.failures.length} of {r.attempted} build(s) failed"
  Act.ofExcept r.result

def selection (entry : Option String) (builds : List String) :
    Act Failure (Project × List BuildTarget) := do
  let project ← Act.mapError ConfigError.failure fun w => (Project.discover w.disk entry, w)
  let targets ← Act.mapError ConfigError.failure
    (Act.ofExcept (project.manifest.select entry builds))
  return (project, targets)

/-- What resolves parts from a catalog. -/
def resolver (s : Settings) (catalog : Catalog) (shallRefresh : Freshness) : Resolver :=
  ⟨⟨s.cacheDir, shallRefresh⟩, catalog.fetchPart⟩

/-- Brings everything that the selected builds need into the cache. -/
def fetchParts (s : Settings) (network : Network) (entry : Option String) (builds : List String)
    (refresh : Bool) : Act Failure Unit := do
  let (project, targets) ← selection entry builds
  let catalog := Catalog.ofUrl s.apiUrl network
  let packages : Packages := ⟨project.manifest.dependencies, project.stateDir, catalog⟩
  let work := (resolver s catalog (if refresh then Freshness.always else Freshness.never)).work
  let report ← Act.mapError Halt.fetchFailure
    (Workflow.fetchMissingParts packages.installer targets work)
  conclude report
  Act.log .info "Part fetching complete! All required parts are now cached."
  Act.log .info "You can now build offline by setting PARTFETCH_OFFLINE=1"

/-- Whether offline mode is why some target failed. -/
def isOfflineBlocked (r : Report) : Bool :=
  r.failures.any fun f => f.failure.fetchError?.any FetchError.isOfflineBlock

def build (s : Settings) (network : Network) (entry : Option String) (builds : List String) :
    Act Failure Unit := do
  let (_, targets) ← selection entry builds
  let catalog := Catalog.ofUrl s.apiUrl network
  let report ← Workflow.buildTargets targets (resolver s catalog Freshness.never).work
  if isOfflineBlocked report then
    Act.log .error
      "Some parts are not cached. Run `partfetch fetch-parts` while online first."
  conclude report
  Act.log .info "Build complete"

def cacheTable (artifacts : List CachedArtifact) : String :=
  Text.table ["Part", "Fetched"] (artifacts.map fun a => [a.partId.text, a.fetchedAt.display])

def cacheText (dir : Path) (artifacts : List CachedArtifact) (asJson : Bool) : String :=
  if asJson then Json.renderIndented 0 (.array (artifacts.map CachedArtifact.toJson)) ++ "\n"
  else if artifacts.isEmpty then
    s!"No parts cached in {dir.text}\n\nRun 'partfetch fetch-parts' to populate the cache.\n"
  else
    cacheTable artifacts ++ s!"\n\n{artifacts.length} part(s) in {dir.text}\n"

def listCache (s : Settings) (asJson : Bool) : Act Failure String := do
  let cache : Cache := ⟨s.cacheDir, Freshness.never⟩
  let artifacts ← Act.mapError (fun e => .context "Failed to read the part cache" (.fetch e))
    cache.list
  return cacheText s.cacheDir artifacts asJson

def clearCache (s : Settings) : Act Failure String := do
  let cache : Cache := ⟨s.cacheDir, Freshness.never⟩
  let removed ← Act.mapError (fun e => .context "Failed to clear the part cache" (.fetch e))
    cache.clear
  return s!"Removed {removed} cached part(s)\n"

/-- Does what is to be done; yields what is printed. -/
def perform (s : Settings) (network : Network) : Task → Act Failure String
  | .fetchParts entry builds refresh => do
    fetchParts s network entry builds refresh
    return ""
  | .build entry builds => do
    build s network entry builds
    return ""
  | .listCache asJson => listCache s asJson
  | .clearCache => clearCache s

def run (env : Environment) (network : Network) (i : Invocation) : Act Failure String := do
  let settings ← Act.mapError ConfigError.failure (Act.ofExcept (Settings.read env env))
  Act.change fun w => { w with offline := settings.offline || i.offline }
  perform settings network i.task

end Command

end PartDepot

import PartDepot.Disk.Basic
import PartDepot.PartId

/-!
# Failures

What can go wrong while parts are resolved, fetched or cached, what can go wrong with settings and
projects, and chains of failures with the context they passed through.  Every text that people see
is made here.

The wording of a layer below (the operating system, a decoder) is not part of these texts: in a
chain it is written `<cause>` and ends the chain.
-/

namespace PartDepot

mutual

/-- A failure to resolve, fetch or cache parts. -/
inductive FetchError where
  /-- A request was attempted in offline mode. -/
  | notConfigured (operation : String)
  /-- A part would have to be fetched in offline mode. -/
  | missingArtifact (id : String)
  /-- Parts of one build would have to be fetched in offline mode. -/
  | missingArtifacts (ids : List String)
  | notCached (id : String)
  | invalidPartId (id reason : String)
  | cacheRead (path : Path)
  | cacheWrite (path : Path)
  | cacheParse (path : Path)
  | request (url : String)
  /-- The address of the catalog cannot be extended by a path. -/
  | invalidUrl (url reason : String)
  | status (url : String) (code : Nat)
  /-- The answer was not what was asked for. -/
  | decode (url : String)
  | dependencyInstall (source : Failure)

/-- A failure with the contexts it passed through. -/
inductive Failure where
  | message (text : String)
  /-- A layer below failed, in its own words. -/
  | cause (text : String)
  | fetch (error : FetchError)
  | context (text : String) (inner : Failure)

end

/-- How the words of a layer below are written in a chain. -/
def causeText : String := "<cause>"

def offlineAdvice : String :=
  "\n\nTo download missing parts, run:\n  partfetch fetch-parts\n\nor unset PARTFETCH_OFFLINE."

def quotedList (ids : List String) : String := ", ".intercalate (ids.map fun id => s!"'{id}'")

def FetchError.message : FetchError → String
  | .notConfigured operation =>
    s!"Cannot {operation}: the catalog API is not available because offline mode is active"
  | .missingArtifact id =>
    s!"Part '{id}' is not cached and cannot be fetched because offline mode is active."
      ++ offlineAdvice
  | .missingArtifacts ids =>
    s!"{ids.length} part(s) are not cached and cannot be fetched because offline mode is active: "
      ++ quotedList ids ++ offlineAdvice
  | .notCached id => s!"Part '{id}' is not in the local cache"
  | .invalidPartId id reason => s!"Invalid part identifier '{id}': {reason}"
  | .cacheRead path => s!"Failed to read cached artifact from {path.text}"
  | .cacheWrite path => s!"Failed to write cached artifact to {path.text}"
  | .cacheParse path =>
      s!"Failed to parse cached artifact {path.text} (corrupted or invalid format)"
  | .request url => s!"Catalog request to {url} failed"
  | .invalidUrl url reason => s!"Invalid catalog URL '{url}': {reason}"
  | .status url code => s!"Catalog request failed: HTTP {code} from {url}"
  | .decode url => s!"Failed to decode catalog response from {url}"
  | .dependencyInstall _ => "Failed to install missing dependencies"

/-- Whether offline mode is the reason, and not something that went wrong. -/
def FetchError.isOfflineBlock : FetchError → Bool
  | .notConfigured _ | .missingArtifact _ | .missingArtifacts _ => true
  | _ => false

mutual

def FetchError.chain : FetchError → List String
  | .dependencyInstall source => (FetchError.dependencyInstall source).message :: source.chain
  | .cacheRead p => [(FetchError.cacheRead p).message, causeText]
  | .cacheWrite p => [(FetchError.cacheWrite p).message, causeText]
  | .cacheParse p => [(FetchError.cacheParse p).message, causeText]
  | .request u => [(FetchError.request u).message, causeText]
  | .decode u => [(FetchError.decode u).message, causeText]
  | e => [e.message]

def Failure.chain : Failure → List String
  | .message text => [text]
  | .cause _ => [causeText]
  | .fetch error => error.chain
  | .context text inner => text :: inner.chain

end

namespace Failure

def outermost : Failure → String
  | .message text => text
  | .cause text => text
  | .fetch error => error.message
  | .context text _ => text

def line (f : Failure) : String := ": ".intercalate f.chain

def refused (f : Fault) : Failure := .cause f.message

def fetchError? : Failure → Option FetchError
  | .message _ | .cause _ => none
  | .fetch error => some error
  | .context _ inner => inner.fetchError?

end Failure

def PartId.read (raw : String) : Except FetchError PartId :=
  match PartId.parse raw with
  | .ok id => .ok id
  | .error flaw => .error (.invalidPartId raw flaw.message)

/-- A failure to read settings or to find and read a project. -/
inductive ConfigError where
  | invalidFlag (key value : String)
  | noProject (start : Path)
  | manifestRead (path : Path)
  | manifestParse (path : Path)
  | invalidManifest (path : Path) (reason : String)
  | unknownBuild (name available : String)
  | noCacheDir
deriving DecidableEq

def ConfigError.message : ConfigError → String
  | .invalidFlag key value =>
    s!"Invalid value '{value}' for {key}. Expected one of: 1, true, yes, 0, false, no"
  | .noProject start => s!"No partfetch.yaml found in {start.text} or any parent directory"
  | .manifestRead path => s!"Failed to read project manifest {path.text}"
  | .manifestParse path => s!"Failed to parse project manifest {path.text}"
  | .invalidManifest path reason => s!"Invalid project manifest {path.text}: {reason}"
  | .unknownBuild name available =>
    s!"Build '{name}' is not defined in the project. Available builds: {available}"
  | .noCacheDir => "Could not determine a cache directory. Set PARTFETCH_CACHE_DIR"

/-- How a piece of work panics: with a text or with something else. -/
inductive Panic where
  | text (message : String)
  | other
deriving DecidableEq

def Panic.message : Panic → String
  | .text message => message
  | .other => "unknown panic"

/-- How a piece of work ends without a result. -/
inductive Halt (ε : Type) where
  | failed (error : ε)
  | panicked (panic : Panic)

def Halt.map {ε ε' : Type} (f : ε → ε') : Halt ε → Halt ε'
  | .failed e => .failed (f e)
  | .panicked p => .panicked p

end PartDepot

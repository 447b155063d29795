import PartDepot.Artifact
import PartDepot.World

/-!
# The artifact cache

One file per part in one directory, named for the part.  Only files with such a name are entries;
whatever else lies in the directory is left alone.
-/

namespace PartDepot

structure Cache where
  dir : Path
  shallRefresh : Freshness := Freshness.never

namespace Cache

def extension : String := "yaml"

def entryPath (c : Cache) (id : PartId) : Path := c.dir.join (id.text ++ "." ++ extension)

def has (c : Cache) (d : Disk) (id : PartId) : Bool := d.isFile (c.entryPath id)

def load (c : Cache) (d : Disk) (id : PartId) : Except FetchError CachedArtifact :=
  let path := c.entryPath id
  match d.readText path with
  | .error .notFound => .error (.notCached id.text)
  | .error _ => .error (.cacheRead path)
  | .ok text =>
    match CachedArtifact.parse text with
    | some a => .ok a
    | none => .error (.cacheParse path)

/-- What the cache has for a part. -/
inductive Status where
  | absent
  | unusable (error : FetchError)
  | stale (artifact : CachedArtifact)
  | fresh (artifact : CachedArtifact)

def status (c : Cache) (d : Disk) (id : PartId) : Status :=
  if !c.has d id then .absent
  else match c.load d id with
    | .error e => .unusable e
    | .ok a => if c.shallRefresh a then .stale a else .fresh a

/-- The status of a part; an unusable entry is reported. -/
def check {ε : Type} (c : Cache) (id : PartId) : Act ε Status := do
  let s ← Act.look fun w => c.status w.disk id
  match s with
  | .unusable e => Act.log .warn s!"Ignoring unusable cache entry for {id.text}: {e.message}"
  | _ => pure ()
  return s

def needsRefresh {ε : Type} (c : Cache) (id : PartId) : Act ε Bool := do
  match ← c.check id with
  | .fresh _ => return false
  | _ => return true

/-- Puts the artifact of a part in the place of what the cache had for it. -/
def store (c : Cache) (id : PartId) (a : CachedArtifact) : Act FetchError Unit := do
  let path := c.entryPath id
  let failed (_ : Fault) : FetchError := .cacheWrite path
  Act.edit (·.makeDirs c.dir) failed
  Act.edit (fun d => d.replace path a.render.toUTF8) failed

/-- The part whose entry a file is, by its name. -/
def idOfName? (name : String) : Option PartId :=
  match Path.splitExtension name with
  | (stem, some e) => if e = extension then (PartId.parse stem).toOption else none
  | _ => none

def entryId? (c : Cache) (d : Disk) (name : String) : Option PartId :=
  if d.isFile (c.dir.join name) then idOfName? name else none

/-- The names in the cache directory; none if there is no such directory. -/
def names (c : Cache) : Act FetchError (List String) := fun w =>
  match w.disk.list c.dir with
  | .ok names => (.ok (w.listing.arrange names), w)
  | .error .notFound => (.ok [], w)
  | .error _ => (.error (.cacheRead c.dir), w)

/-- The artifacts of the entries among directory members; an unreadable one is reported. -/
def loadNames (c : Cache) : List String → Act FetchError (List CachedArtifact)
  | [] => return []
  | name :: rest => do
    let found ← Act.look fun w => (c.entryId? w.disk name).map (c.load w.disk)
    match found with
    | none => c.loadNames rest
    | some (.ok a) => return a :: (← c.loadNames rest)
    | some (.error e) =>
      Act.log .warn s!"Skipping cache entry {(c.dir.join name).text}: {e.message}"
      c.loadNames rest

def list (c : Cache) : Act FetchError (List CachedArtifact) := do
  let artifacts ← c.loadNames (← c.names)
  return artifacts.mergeSort fun a b => a.partId.le b.partId

/-- Removes the entries among directory members, and counts them. -/
def clearNames (c : Cache) : List String → Act FetchError Nat
  | [] => return 0
  | name :: rest => do
    let path := c.dir.join name
    if (← Act.look fun w => c.entryId? w.disk name).isSome then
      Act.edit (·.removeFile path) fun _ => .cacheWrite path
      return (← c.clearNames rest) + 1
    else c.clearNames rest

/-- Removes all entries, and counts them. -/
def clear (c : Cache) : Act FetchError Nat := do c.clearNames (← c.names)

end Cache

end PartDepot

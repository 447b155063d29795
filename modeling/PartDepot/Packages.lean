import PartDepot.Archive.Sha256
import PartDepot.Archive.Tar
import PartDepot.Catalog
import PartDepot.Lock
import PartDepot.Manifest

/-!
# The packages of a project

A project's packages are downloaded as archives, checked against their digests, and unpacked
below the state directory; the lock records every one as soon as it is in place.  An archive
is unpacked in a directory of its own next to the others, and only its finished top
directory is moved into place.
-/

namespace PartDepot

structure Packages where
  wanted : List Dependency
  stateDir : Path
  catalog : Catalog

namespace Packages

def modulesDir (p : Packages) : Path := p.stateDir.join "modules"

def lockPath (p : Packages) : Path := p.stateDir.join "lock.yaml"

def installPath (p : Packages) (name : String) : Path := p.modulesDir.join name

/-- What the lock says; one that cannot be read counts as empty. -/
def readLock {ε : Type} (p : Packages) : Act ε Lock := do
  match ← Act.attempt (Lock.load p.lockPath) with
  | .ok lock => return lock
  | .error e =>
    Act.log .warn s!"Ignoring unreadable lock file: {e.line}"
    Lock.fresh

/-- Whether a dependency is recorded in the lock and stands in its place. -/
def isPresent (p : Packages) (d : Disk) (lock : Lock) (dep : Dependency) : Bool :=
  lock.isInstalled dep.name dep.version && d.isDir (p.installPath dep.name)

/-- The dependencies that are not installed, in order and each once. -/
def missingFrom (p : Packages) (d : Disk) (lock : Lock) : List Dependency :=
  ((p.wanted.filter fun dep => !p.isPresent d lock dep).eraseDups).mergeSort Dependency.le

def missing {ε : Type} (p : Packages) : Act ε (List Dependency) := do
  let lock ← p.readLock
  Act.look fun w => p.missingFrom w.disk lock

/-! ## Installing -/

def digestOf (archive : ByteArray) : String := "sha256:" ++ Sha256.hexDigest archive.data.toList

def verify (archive : ByteArray) : Option String → Except Failure Unit
  | none => .ok ()
  | some expected =>
    if digestOf archive = expected then .ok ()
    else .error (.message
      ("Digest verification failed!\nExpected: " ++ expected ++ "\nActual: " ++ digestOf archive))

/-- Runs an action with a new directory next to the packages, which is gone afterwards however the
action ends. -/
def withStaging {α : Type} (p : Packages) (m : Path → Act Failure α) : Act Failure α := fun w =>
  match w.disk.makeFresh p.modulesDir with
  | .error f => (.error (.refused f), w)
  | .ok (staging, d) =>
    let (r, w') := m staging { w with disk := d }
    (r, { w' with disk := (w'.disk.removeTree staging).2 })

def unpack (staging : Path) (archive : ByteArray) : Act Failure Unit := fun w =>
  let failed (why : String) : Failure := .context "Failed to extract package archive" (.cause why)
  match w.disk.find true staging with
  | .ok (.taken place .dir) =>
    match Tar.unpack place archive with
    | some nodes => (.ok (), { w with disk := { w.disk with nodes := w.disk.nodes ++ nodes } })
    | none => (.error (failed "broken archive"), w)
  | .ok _ => (.error (failed Fault.notFound.message), w)
  | .error f => (.error (failed f.message), w)

/-- The first directory in a directory, in the order in which that shows its entries. -/
def firstDirectory? (dir : Path) (w : World) : Option Path :=
  match w.disk.list dir with
  | .ok names => ((w.listing.arrange names).map dir.join).find? w.disk.isDir
  | .error _ => none

/-- Unpacks the archive of a package and moves its top directory into the place of what is installed
under that name. -/
def extract (p : Packages) (name : String) (archive : ByteArray) : Act Failure Path := do
  Act.edit (·.makeDirs p.modulesDir) .refused
  p.withStaging fun staging => do
    unpack staging archive
    match ← Act.look (firstDirectory? staging) with
    | none => Act.fail (.message "No directory found in package archive")
    | some top =>
      let target := p.installPath name
      if ← Act.look (·.disk.has target) then
        Act.edit (·.removeTree target) .refused
      Act.edit (·.rename top target) fun f =>
        .context s!"Failed to install package to {target.text}" (.refused f)
      return target

/-- Downloads, checks and unpacks a package; yields its digest. -/
def install (p : Packages) (dep : Dependency) : Act Failure (Option String) := do
  let release ← Act.mapError .fetch (p.catalog.fetchRelease dep.name dep.version)
  Act.log .info s!"Downloading {dep.text} from {release.url}"
  let archive ← Act.mapError (fun e => .context s!"Failed to download {dep.text}" (.fetch e))
    (p.catalog.download release.url)
  Act.ofExcept (verify archive release.digest)
  let path ← p.extract dep.name archive
  Act.log .info s!"Installed {dep.text} to {path.text}"
  return release.digest

def installAll (p : Packages) : Lock → List Dependency → Act Failure Unit
  | _, [] => return ()
  | lock, dep :: rest => do
    let digest ← Act.mapError (.context s!"Failed to install {dep.text}") (p.install dep)
    let time ← Act.now
    let lock := lock.record dep.name dep.version digest time
    lock.save p.lockPath
    p.installAll lock rest

def installMissing (p : Packages) : Act Failure Unit := do
  let missing ← p.missing
  if missing.isEmpty then return ()
  else p.installAll (← p.readLock) missing

end Packages

end PartDepot

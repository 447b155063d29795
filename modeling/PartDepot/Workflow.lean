import PartDepot.Fanout
import PartDepot.Packages
import PartDepot.Resolver

/-!
# Builds and fetching for them

A build resolves the parts of a target.  Fetching does so with the gate open, after the
packages that are missing were installed; afterwards the gate says what it said before,
however the run ended.
-/

namespace PartDepot

/-- Resolves the parts that a target lists. All blocked parts are reported together. -/
def Resolver.build (r : Resolver) (t : BuildTarget) : Act Failure Unit := do
  let (fetched, blocked) ← Act.mapError .fetch (r.resolveAll t.parts)
  if blocked.isEmpty then
    Act.log .info
      s!"All {t.parts.length} part(s) for '{t.name}' are cached ({fetched} newly fetched)"
  else Act.fail (.fetch (.missingArtifacts blocked))

/-- The build as work on a target. -/
def Resolver.work (r : Resolver) : Work BuildTarget := fun t => Act.mapError .failed (r.build t)

/-- Something that can install what a project depends on. -/
structure Installer where
  /-- What is not installed. Finding out cannot fail, but it may panic. -/
  missing : Act Panic (List Dependency)
  install : Act (Halt Failure) Unit

def Packages.installer (p : Packages) : Installer where
  missing := p.missing
  install := Act.mapError .failed p.installMissing

/-- The result of a run over targets. -/
structure Report where
  attempted : Nat
  /-- The targets that failed, in the order of the run. -/
  failures : List (TargetFailure BuildTarget)

namespace Report

def isSuccess (r : Report) : Bool := r.failures.isEmpty

/-- Success if nothing failed, else one failure that names all. -/
def result (r : Report) : Except Failure Unit := Fanout.result BuildTarget.name r.failures

end Report

namespace Workflow

def buildTargets {ε : Type} (targets : List BuildTarget) (work : Work BuildTarget) :
    Act ε Report := do
  return ⟨targets.length, ← Fanout.run BuildTarget.name work targets⟩

/-- Installs what is missing, if anything is. -/
def prepare (installer : Installer) : Act (Halt FetchError) Unit := do
  let missing ← Act.mapError .panicked installer.missing
  if missing.isEmpty then return ()
  else
    Act.log .info s!"Installing {missing.length} missing dependencies"
    Act.change fun w => w.record (.installing w.offline)
    Act.mapError (Halt.map .dependencyInstall) installer.install

/-- Brings all that the targets need into the cache. The gate is open during the run, and a failure
to install ends it before any target. -/
def fetchMissingParts (installer : Installer) (targets : List BuildTarget)
    (work : Work BuildTarget) : Act (Halt FetchError) Report :=
  Act.withOffline false do
    prepare installer
    Act.log .info "Fetching missing parts..."
    buildTargets targets work

end Workflow

end PartDepot

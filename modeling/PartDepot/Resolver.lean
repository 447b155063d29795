import PartDepot.Cache

/-!
# Resolving parts

Where the data of a part comes from: from the cache if what is there is fresh, whatever the gate
says; else from the source, unless offline mode is active.  What is fetched is stored.
-/

namespace PartDepot

abbrev PartSource := PartId → Act FetchError Json

inductive Resolution where
  | hit (artifact : CachedArtifact)
  | fetched (artifact : CachedArtifact)
  /-- It would have to be fetched, but offline mode is active. -/
  | blocked (id : PartId)

/-- The artifact, if there is one. -/
def Resolution.artifact : Resolution → Except FetchError CachedArtifact
  | .hit a | .fetched a => .ok a
  | .blocked id => .error (.missingArtifact id.text)

/-- Counts a resolution among those of other parts: how many were fetched, and which are blocked. -/
def Resolution.tally : Resolution → Nat × List String → Nat × List String
  | .hit _, others => others
  | .fetched _, others => (others.1 + 1, others.2)
  | .blocked id, others => (others.1, id.text :: others.2)

structure Resolver where
  cache : Cache
  source : PartSource

namespace Resolver

def fetch (r : Resolver) (id : PartId) : Act FetchError Resolution := do
  let payload ← r.source id
  let artifact : CachedArtifact := ⟨id, ← Act.now, payload⟩
  r.cache.store id artifact
  return .fetched artifact

/-- Decides how a part is obtained, and obtains it. -/
def resolve (r : Resolver) (id : PartId) : Act FetchError Resolution := do
  match ← r.cache.check id with
  | .fresh artifact => return .hit artifact
  | _ =>
    if ← Act.look (·.offline) then return .blocked id
    else r.fetch id

def partData (r : Resolver) (id : PartId) : Act FetchError CachedArtifact := do
  Act.ofExcept (← r.resolve id).artifact

/-- Resolves parts one after the other: how many were fetched, and which are blocked. -/
def resolveAll (r : Resolver) : List PartId → Act FetchError (Nat × List String)
  | [] => return (0, [])
  | id :: rest => do
    let first ← r.resolve id
    let others ← r.resolveAll rest
    return first.tally others

theorem resolveAll_cons (r : Resolver) (id : PartId) (rest : List PartId) :
    r.resolveAll (id :: rest) = r.resolve id >>= fun first =>
      r.resolveAll rest >>= fun others => pure (first.tally others) := by rfl

end Resolver

end PartDepot

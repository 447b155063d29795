import PartDepot.Workflow

/-!
# Working with the library step by step

A user sets the gate, takes and drops overrides, calls the catalog, resolves parts, installs
packages and runs builds, in any order.  All of it works on one world, so everything shares
one gate.

A build may do more than resolve the parts of its target.  What it does is written as a script, in
which resolving a part is the one step that can lead to the network.
-/

namespace PartDepot

/-- A call of the catalog. -/
inductive Call where
  | get (path : String)
  | getSegments (segments : List String)
  | post (path : String) (body : Json)
  | download (url : String)
  | fetchPart (id : PartId)

/-- What a call of the catalog yields. -/
inductive Call.Yield where
  | response (response : CatalogResponse)
  | bytes (content : ByteArray)
  | payload (value : Json)

def Call.operation : Call → String
  | .get path => s!"GET {path}"
  | .getSegments segments => "GET /" ++ "/".intercalate segments
  | .post path _ => s!"POST {path}"
  | .download url => s!"download {url}"
  | .fetchPart id => "GET /" ++ "/".intercalate ["v1", "parts", id.text]

def Catalog.call (c : Catalog) : Call → Act FetchError Call.Yield
  | .get path => Call.Yield.response <$> c.get path
  | .getSegments segments => Call.Yield.response <$> c.getSegments segments
  | .post path body => Call.Yield.response <$> c.post path body
  | .download url => Call.Yield.bytes <$> c.download url
  | .fetchPart id => Call.Yield.payload <$> c.fetchPart id

/-- What a build does, step by step. It may look at everything, say something, change files, set the
gate, read the clock and resolve parts, and ends with a result, a failure or a panic. -/
inductive Script where
  | finish (result : Except (Halt Failure) Unit)
  | look (next : World → Script)
  | say (level : LogLevel) (message : String) (next : Script)
  | edit (change : Disk → Disk) (next : Script)
  | setGate (offline : Bool) (next : Script)
  | now (next : Timestamp → Script)
  | resolve (id : PartId) (next : Except FetchError Resolution → Script)

def Script.run (r : Resolver) : Script → Act (Halt Failure) Unit
  | .finish result => Act.ofExcept result
  | .look next => Act.look id >>= fun w => (next w).run r
  | .say level message next => Act.log level message >>= fun _ => next.run r
  | .edit change next =>
    (Act.change fun w => { w with disk := change w.disk }) >>= fun _ => next.run r
  | .setGate offline next => (Act.change fun w => { w with offline }) >>= fun _ => next.run r
  | .now next => Act.now >>= fun time => (next time).run r
  | .resolve id next => Act.attempt (r.resolve id) >>= fun result => (next result).run r

/-- What is done for each target. -/
inductive Pipeline where
  /-- The parts that the target lists are resolved. -/
  | parts
  | scripted (script : BuildTarget → Script)

def Pipeline.work (r : Resolver) : Pipeline → Work BuildTarget
  | .parts => r.work
  | .scripted script => fun t => (script t).run r

/-- The world on a user's desk, with the values that the overrides taken so far bring back; a
dropped override leaves an empty place. -/
structure Desk where
  world : World
  overrides : List (Option Bool)

/-- One thing to do. -/
inductive Step where
  | setGate (offline : Bool)
  | takeOverride (offline : Bool)
  | dropOverride (number : Nat)
  | call (catalog : Catalog) (call : Call)
  | resolve (cache : Cache) (catalog : Catalog) (id : PartId)
  | install (packages : Packages)
  | build (cache : Cache) (catalog : Catalog) (pipeline : Pipeline) (targets : List BuildTarget)
  | fetch (packages : Packages) (cache : Cache) (catalog : Catalog) (pipeline : Pipeline)
    (targets : List BuildTarget)

namespace Desk

/-- The desk after an action, however that ended. -/
def after {ε α : Type} (d : Desk) (m : Act ε α) : Desk := { d with world := (m d.world).2 }

def step (d : Desk) : Step → Desk
  | .setGate offline => { d with world := { d.world with offline } }
  | .takeOverride offline =>
    { world := { d.world with offline }, overrides := d.overrides ++ [some d.world.offline] }
  | .dropOverride number =>
    match d.overrides[number]? with
    | some (some previous) =>
      { world := { d.world with offline := previous }, overrides := d.overrides.set number none }
    | _ => d
  | .call catalog call => d.after (catalog.call call)
  | .resolve cache catalog id => d.after (Resolver.resolve ⟨cache, catalog.fetchPart⟩ id)
  | .install packages => d.after packages.installMissing
  | .build cache catalog pipeline targets =>
    d.after (Workflow.buildTargets targets (pipeline.work ⟨cache, catalog.fetchPart⟩) :
      Act Empty Report)
  | .fetch packages cache catalog pipeline targets =>
    d.after (Workflow.fetchMissingParts packages.installer targets
      (pipeline.work ⟨cache, catalog.fetchPart⟩))

def run (d : Desk) (steps : List Step) : Desk := steps.foldl step d

end Desk

end PartDepot

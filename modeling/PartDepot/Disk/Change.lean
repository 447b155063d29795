import PartDepot.Disk.Basic

/-!
# From one disk to another

A disk can be put together from what stands at some places, and two disks can be compared: the
changes between them lead from the first to the second when they are carried out in order.
-/

namespace PartDepot.Disk

/-- The places above a place, the highest first; the root is not among them. -/
def above (p : Place) : List Place :=
  (List.range (p.length - 1)).map fun n => p.take (n + 1)

/-- The disk with a directory at a place where nothing stands yet. -/
def ensureDir (d : Disk) (p : Place) : Disk :=
  match d.node? p with
  | none => d.put p .dir
  | some _ => d

/-- The disk with a node put at a place, and directories above it. -/
def plant (d : Disk) (p : Place) (n : Node) : Disk :=
  match n with
  | .dir => ((above p).foldl ensureDir d).ensureDir p
  | _ => ((above p).foldl ensureDir d).put p n

def ofNodes (here : Place) (nodes : List (Place × Node)) : Disk :=
  nodes.foldl (fun d e => d.plant e.1 e.2) (ensureDir ⟨[], here⟩ here)

/-- A step on the way from one disk to another. Links are left alone. -/
inductive Change where
  | removeFile (place : Place)
  | removeDir (place : Place)
  | makeDir (place : Place)
  | writeFile (place : Place) (content : ByteArray)

/-- The removal of a node that `after` has no more, or not as a node of its kind. -/
def removal? (after : Disk) (p : Place) : Node → Option Change
  | .file _ =>
    match after.node? p with
    | some (.file _) => none
    | _ => some (.removeFile p)
  | .dir =>
    match after.node? p with
    | some .dir => none
    | _ => some (.removeDir p)
  | .link _ => none

/-- The making of a node that `before` has not, or not with this content. -/
def making? (before : Disk) (p : Place) : Node → Option Change
  | .file content =>
    match before.node? p with
    | some (.file old) =>
      if old.data = content.data then none else some (.writeFile p content)
    | _ => some (.writeFile p content)
  | .dir =>
    match before.node? p with
    | some .dir => none
    | _ => some (.makeDir p)
  | .link _ => none

/-- The changes between two disks: first removals from the deepest place upwards, then what is new
from the highest place downwards. -/
def changes (before after : Disk) : List Change :=
  let byDepth (nodes : List (Place × Node)) : List (Place × Node) :=
    nodes.mergeSort fun a b => a.1.length ≤ b.1.length
  (byDepth before.nodes).reverse.filterMap (fun e => removal? after e.1 e.2)
    ++ (byDepth after.nodes).filterMap fun e => making? before e.1 e.2

end PartDepot.Disk

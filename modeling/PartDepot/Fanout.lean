import PartDepot.World

/-!
# Work on many targets

The same work is done for every target in turn.  A target whose work fails or panics is noted and
the others are still worked on; the caller gets every failure.
-/

namespace PartDepot

abbrev Work (τ : Type) := τ → Act (Halt Failure) Unit

/-- A target with the failure of the work on it. -/
structure TargetFailure (τ : Type) where
  target : τ
  failure : Failure

/-- What is noted about work without a result. -/
def Halt.failure : Halt Failure → Failure
  | .failed e => e
  | .panicked p => .message s!"build panicked: {p.message}"

namespace Fanout

variable {ε τ : Type}

/-- Works on one target; yields the failure if there was one. -/
def runOne (name : String) (work : Act (Halt Failure) Unit) : Act ε (Option Failure) := do
  Act.change fun w => w.record (.began name w.offline)
  Act.log .info s!"Processing build '{name}'"
  let result ← Act.attempt work
  Act.change (·.record (.ended name))
  match result with
  | .ok () => return none
  | .error halt =>
    Act.log .error s!"Build '{name}' failed: {halt.failure.line}"
    return some halt.failure

def run (name : τ → String) (work : Work τ) : List τ → Act ε (List (TargetFailure τ))
  | [] => return []
  | t :: rest => do
    let failure ← runOne (name t) (work t)
    let others ← run name work rest
    return (failure.map (⟨t, ·⟩)).toList ++ others

def combined (name : τ → String) (failures : List (TargetFailure τ)) : String :=
  s!"{failures.length} build target(s) failed:"
    ++ String.join (failures.map fun f => s!"\n  - {name f.target}: {f.failure.line}")

/-- Success if nothing failed, else one failure that names all. -/
def result (name : τ → String) (failures : List (TargetFailure τ)) : Except Failure Unit :=
  if failures.isEmpty then .ok () else .error (.message (combined name failures))

end Fanout

end PartDepot

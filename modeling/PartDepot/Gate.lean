/-!
# Offline gates

A gate says whether the network may be used.  Handles to a gate share its value; an override sets it
until its guard is dropped, which brings back the value from before.
-/

namespace PartDepot

/-- A live override: the gate it stands on and the value it brings back. -/
structure Guard where
  gate : Nat
  previous : Bool
deriving DecidableEq

/-- Gates by number with their values, handles as numbers of gates, and guards by number; a dropped
guard leaves an empty place. -/
structure Gates where
  values : List Bool
  handles : List Nat
  guards : List (Option Guard)
deriving DecidableEq

namespace Gates

def single (offline : Bool) : Gates := ⟨[offline], [0], []⟩

/-- The gate of a handle; handles are counted around. -/
def gateOf (g : Gates) (handle : Nat) : Nat := (g.handles[handle % g.handles.length]?).getD 0

def value (g : Gates) (gate : Nat) : Bool := (g.values[gate]?).getD false

def read (g : Gates) (handle : Nat) : Bool := g.value (g.gateOf handle)

def readAll (g : Gates) : List Bool := g.handles.map g.value

def setGate (g : Gates) (gate : Nat) (offline : Bool) : Gates :=
  { g with values := g.values.set gate offline }

def set (g : Gates) (handle : Nat) (offline : Bool) : Gates :=
  g.setGate (g.gateOf handle) offline

def clone (g : Gates) (handle : Nat) : Gates :=
  { g with handles := g.handles ++ [g.gateOf handle] }

/-- One more gate, with a handle of its own. -/
def new (g : Gates) (offline : Bool) : Gates :=
  { g with values := g.values ++ [offline], handles := g.handles ++ [g.values.length] }

def override (g : Gates) (handle : Nat) (offline : Bool) : Guard × Gates :=
  let gate := g.gateOf handle
  let guard : Guard := ⟨gate, g.value gate⟩
  (guard, { g.setGate gate offline with guards := g.guards ++ [some guard] })

/-- Drops a guard; answers whether it was alive. -/
def drop (g : Gates) (guard : Nat) : Bool × Gates :=
  match g.guards[guard]? with
  | some (some alive) =>
    (true, { g.setGate alive.gate alive.previous with guards := g.guards.set guard none })
  | _ => (false, g)

/-- An override inside a scope that panics: the guard goes with the scope. -/
def panicScope (g : Gates) (handle : Nat) (offline : Bool) : Gates :=
  let gate := g.gateOf handle
  (g.setGate gate offline).setGate gate (g.value gate)

end Gates

end PartDepot

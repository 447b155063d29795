/-!
# YAML nodes

What a document is before it is read as values of some type: scalars as text, and whether they were
written without quotes, which decides if the text may stand for something other than itself.
-/

namespace PartDepot.Yaml

/-- What may stand in front of a node: the number of its anchor and its tag. -/
structure Props where
  anchor : Option Nat := none
  tag : Option String := none
deriving DecidableEq

inductive Node where
  | scalar (props : Props) (plain : Bool) (text : String)
  | sequence (props : Props) (items : List Node)
  | mapping (props : Props) (entries : List (Node × Node))
  | alias (anchor : Nat)

namespace Node

def empty (props : Props) : Node := .scalar props true ""

def anchor? : Node → Option Nat
  | .scalar p _ _ => p.anchor
  | .sequence p _ => p.anchor
  | .mapping p _ => p.anchor
  | .alias _ => none

/-- The node with this anchor number that starts last among `a` and what stands before it. -/
def orLast (before after : Option Node) : Option Node :=
  match after with
  | some n => some n
  | none => before

mutual

/-- The node with an anchor number; of several the one that starts last. -/
def find (id : Nat) (n : Node) : Option Node :=
  let here := if n.anchor? = some id then some n else none
  match n with
  | .scalar .. | .alias _ => here
  | .sequence _ items => orLast here (findItem id items)
  | .mapping _ entries => orLast here (findEntry id entries)

def findItem (id : Nat) : List Node → Option Node
  | [] => none
  | n :: rest => orLast (find id n) (findItem id rest)

def findEntry (id : Nat) : List (Node × Node) → Option Node
  | [] => none
  | (k, v) :: rest => orLast (orLast (find id k) (find id v)) (findEntry id rest)

end

mutual

/-- The number of marks a document reader meets: one for a leaf, two more for a collection than for
its content. -/
def events : Node → Nat
  | .scalar .. | .alias _ => 1
  | .sequence _ items => 2 + itemEvents items
  | .mapping _ entries => 2 + entryEvents entries

def itemEvents : List Node → Nat
  | [] => 0
  | n :: rest => events n + itemEvents rest

def entryEvents : List (Node × Node) → Nat
  | [] => 0
  | (k, v) :: rest => events k + events v + entryEvents rest

end

end Node

end PartDepot.Yaml

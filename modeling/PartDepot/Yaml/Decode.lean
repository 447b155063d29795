import PartDepot.Yaml.Reader
import PartDepot.Yaml.Resolve
import PartDepot.Json.Value

/-!
# Values from YAML nodes

Readers for the shapes the formats of this library need: texts, optional texts, lists, records,
tables and JSON values.  An alias reads as the node it names.  Two budgets bound the work: how deep
collections nest, and how many aliases are followed.
-/

namespace PartDepot.Yaml

/-- How deep the collections of a document may nest. -/
def maxDepth : Nat := 128

/-- How often an alias may be followed for each mark of the document. -/
def jumpsPerEvent : Nat := 100

/-- A reader of nodes in a document, with the number of aliases that may still be followed. -/
abbrev Decode := ReaderT (Nat → Option Node) (StateT Nat Option)

namespace Decode

def fail {α : Type} : Decode α := fun _ _ => none

/-- The value, or refusal of the document. -/
def ofOption {α : Type} (o : Option α) : Decode α := fun _ jumps => o.map (·, jumps)

/-- The node itself, or the node that an alias names. -/
def target (n : Node) : Decode Node := fun table jumps =>
  match n, jumps with
  | .alias id, jumps + 1 => (table id).map (·, jumps)
  | .alias _, 0 => none
  | n, jumps => some (n, jumps)

/-- The text of a scalar, however it is written. -/
def text (n : Node) : Decode String := do
  match ← target n with
  | .scalar _ _ s => return s
  | _ => fail

/-- A text that may be missing: a plain scalar that stands for nothing is. -/
def optionalText (n : Node) : Decode (Option String) := do
  match ← target n with
  | .scalar p plain s =>
    if !plain then return some s
    else match p.tag with
      | none => return if s.isEmpty || isNullWord s then none else some s
      | some tag =>
        if tag = "tag:yaml.org,2002:null" then (if isNullWord s then return none else fail)
        else return some s
  | _ => fail

/-- The items of a list; nothing at all is the empty list. -/
def items (depth : Nat) (n : Node) : Decode (List Node) := do
  match ← target n with
  | .sequence _ ns => if depth = 0 then fail else return ns
  | .scalar _ true "" => return []
  | _ => fail

/-- The members of a mapping with their keys as texts; nothing at all is the empty mapping. -/
def members (depth : Nat) (n : Node) : Decode (List (String × Node)) := do
  match ← target n with
  | .mapping _ entries =>
    if depth = 0 then fail
    else entries.mapM fun (k, v) => do return (← text k, v)
  | .scalar _ true "" => return []
  | _ => fail

def list {α : Type} (depth : Nat) (item : Nat → Node → Decode α) (n : Node) : Decode (List α) := do
  (← items depth n).mapM (item (depth - 1))

/-- A table from texts to values in key order; of several members with one key the last counts. -/
def table {α : Type} (depth : Nat) (item : Nat → Node → Decode α) (n : Node) :
    Decode (List (String × α)) := do
  let entries ← (← members depth n).mapM fun (k, v) => do return (k, ← item (depth - 1) v)
  return Json.sortFields entries

/-- A field of a record. A key that stands twice is refused. -/
def field? (key : String) (fields : List (String × Node)) : Decode (Option Node) :=
  match fields.filter (·.1 == key) with
  | [] => return none
  | [(_, n)] => return some n
  | _ => fail

def required {α : Type} (key : String) (item : Node → Decode α)
    (fields : List (String × Node)) : Decode α := do
  match ← field? key fields with
  | some n => item n
  | none => fail

def withDefault {α : Type} (key : String) (default : α) (item : Node → Decode α)
    (fields : List (String × Node)) : Decode α := do
  match ← field? key fields with
  | some n => item n
  | none => return default

/-! ## JSON -/

def ofResolved (s : String) : Resolved → Option Json
  | .null => some .null
  | .bool b => some (.bool b)
  | .whole n => some (.number (.whole n))
  | .large => none
  | .fraction x => some (.number (.float x))
  | .notFinite => some .null
  | .text => some (.string s)

/-- The JSON value of a scalar. A tag of the document's own has no JSON value; the standard tags of
truth values, numbers and nothing demand such a text. -/
def ofScalar (tag : Option String) (plain : Bool) (s : String) : Option Json :=
  match tag with
  | none => if plain then ofResolved s (resolve s) else some (.string s)
  | some tag =>
    if tag.startsWith "!" then none
    else if tag = "tag:yaml.org,2002:null" then (if isNullWord s then some .null else none)
    else if tag = "tag:yaml.org,2002:bool" then (boolWord? s).map .bool
    else if tag = "tag:yaml.org,2002:int" then (whole? s).bind (ofResolved s)
    else if tag = "tag:yaml.org,2002:float" then (fraction? s).bind (ofResolved s)
    else some (.string s)

def ownTag (p : Props) : Bool := p.tag.any (·.startsWith "!")

def json : Nat → Node → Decode Json
  | 0, n => do
    match ← target n with
    | .scalar p plain s => ofOption (ofScalar p.tag plain s)
    | _ => fail
  | depth + 1, n => do
    match ← target n with
    | .scalar p plain s => ofOption (ofScalar p.tag plain s)
    | .sequence p ns => if ownTag p then fail else return .array (← ns.mapM (json depth))
    | .mapping p entries =>
      if ownTag p then fail
      else
        let fields ← entries.mapM fun (k, v) => do return (← text k, ← json depth v)
        return Json.ofFields fields
    | .alias _ => fail

def run {α : Type} (d : Nat → Node → Decode α) (content : String) : Option α := do
  let root ← Yaml.parse content
  let (a, _) ← d maxDepth root (fun id => root.find id) (jumpsPerEvent * root.events)
  some a

end Decode

end PartDepot.Yaml

import PartDepot.Number.Binary64

/-!
# JSON values

Objects keep their fields in key order with every key once, which `Json.ofFields` establishes and
`Json.Sorted` states.
-/

namespace PartDepot

/-- Whole numbers of up to 64 bits are exact; every other number is a double. -/
inductive JsonNumber where
  | whole (value : Int)
  | float (value : Binary64)
deriving DecidableEq

inductive Json where
  | null
  | bool (value : Bool)
  | number (value : JsonNumber)
  | string (value : String)
  | array (items : List Json)
  | object (fields : List (String × Json))

namespace Json

/-- The whole numbers that keep their identity: signed or unsigned words of 64 bits. -/
def Exact (n : Int) : Prop := 
  -0x8000_0000_0000_0000 ≤ n ∧ n < 0x1_0000_0000_0000_0000

instance (n : Int) : Decidable (Exact n) := by unfold Exact; infer_instance

/-- Puts a field in its place by key, replacing the field of the same key. -/
def insertField {α : Type} (key : String) (value : α) : List (String × α) → List (String × α)
  | [] => [(key, value)]
  | (k, v) :: rest =>
    if key < k then (key, value) :: (k, v) :: rest
    else if key = k then (key, value) :: rest
    else (k, v) :: insertField key value rest

/-- The fields in key order; of several with one key the last counts. -/
def sortFields {α : Type} (fields : List (String × α)) : List (String × α) :=
  fields.foldl (fun sorted f => insertField f.1 f.2 sorted) []

def ofFields (fields : List (String × Json)) : Json := .object (sortFields fields)

def field? (key : String) : Json → Option Json
  | .object fields => fields.lookup key
  | _ => none

def asString? : Json → Option String
  | .string s => some s
  | _ => none

mutual

/-- Structural equality. -/
def eq : Json → Json → Bool
  | .null, .null => true
  | .bool a, .bool b => a == b
  | .number a, .number b => a == b
  | .string a, .string b => a == b
  | .array a, .array b => eqItems a b
  | .object a, .object b => eqFields a b
  | _, _ => false

def eqItems : List Json → List Json → Bool
  | [], [] => true
  | a :: as, b :: bs => eq a b && eqItems as bs
  | _, _ => false

def eqFields : List (String × Json) → List (String × Json) → Bool
  | [], [] => true
  | (k, a) :: as, (l, b) :: bs => k == l && eq a b && eqFields as bs
  | _, _ => false

end

instance : BEq Json := ⟨eq⟩

end Json

end PartDepot

import PartDepot.Json.Reader

/-!
# Records in JSON

A record is an object of which some members are asked for.  Of the others only the shape is checked:
they may be as deep and as large as they like.
-/

namespace PartDepot.Json

/-- The members of an object up to its closing brace; there is at least one. Those that are not
asked for are left out. -/
def readMembers (asked : List String) :
    Nat → Nat → List Char → Option (List (String × Json) × List Char)
  | 0, _, _ => none
  | fuel + 1, depth, s =>
    match skipSpace s with
    | '"' :: rest => do
      let (key, rest) ← readString .keep rest
      match skipSpace rest with
      | ':' :: rest =>
        let wanted := asked.contains key
        let care := if wanted then .keep else .skip
        let (value, rest) ← readValue care fuel depth (skipSpace rest)
        let here := if wanted then [(key, value)] else []
        match skipSpace rest with
        | '\x7d' :: rest => some (here, rest)
        | ',' :: rest =>
          let (others, rest) ← readMembers asked fuel depth rest
          some (here ++ others, rest)
        | _ => none
      | _ => none
    | _ => none

/-- The members that are asked for, in the order of the text, of the object that a text is. -/
def parseRecord (asked : List String) (text : String) : Option (List (String × Json)) :=
  match skipSpace text.toList with
  | '\x7b' :: rest => do
    let (members, rest) ← match skipSpace rest with
      | '\x7d' :: rest => some ([], rest)
      | rest => readMembers asked (fuelFor rest) (defaultDepth - 1) rest
    if (skipSpace rest).isEmpty then some members else none
  | _ => none

/-- The value of a member, which may stand only once. -/
def member? (key : String) (members : List (String × Json)) : Option (Option Json) :=
  match members.filter (·.1 == key) with
  | [] => some none
  | [(_, v)] => some (some v)
  | _ => none

end PartDepot.Json

import PartDepot.Json.Value
import PartDepot.Number.Shortest
import PartDepot.Text.Hex

/-!
# Writing JSON

The compact form, without any blank, and the indented form with two blanks a level.  Strings escape
the quote, the backslash and the control characters below the space, nothing else.
-/

namespace PartDepot.Json

def escapeChar (c : Char) : List Char :=
  if c = '"' then ['\\', '"']
  else if c = '\\' then ['\\', '\\']
  else if c = '\n' then ['\\', 'n']
  else if c = '\r' then ['\\', 'r']
  else if c = '\t' then ['\\', 't']
  else if c = '\x08' then ['\\', 'b']
  else if c = '\x0c' then ['\\', 'f']
  else if c.toNat < 0x20 then
    ['\\', 'u', '0', '0', Text.hexDigit (c.toNat / 16), Text.hexDigit (c.toNat % 16)]
  else [c]

def quote (s : String) : String :=
  "\"" ++ String.ofList (s.toList.flatMap escapeChar) ++ "\""

def renderNumber : JsonNumber → String
  | .whole n => toString n
  | .float x => x.render

mutual

def render : Json → String
  | .null => "null"
  | .bool true => "true"
  | .bool false => "false"
  | .number n => renderNumber n
  | .string s => quote s
  | .array items => "[" ++ renderItems items ++ "]"
  | .object fields => "\x7b" ++ renderFields fields ++ "\x7d"

def renderItems : List Json → String
  | [] => ""
  | [v] => render v
  | v :: rest => render v ++ "," ++ renderItems rest

def renderFields : List (String × Json) → String
  | [] => ""
  | [(k, v)] => quote k ++ ":" ++ render v
  | (k, v) :: rest => quote k ++ ":" ++ render v ++ "," ++ renderFields rest

end

def margin (depth : Nat) : String := String.ofList ('\n' :: List.replicate (2 * depth) ' ')

mutual

/-- The indented text of a value whose first line stands at `depth`. -/
def renderIndented (depth : Nat) : Json → String
  | .array [] => "[]"
  | .object [] => "\x7b\x7d"
  | .array items => "[" ++ indentedItems (depth + 1) items ++ margin depth ++ "]"
  | .object fields => "\x7b" ++ indentedFields (depth + 1) fields ++ margin depth ++ "\x7d"
  | .null => "null"
  | .bool true => "true"
  | .bool false => "false"
  | .number n => renderNumber n
  | .string s => quote s

def indentedItems (depth : Nat) : List Json → String
  | [] => ""
  | [v] => margin depth ++ renderIndented depth v
  | v :: rest => margin depth ++ renderIndented depth v ++ "," ++ indentedItems depth rest

def indentedFields (depth : Nat) : List (String × Json) → String
  | [] => ""
  | [(k, v)] => margin depth ++ quote k ++ ": " ++ renderIndented depth v
  | (k, v) :: rest =>
    margin depth ++ quote k ++ ": " ++ renderIndented depth v ++ "," ++ indentedFields depth rest

end

end PartDepot.Json

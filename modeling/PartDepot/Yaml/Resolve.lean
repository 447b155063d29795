import PartDepot.Number.Binary64
import PartDepot.Text.Hex

/-!
# What plain texts stand for

A text without quotes may stand for nothing, a truth value, a whole number or a fraction;
every other text stands for itself.  The same rule decides how a text must be written so
that it does stand for itself.
-/

namespace PartDepot.Yaml

/-- What a plain text stands for. A whole number beyond 64 bits has no type that could hold it, and
one beyond 128 bits is a fraction. -/
inductive Resolved where
  | null
  | bool (value : Bool)
  | whole (value : Int)
  | large
  | fraction (value : Binary64)
  | notFinite
  | text
deriving DecidableEq

def isNullWord (s : String) : Bool := s == "null" || s == "Null" || s == "NULL" || s == "~"

def boolWord? (s : String) : Option Bool :=
  if s == "true" || s == "True" || s == "TRUE" then some true
  else if s == "false" || s == "False" || s == "FALSE" then some false
  else none

def digits? (base : Nat) (s : List Char) : Option Nat :=
  if s.isEmpty then none
  else s.foldl (fun n c => do
    let n ← n
    let d ← Text.hexValue? c
    if d < base then some (n * base + d) else none) (some 0)

/-- The base that a number announces, and its digits. -/
def announcedBase? : List Char → Option (Nat × List Char)
  | '0' :: 'x' :: rest => some (16, rest)
  | '0' :: 'o' :: rest => some (8, rest)
  | '0' :: 'b' :: rest => some (2, rest)
  | _ => none

/-- Leading zeros before other digits make a text of what would be a number. -/
def hasLeadingZero (s : List Char) : Bool :=
  let s := match s with
    | '-' :: rest => rest
    | '+' :: rest => rest
    | _ => s
  match s with
  | '0' :: rest => !rest.isEmpty && rest.all Char.isDigit
  | _ => false

/-- The whole number below `2 ^ bits` that a text without minus sign spells. -/
def unsigned? (bits : Nat) (s : List Char) : Option Nat :=
  let within (n : Nat) : Option Nat := if n < Nat.pow 2 bits then some n else none
  let body := match s with
    | '+' :: rest => rest
    | _ => s
  match (announcedBase? body).bind fun (base, ds) => (digits? base ds).bind within with
  | some n => some n
  | none => if hasLeadingZero s then none else (digits? 10 body).bind within

/-- The whole number from `-2 ^ (bits - 1)` on that a text with a minus sign spells. -/
def negative? (bits : Nat) (s : List Char) : Option Int :=
  let within (n : Nat) : Option Int := if n ≤ Nat.pow 2 (bits - 1) then some (-n) else none
  match s with
  | '-' :: body =>
    match (announcedBase? body).bind fun (base, ds) => (digits? base ds).bind within with
    | some n => some n
    | none => if hasLeadingZero s then none else (digits? 10 body).bind within
  | _ => none

/-- A decimal fraction: digits with at most one point, at least one digit, an exponent perhaps. -/
def decimal? (negative : Bool) (s : List Char) : Option Binary64 := do
  let whole := s.takeWhile Char.isDigit
  let rest := s.dropWhile Char.isDigit
  let (fraction, rest) := match rest with
    | '.' :: rest => (rest.takeWhile Char.isDigit, rest.dropWhile Char.isDigit)
    | _ => ([], rest)
  if whole.isEmpty && fraction.isEmpty then none
  let exponent : Int ← match rest with
    | [] => some 0
    | e :: rest =>
      if e == 'e' || e == 'E' then
        match rest with
        | '-' :: ds => (digits? 10 ds).map fun n => -n
        | '+' :: ds => (digits? 10 ds).map fun n => n
        | ds => (digits? 10 ds).map fun n => n
      else none
  let digits ← digits? 10 (whole ++ fraction)
  Binary64.ofDecimal negative digits (exponent - fraction.length)

/-- A number that is not whole: a decimal fraction, an infinity or what is no number. -/
def fraction? (s : String) : Option Resolved :=
  let chars := s.toList
  if s == ".nan" || s == ".NaN" || s == ".NAN" || s == ".inf" || s == ".Inf" || s == ".INF"
      || s == "+.inf" || s == "+.Inf" || s == "+.INF" || s == "-.inf" || s == "-.Inf"
      || s == "-.INF" then some .notFinite
  else match chars with
    | '+' :: rest => (decimal? false rest).map .fraction
    | '-' :: rest => (decimal? true rest).map .fraction
    | _ => (decimal? false chars).map .fraction

/-- The whole number a text spells, if it spells one. -/
def whole? (s : String) : Option Resolved :=
  let chars := s.toList
  match unsigned? 64 chars, negative? 64 chars with
  | some n, _ => some (.whole n)
  | none, some n => some (.whole n)
  | none, none =>
    if (unsigned? 128 chars).isSome || (negative? 128 chars).isSome then some .large else none

def resolve (s : String) : Resolved :=
  if s.isEmpty || isNullWord s then .null
  else match boolWord? s with
    | some b => .bool b
    | none =>
      match whole? s with
      | some r => r
      | none =>
        if hasLeadingZero s.toList then .text
        else (fraction? s).getD .text

end PartDepot.Yaml

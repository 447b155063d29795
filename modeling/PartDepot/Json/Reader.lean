import PartDepot.Json.Value
import PartDepot.Text.Hex

/-!
# Reading JSON

A reader over characters.  Values may nest up to a given depth.  A value that nobody asks for is
only checked for its shape: there the depth, the size of numbers and unpaired surrogates do not
matter, which `Care.skip` says.

Numbers with a fraction, an exponent or more than 64 bits become doubles: the leading digits that
fit into 64 bits, times a power of ten, rounded twice.
-/

namespace PartDepot.Json

/-- Whether the value that is read will be used. -/
inductive Care where
  | keep
  | skip
deriving DecidableEq

def isSpace (c : Char) : Bool := c == ' ' || c == '\n' || c == '\t' || c == '\r'

def skipSpace (s : List Char) : List Char := s.dropWhile isSpace

def digitOf? (c : Char) : Option Nat :=
  if c.isDigit then some (c.toNat - '0'.toNat) else none

/-! ## Numbers -/

/-- The double `± significand * 10 ^ exponent`, with one rounding for the significand and one for
each power of ten; a power below `10 ^ -308` is reached by repeated division. -/
def scaleDecimal (negative : Bool) (significand : Nat) (exponent : Int) : Option Binary64 := do
  let start ← Binary64.ofNat false significand
  let power (k : Nat) : Option Binary64 := Binary64.ofDecimal false 1 k
  let rec descend : Nat → Binary64 → Nat → Option Binary64
    | 0, _, _ => none
    | fuel + 1, x, k =>
      if k ≤ 308 then do x.div (← power k)
      else if x.isZero then some x
      else do descend fuel (← x.div (← power 308)) (k - 308)
  let size ← if 308 < exponent then (if start.isZero then some start else none)
    else if 0 ≤ exponent then do start.mul (← power exponent.toNat)
    else descend 4 start (-exponent).toNat
  return if negative then size.neg else size

/-- The digits of an exponent: its value, or that it does not fit into 31 bits. -/
def readExponentDigits : Nat → List Char → Option Nat × List Char
  | value, [] => (some value, [])
  | value, c :: rest =>
    match digitOf? c with
    | none => (some value, c :: rest)
    | some d =>
      if 0x7FFF_FFFF < value * 10 + d then (none, rest.dropWhile Char.isDigit)
      else readExponentDigits (value * 10 + d) rest

def clampExponent (e : Int) : Int := max (-0x8000_0000) (min 0x7FFF_FFFF e)

def readExponent (negative : Bool) (significand : Nat) (before : Int) (s : List Char) :
    Option (Option Binary64 × List Char) :=
  let (down, s) := match s with
    | '+' :: rest => (false, rest)
    | '-' :: rest => (true, rest)
    | _ => (false, s)
  match s with
  | [] => none
  | c :: rest =>
    match digitOf? c with
    | none => none
    | some d =>
      match readExponentDigits d rest with
      | (some e, rest) =>
        let exponent := clampExponent (if down then before - e else before + e)
        some (scaleDecimal negative significand exponent, rest)
      | (none, rest) =>
        if significand == 0 || down then some (some (Binary64.zero negative), rest)
        else some (none, rest)

/-- After the digits: an exponent or the end of the number. -/
def readTail (negative : Bool) (significand : Nat) (exponent : Int) (s : List Char) :
    Option (Option Binary64 × List Char) :=
  match s with
  | 'e' :: rest | 'E' :: rest => readExponent negative significand exponent rest
  | _ => some (scaleDecimal negative significand exponent, s)

/-- Digits after the point go into the significand until it would leave 64 bits. Returns the
significand, how many digits it took, and what follows. -/
def readFraction : Nat → Nat → List Char → Nat × Nat × List Char
  | significand, count, [] => (significand, count, [])
  | significand, count, c :: rest =>
    match digitOf? c with
    | none => (significand, count, c :: rest)
    | some d =>
      if 0xFFFF_FFFF_FFFF_FFFF < significand * 10 + d then (significand, count, c :: rest)
      else readFraction (significand * 10 + d) (count + 1) rest

def readDecimal (negative : Bool) (significand : Nat) (dropped : Nat) (s : List Char) :
    Option (Option Binary64 × List Char) :=
  match s with
  | [] => none
  | c :: _ =>
    if c.isDigit then
      let (significand, count, rest) := readFraction significand 0 s
      readTail negative significand (dropped - count : Int) (rest.dropWhile Char.isDigit)
    else none

/-- The digits before the point as long as they fit into 64 bits, how many more follow, and what
follows those. -/
def readWhole : Nat → List Char → Nat × Nat × List Char
  | value, [] => (value, 0, [])
  | value, c :: rest =>
    match digitOf? c with
    | none => (value, 0, c :: rest)
    | some d =>
      if 0xFFFF_FFFF_FFFF_FFFF < value * 10 + d then
        (value, ((c :: rest).takeWhile Char.isDigit).length, rest.dropWhile Char.isDigit)
      else readWhole (value * 10 + d) rest

/-- The number of a significand that fits: whole if it fits with its sign and is not `-0`. -/
def wholeNumber (negative : Bool) (n : Nat) : Option JsonNumber :=
  if !negative then some (.whole n)
  else if n == 0 || 0x8000_0000_0000_0000 < n then (Binary64.ofNat true n).map .float
  else some (.whole (-n))

/-- A number without its sign. The inner result is absent when the number is too large. -/
def readUnsigned (negative : Bool) (s : List Char) : Option (Option JsonNumber × List Char) :=
  let asFloat (r : Option (Option Binary64 × List Char)) :=
    r.map fun (x, rest) => (x.map JsonNumber.float, rest)
  match s with
  | [] => none
  | c :: rest =>
    if !c.isDigit then none
    else
      let (value, dropped, after) := if c = '0' then (0, 0, rest) else readWhole 0 s
      match after with
      | '.' :: tail => asFloat (readDecimal negative value dropped tail)
      | 'e' :: tail | 'E' :: tail => asFloat (readExponent negative value dropped tail)
      | d :: _ =>
        if c = '0' && d.isDigit then none
        else if dropped = 0 then some (wholeNumber negative value, after)
        else some ((scaleDecimal negative value dropped).map .float, after)
      | [] =>
        if dropped = 0 then some (wholeNumber negative value, [])
        else some ((scaleDecimal negative value dropped).map .float, [])

def readNumber (care : Care) (s : List Char) : Option (Json × List Char) :=
  let parsed := match s with
    | '-' :: rest => readUnsigned true rest
    | _ => readUnsigned false s
  match parsed, care with
  | some (some n, rest), _ => some (.number n, rest)
  | some (none, rest), .skip => some (.null, rest)
  | _, _ => none

/-! ## Strings -/

def readUnit : List Char → Option (Nat × List Char)
  | a :: b :: c :: d :: rest => do
    let a ← Text.hexValue? a
    let b ← Text.hexValue? b
    let c ← Text.hexValue? c
    let d ← Text.hexValue? d
    some (((a * 16 + b) * 16 + c) * 16 + d, rest)
  | _ => none

/-- The character of a `\u` escape, which may take a second escape for the other half of a pair. -/
def readCodePoint (care : Care) (s : List Char) : Option (Char × List Char) := do
  let (unit, rest) ← readUnit s
  if care = .skip then return (' ', rest)
  if 0xDC00 ≤ unit && unit ≤ 0xDFFF then none
  else if 0xD800 ≤ unit && unit ≤ 0xDBFF then
    match rest with
    | '\\' :: 'u' :: rest => do
      let (low, rest) ← readUnit rest
      if 0xDC00 ≤ low && low ≤ 0xDFFF then
        some (Char.ofNat (0x10000 + (unit - 0xD800) * 0x400 + (low - 0xDC00)), rest)
      else none
    | _ => none
  else some (Char.ofNat unit, rest)

def simpleEscape? : Char → Option Char
  | '"' => some '"'
  | '\\' => some '\\'
  | '/' => some '/'
  | 'b' => some '\x08'
  | 'f' => some '\x0c'
  | 'n' => some '\n'
  | 'r' => some '\r'
  | 't' => some '\t'
  | _ => none

def readChars (care : Care) : Nat → List Char → Option (List Char × List Char)
  | 0, _ => none
  | fuel + 1, s =>
    match s with
    | [] => none
    | '"' :: rest => some ([], rest)
    | '\\' :: 'u' :: rest => do
      let (c, rest) ← readCodePoint care rest
      let (cs, rest) ← readChars care fuel rest
      some (c :: cs, rest)
    | '\\' :: e :: rest => do
      let c ← simpleEscape? e
      let (cs, rest) ← readChars care fuel rest
      some (c :: cs, rest)
    | c :: rest =>
      if c.toNat < 0x20 || c = '\\' then none
      else do
        let (cs, rest) ← readChars care fuel rest
        some (c :: cs, rest)

def readString (care : Care) (s : List Char) : Option (String × List Char) :=
  (readChars care (s.length + 1) s).map fun (cs, rest) => (String.ofList cs, rest)

/-! ## Values -/

def enter (care : Care) (depth : Nat) : Option Nat :=
  match care, depth with
  | .skip, d => some d
  | .keep, d + 1 => some d
  | .keep, 0 => none

mutual

/-- A value at the start of the text, which may nest `depth` deep. -/
def readValue (care : Care) : Nat → Nat → List Char → Option (Json × List Char)
  | 0, _, _ => none
  | fuel + 1, depth, s =>
    match s with
    | 'n' :: 'u' :: 'l' :: 'l' :: rest => some (.null, rest)
    | 't' :: 'r' :: 'u' :: 'e' :: rest => some (.bool true, rest)
    | 'f' :: 'a' :: 'l' :: 's' :: 'e' :: rest => some (.bool false, rest)
    | '"' :: rest => (readString care rest).map fun (t, rest) => (.string t, rest)
    | '[' :: rest => do
      let depth ← enter care depth
      match skipSpace rest with
      | ']' :: rest => some (.array [], rest)
      | rest =>
        let (items, rest) ← readItems care fuel depth rest
        some (.array items, rest)
    | '\x7b' :: rest => do
      let depth ← enter care depth
      match skipSpace rest with
      | '\x7d' :: rest => some (.object [], rest)
      | rest =>
        let (fields, rest) ← readFields care fuel depth rest
        some (ofFields fields, rest)
    | _ => readNumber care s

/-- The items of an array up to its closing bracket; there is at least one. -/
def readItems (care : Care) : Nat → Nat → List Char → Option (List Json × List Char)
  | 0, _, _ => none
  | fuel + 1, depth, s => do
    let (item, rest) ← readValue care fuel depth (skipSpace s)
    match skipSpace rest with
    | ']' :: rest => some ([item], rest)
    | ',' :: rest =>
      let (items, rest) ← readItems care fuel depth rest
      some (item :: items, rest)
    | _ => none

/-- The fields of an object up to its closing brace; there is at least one. -/
def readFields (care : Care) :
    Nat → Nat → List Char → Option (List (String × Json) × List Char)
  | 0, _, _ => none
  | fuel + 1, depth, s =>
    match skipSpace s with
    | '"' :: rest => do
      let (key, rest) ← readString care rest
      match skipSpace rest with
      | ':' :: rest =>
        let (value, rest) ← readValue care fuel depth (skipSpace rest)
        match skipSpace rest with
        | '\x7d' :: rest => some ([(key, value)], rest)
        | ',' :: rest =>
          let (fields, rest) ← readFields care fuel depth rest
          some ((key, value) :: fields, rest)
        | _ => none
      | _ => none
    | _ => none

end

/-- Fuel for every reader of a text: each step takes a character or leads to one that does. -/
def fuelFor (s : List Char) : Nat := 2 * s.length + 2

def defaultDepth : Nat := 127

def parseUpTo (depth : Nat) (text : String) : Option Json :=
  let s := text.toList
  match readValue .keep (fuelFor s) depth (skipSpace s) with
  | some (v, rest) => if (skipSpace rest).isEmpty then some v else none
  | none => none

def parse (text : String) : Option Json := parseUpTo defaultDepth text

end PartDepot.Json

import PartDepot.Url.Percent
import PartDepot.Url.Punycode
import PartDepot.Disk.Path

/-!
# Hosts of URLs

A host is a name, an address of four bytes or an address of eight groups, and is kept as the text
that goes into the URL: lower case, ASCII, addresses in their usual form.
-/

namespace PartDepot

/-- Why a text is no URL. -/
inductive UrlFlaw where
  | relative
  | emptyHost
  | port
  | ipv4
  | ipv6
  | international
  | domainCharacter
  | cannotBeBase
deriving DecidableEq

def UrlFlaw.message : UrlFlaw → String
  | .relative => "relative URL without a base"
  | .emptyHost => "empty host"
  | .port => "invalid port number"
  | .ipv4 => "invalid IPv4 address"
  | .ipv6 => "invalid IPv6 address"
  | .international => "invalid international domain name"
  | .domainCharacter => "invalid domain character"
  | .cannotBeBase => "URL cannot be a base"

namespace Host

def labels : List Char → List (List Char)
  | [] => [[]]
  | c :: rest =>
    match labels rest with
    | [] => [[c]]
    | p :: ps => if c = '.' then [] :: p :: ps else (c :: p) :: ps

def joinLabels : List (List Char) → List Char
  | [] => []
  | [p] => p
  | p :: ps => p ++ '.' :: joinLabels ps

/-! ## Names -/

/-- The lower-case form of a letter, the plain form of a wide one, and nothing for a soft hyphen. -/
def foldChar (c : Char) : List Char :=
  let n := c.toNat
  let shifted (k : Nat) : List Char := [Char.ofNat (n + k)]
  if n = 0xAD then []
  else if n = 0x3002 || n = 0xFF0E || n = 0xFF61 then ['.']
  else if 0xFF01 ≤ n && n ≤ 0xFF5E then [(Char.ofNat (n - 0xFEE0)).toLower]
  else if n < 0x80 then [c.toLower]
  else if (0xC0 ≤ n && n ≤ 0xDE && n != 0xD7) || (0x391 ≤ n && n ≤ 0x3AB && n != 0x3A2)
      || (0x410 ≤ n && n ≤ 0x42F) then shifted 32
  else if 0x400 ≤ n && n ≤ 0x40F then shifted 80
  else if ((0x100 ≤ n && n ≤ 0x137) || (0x14A ≤ n && n ≤ 0x177) || (0x460 ≤ n && n ≤ 0x481)
      || (0x48A ≤ n && n ≤ 0x4BF)) && n % 2 == 0 && n != 0x130 then shifted 1
  else if ((0x139 ≤ n && n ≤ 0x148) || (0x179 ≤ n && n ≤ 0x17E)) && n % 2 == 1 then shifted 1
  else [c]

def isForbidden (c : Char) : Bool :=
  c.toNat ≤ 0x20 || c == '\x7f' || "#/:<>?@[\\]^|%".toList.contains c

/-- The control characters beyond ASCII, which no name may hold in any form. -/
def isHighControl (c : Char) : Bool := 0x80 ≤ c.toNat && c.toNat ≤ 0x9F

/-- The ASCII form of a label. One that says it is encoded must be the encoding of a label in lower
case with some character beyond ASCII. -/
def asciiLabel? (label : List Char) : Option (List Char) :=
  match label with
  | 'x' :: 'n' :: '-' :: '-' :: code => do
    let decoded ← Punycode.decode code
    if decoded.isEmpty || decoded.all (·.toNat < 0x80) || decoded.flatMap foldChar != decoded
        || decoded.any isHighControl || Punycode.encode decoded != code then none
    else some label
  | _ =>
    if label.all (·.toNat < 0x80) then some label
    else if label.any isHighControl then none
    else some ('x' :: 'n' :: '-' :: '-' :: Punycode.encode label)

def asciiName? (name : List Char) : Option (List Char) := do
  let ascii ← (labels (name.flatMap foldChar)).mapM asciiLabel?
  if ascii.any (·.any isForbidden) then none else some (joinLabels ascii)

/-! ## Addresses of four bytes -/

/-- A number in the base it announces. The inner value is absent when it is too large. -/
def addressNumber? (s : List Char) : Option (Option Nat) :=
  let (base, digits) := match s with
    | '0' :: 'x' :: rest | '0' :: 'X' :: rest => (16, rest)
    | '0' :: d :: rest => (8, d :: rest)
    | _ => (10, s)
  if s.isEmpty then none
  else do
    let ds ← digits.mapM fun c => do
      let d ← Text.hexValue? c
      if d < base then some d else none
    let n := ds.foldl (fun n d => n * base + d) 0
    some (if n < 0x1_0000_0000 then some n else none)

def endsInNumber (name : List Char) : Bool :=
  let last := match (labels name).reverse with
    | [] :: next :: _ => some next
    | [[]] => none
    | last :: _ => some last
    | [] => none
  match last with
  | none => false
  | some l => (!l.isEmpty && l.all Char.isDigit) || (addressNumber? l).isSome

def ipv4? (name : List Char) : Option Nat := do
  let parts := labels name
  let parts := if parts.getLast? == some [] then parts.dropLast else parts
  if 4 < parts.length then none
  let numbers ← parts.mapM fun p => (addressNumber? p).join
  let last ← numbers.getLast?
  let front := numbers.dropLast
  if Nat.pow 256 (4 - front.length) ≤ last || front.any (255 < ·) then none
  some (front.zipIdx.foldl (fun sum (n, i) => sum + n * Nat.pow 256 (3 - i)) last)

def ipv4Text (n : Nat) : List Char :=
  s!"{n / 16777216 % 256}.{n / 65536 % 256}.{n / 256 % 256}.{n % 256}".toList

/-! ## Addresses of eight groups -/

def groups : List Char → List (List Char)
  | [] => [[]]
  | c :: rest =>
    match groups rest with
    | [] => [[c]]
    | p :: ps => if c = ':' then [] :: p :: ps else (c :: p) :: ps

def group? (s : List Char) : Option Nat :=
  if s.isEmpty || 4 < s.length then none
  else (s.mapM Text.hexValue?).map fun ds => ds.foldl (fun n d => n * 16 + d) 0

/-- Four decimal bytes without leading zeros, as two groups. -/
def embedded? (s : List Char) : Option (List Nat) := do
  let bytes ← (labels s).mapM fun p =>
    if p.isEmpty || 3 < p.length || !p.all Char.isDigit ||
      (1 < p.length && p.head? == some '0') then
      none
    else
      let n := p.foldl (fun n d => n * 10 + (d.toNat - '0'.toNat)) 0
      if n < 256 then some n else none
  match bytes with
  | [a, b, c, d] => some [a * 256 + b, c * 256 + d]
  | _ => none

/-- Groups between colons; the last one may be four decimal bytes. -/
def groupList? : List (List Char) → Option (List Nat)
  | [] => some []
  | [last] => if last.contains '.' then embedded? last else (group? last).map ([·])
  | g :: rest => do return (← group? g) :: (← groupList? rest)

def cutPair : List Char → Option (List Char × List Char)
  | ':' :: ':' :: rest => some ([], rest)
  | c :: rest => (cutPair rest).map fun (a, b) => (c :: a, b)
  | [] => none

/-- The eight groups of an address; a pair of colons stands for groups of zeros. -/
def ipv6? (s : List Char) : Option (List Nat) := do
  let part (s : List Char) : Option (List Nat) :=
    if s.isEmpty then some [] else groupList? (groups s)
  match cutPair s with
  | none =>
    let gs ← part s
    if gs.length = 8 then some gs else none
  | some (front, back) =>
    if front.contains '.' then none
    let a ← part front
    let b ← part back
    let missing := 8 - (a.length + b.length)
    if missing = 0 then none else some (a ++ List.replicate missing 0 ++ b)

def zeros (gs : List Nat) : Nat := (gs.takeWhile (· == 0)).length

/-- The first longest run of at least two zeros: where it starts and how long it is. -/
def longestZeros (gs : List Nat) : Option (Nat × Nat) :=
  (List.range gs.length).foldl (fun best i =>
    let n := zeros (gs.drop i)
    if n < 2 then best
    else match best with
      | some (_, m) => if m < n then some (i, n) else best
      | none => some (i, n)) none

def groupText (gs : List Nat) : List Char :=
  (":".intercalate (gs.map fun g => String.ofList (Nat.toDigits 16 g))).toList

def ipv6Text (gs : List Nat) : List Char :=
  let inner := match longestZeros gs with
    | none => groupText gs
    | some (i, n) => groupText (gs.take i) ++ ':' :: ':' :: groupText (gs.drop (i + n))
  '[' :: inner ++ [']']

/-! ## Hosts -/

def bracketed (s : List Char) : Except UrlFlaw (List Char) :=
  if s.getLast? == some ']' then
    match ipv6? (s.drop 1).dropLast with
    | some gs => .ok (ipv6Text gs)
    | none => .error .ipv6
  else .error .ipv6

def parse (s : List Char) : Except UrlFlaw (List Char) :=
  if s.isEmpty then .error .emptyHost
  else if s.head? == some '[' then bracketed s
  else match (Percent.decodeText s).bind fun name => asciiName? name.toList with
    | none => .error .international
    | some name =>
      if name.isEmpty then .error .emptyHost
      else if endsInNumber name then
        match ipv4? name with
        | some n => .ok (ipv4Text n)
        | none => .error .ipv4
      else .ok name

/-- The host of a URL of another scheme, which is not looked into. -/
def parseOpaque (s : List Char) : Except UrlFlaw (List Char) :=
  if s.head? == some '[' then bracketed s
  else if s.any fun c => c == '\x00' || c == ' ' || "#/:<>?@[\\]^|".toList.contains c then
    .error .domainCharacter
  else .ok (Percent.encode (fun _ => false) s)

end Host

end PartDepot

/-!
# Punycode

Labels with characters beyond ASCII as ASCII text: the ASCII characters in order, then for each
other character, in ascending order, where it goes, as a difference in digits of varying weight.
-/

namespace PartDepot.Punycode

def digitChar (d : Nat) : Char :=
  if d < 26 then Char.ofNat ('a'.toNat + d) else Char.ofNat ('0'.toNat + d - 26)

def digitValue? (c : Char) : Option Nat :=
  if 'a' ≤ c && c ≤ 'z' then some (c.toNat - 'a'.toNat)
  else if 'A' ≤ c && c ≤ 'Z' then some (c.toNat - 'A'.toNat)
  else if c.isDigit then some (c.toNat - '0'.toNat + 26)
  else none

/-- The greatest final digit at a position, under a bias. -/
def threshold (position bias : Nat) : Nat := max 1 (min 26 (position - bias))

theorem threshold_pos (position bias : Nat) : 1 ≤ threshold position bias := by
  unfold threshold; omega

theorem threshold_le (position bias : Nat) : threshold position bias ≤ 26 := by
  unfold threshold; omega

def damp (delta k : Nat) : Nat × Nat :=
  if 455 < delta then damp (delta / 35) (k + 36) else (delta, k)
termination_by delta
decreasing_by omega

def adapt (delta count : Nat) (first : Bool) : Nat :=
  let d := if first then delta / 700 else delta / 2
  let (d, k) := damp (d + d / count) 0
  k + 36 * d / (d + 38)

/-- A difference in digits, the least first. -/
def encodeDelta (bias position q : Nat) : List Char :=
  let t := threshold position bias
  if q < t then [digitChar q]
  else digitChar (t + (q - t) % (36 - t)) :: encodeDelta bias (position + 36) ((q - t) / (36 - t))
termination_by q
decreasing_by
  have h₁ := threshold_pos position bias
  have h₂ := threshold_le position bias
  have := Nat.div_le_self (q - threshold position bias) (36 - threshold position bias)
  omega

/-- What was written so far. -/
structure State where
  out : List Char
  delta : Nat
  bias : Nat
  done : Nat

/-- Passes the characters of the label for the character with code `m`. -/
def writeCode (basic m : Nat) (s : State) (c : Char) : State :=
  if c.toNat < m then { s with delta := s.delta + 1 }
  else if c.toNat = m then
    { out := s.out ++ encodeDelta s.bias 36 s.delta
      delta := 0
      bias := adapt s.delta (s.done + 1) (s.done == basic)
      done := s.done + 1 }
  else s

/-- Writes the characters with the given codes, which ascend; `n` is the least code not passed. -/
def writeCodes (label : List Char) (basic : Nat) : List Nat → Nat → State → State
  | [], _, s => s
  | m :: rest, n, s =>
    let s := { s with delta := s.delta + (m - n) * (s.done + 1) }
    let s := label.foldl (writeCode basic m) s
    writeCodes label basic rest (m + 1) { s with delta := s.delta + 1 }

/-- The ASCII text of a label, without the sign that it is encoded. -/
def encode (label : List Char) : List Char :=
  let basic := label.filter (·.toNat < 0x80)
  let codes := (label.filter (0x80 ≤ ·.toNat)).map Char.toNat
  let codes := (codes.mergeSort (· ≤ ·)).eraseDups
  let start := if basic.isEmpty then [] else basic ++ ['-']
  start ++ (writeCodes label basic.length codes 0x80 ⟨[], 0, 72, basic.length⟩).out

/-- One difference: the place it leads to, and the rest. -/
def decodeDelta (bias : Nat) : (position weight place : Nat) → List Char → Option (Nat × List Char)
  | _, _, _, [] => none
  | position, weight, place, c :: rest => do
    let d ← digitValue? c
    let t := threshold position bias
    let place := place + d * weight
    if d < t then some (place, rest)
    else decodeDelta bias (position + 36) (weight * (36 - t)) place rest

def decodeCodes : Nat → (code place bias : Nat) → List Char → List Char → Option (List Char)
  | 0, _, _, _, _, _ => none
  | _, _, _, _, out, [] => some out
  | fuel + 1, code, place, bias, out, s => do
    let (next, rest) ← decodeDelta bias 36 1 place s
    let count := out.length + 1
    let code := code + next / count
    let place' := next % count
    let grown := out.take place' ++ Char.ofNat code :: out.drop place'
    let bias := adapt (next - place) count (place == 0)
    if 0x10FFFF < code || (0xD800 ≤ code && code ≤ 0xDFFF) then none
    else decodeCodes fuel code (place' + 1) bias grown rest

/-- The label of an ASCII text, without the sign that it is encoded. -/
def decode (s : List Char) : Option (List Char) :=
  let after := (s.reverse.takeWhile (· != '-')).reverse
  let basic := s.take (s.length - after.length - 1)
  if basic.any (0x80 ≤ ·.toNat) then none
  else decodeCodes (after.length + 1) 0x80 0 72 basic after

end PartDepot.Punycode

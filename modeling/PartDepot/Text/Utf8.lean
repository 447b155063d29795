/-!
# Bytes as text

Decodes bytes that should be UTF-8.  Every longest run of bytes that starts a character and does not
complete it, and every other byte that cannot start one, reads as the replacement character.
-/

namespace PartDepot.Text

def replacement : Char := '\uFFFD'

/-- How many bytes follow a first byte, and the range of the second. -/
def sequenceOf? (first : Nat) : Option (Nat × Nat × Nat) :=
  if 0xC2 ≤ first && first ≤ 0xDF then some (1, 0x80, 0xBF)
  else if first = 0xE0 then some (2, 0xA0, 0xBF)
  else if first = 0xED then some (2, 0x80, 0x9F)
  else if 0xE1 ≤ first && first ≤ 0xEF then some (2, 0x80, 0xBF)
  else if first = 0xF0 then some (3, 0x90, 0xBF)
  else if 0xF1 ≤ first && first ≤ 0xF3 then some (3, 0x80, 0xBF)
  else if first = 0xF4 then some (3, 0x80, 0x8F)
  else none

/-- The state inside a character: bytes to come, the range of the next, the bits so far. -/
structure Partial where
  left : Nat
  low : Nat
  high : Nat
  value : Nat

/-- The characters of the bytes, from inside a character or between two. -/
def decodeFrom : Option Partial → List UInt8 → List Char
  | none, [] => []
  | some _, [] => [replacement]
  | none, b :: rest =>
    let n := b.toNat
    if n < 0x80 then Char.ofNat n :: decodeFrom none rest
    else match sequenceOf? n with
      | none => replacement :: decodeFrom none rest
      | some (left, low, high) =>
        decodeFrom (some ⟨left, low, high, n % Nat.pow 2 (6 - left)⟩) rest
  | some p, b :: rest =>
    let n := b.toNat
    if p.low ≤ n && n ≤ p.high then
      let value := p.value * 64 + n % 64
      if p.left ≤ 1 then Char.ofNat value :: decodeFrom none rest
      else decodeFrom (some ⟨p.left - 1, 0x80, 0xBF, value⟩) rest
    else if n < 0x80 then replacement :: Char.ofNat n :: decodeFrom none rest
    else match sequenceOf? n with
      | none => replacement :: replacement :: decodeFrom none rest
      | some (left, low, high) =>
        replacement :: decodeFrom (some ⟨left, low, high, n % Nat.pow 2 (6 - left)⟩) rest

def decodeLossy (bytes : ByteArray) : String :=
  match String.fromUTF8? bytes with
  | some s => s
  | none => String.ofList (decodeFrom none bytes.data.toList)

end PartDepot.Text

/-!
# Hexadecimal digits

Their values, which accept both cases, and the digits of a number in either case.
-/

namespace PartDepot.Text

def hexValue? (c : Char) : Option Nat :=
  if c.isDigit then some (c.toNat - '0'.toNat)
  else if 'a' ≤ c && c ≤ 'f' then some (c.toNat - 'a'.toNat + 10)
  else if 'A' ≤ c && c ≤ 'F' then some (c.toNat - 'A'.toNat + 10)
  else none

def hexDigit (n : Nat) : Char := n.digitChar

def upperHexDigit (n : Nat) : Char := n.digitChar.toUpper

def upperHex : (width : Nat) → Nat → List Char
  | 0, _ => []
  | width + 1, n => upperHex width (n / 16) ++ [upperHexDigit (n % 16)]

theorem hexValue?_hexDigit {n : Nat} (h : n < 16) : hexValue? (hexDigit n) = some n := by
  have all : ∀ m ∈ List.range 16, hexValue? (hexDigit m) = some m := by decide
  exact all n (List.mem_range.mpr h)

theorem hexValue?_upperHexDigit {n : Nat} (h : n < 16) : hexValue? (upperHexDigit n) = some n := by
  have all : ∀ m ∈ List.range 16, hexValue? (upperHexDigit m) = some m := by decide
  exact all n (List.mem_range.mpr h)

end PartDepot.Text

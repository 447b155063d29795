/-!
# Finite binary64 numbers

A finite double as a sign, a significand and a power of two, with the one rounding rule every
operation uses: the nearest double, and of two equally near ones the even one.  A result that is too
large for the format is absent.
-/

namespace PartDepot

/-- The significands and exponents that finite doubles have: each number in exactly one way. -/
def Binary64.Canonical (significand : Nat) (exponent : Int) : Prop :=
  significand < 0x20_0000_0000_0000 ∧ -1074 ≤ exponent ∧ exponent ≤ 971 ∧
    (exponent = -1074 ∨ 0x10_0000_0000_0000 ≤ significand)

instance (m : Nat) (e : Int) : Decidable (Binary64.Canonical m e) := by
  unfold Binary64.Canonical; infer_instance

/-- The number `± significand * 2 ^ exponent`; zero has a sign too. -/
structure Binary64 where
  negative : Bool
  significand : Nat
  exponent : Int
  canonical : Binary64.Canonical significand exponent
deriving DecidableEq

namespace Binary64

/-- The double with these parts, if they are canonical. -/
def ofParts? (negative : Bool) (m : Nat) (e : Int) : Option Binary64 :=
  if h : Canonical m e then some ⟨negative, m, e, h⟩ else none

def zero (negative : Bool) : Binary64 := ⟨negative, 0, -1074, by decide⟩

def isZero (x : Binary64) : Bool := x.significand == 0

def neg (x : Binary64) : Binary64 := { x with negative := !x.negative }

/-- The whole number nearest to `num / den`; a half goes to the even neighbour. -/
def roundHalfEven (num den : Nat) : Nat :=
  let q := num / den
  let r := num % den
  if 2 * r > den || (2 * r == den && q % 2 == 1) then q + 1 else q

/-- The fraction `num / den * 2 ^ shift` as a numerator and a denominator. -/
def scale (num den : Nat) (shift : Int) : Nat × Nat :=
  if 0 ≤ shift then (num * Nat.pow 2 shift.toNat, den)
  else (num, den * Nat.pow 2 (-shift).toNat)

/-- The power of two just below `num / den` or equal to it, for a positive fraction. -/
def leadingExponent (num den : Nat) : Int :=
  let guess : Int := num.log2 - den.log2
  let (n, d) := scale num den (-guess)
  if d ≤ n then guess else guess - 1

/-- The double nearest to `± num / den`, absent when it is out of range. -/
def roundQuotient (negative : Bool) (num den : Nat) : Option Binary64 :=
  if num == 0 then some (zero negative)
  else
    let e := max (-1074) (leadingExponent num den - 52)
    let (n, d) := scale num den (-e)
    let m := roundHalfEven n d
    if m == 0x20_0000_0000_0000 then ofParts? negative 0x10_0000_0000_0000 (e + 1)
    else ofParts? negative m e

def magnitude (x : Binary64) : Nat × Nat := scale x.significand 1 x.exponent

def ofNat (negative : Bool) (n : Nat) : Option Binary64 := roundQuotient negative n 1

def mul (x y : Binary64) : Option Binary64 :=
  let (a, b) := x.magnitude
  let (c, d) := y.magnitude
  roundQuotient (x.negative != y.negative) (a * c) (b * d)

/-- The quotient of two doubles, absent also when the divisor is zero. -/
def div (x y : Binary64) : Option Binary64 :=
  let (a, b) := x.magnitude
  let (c, d) := y.magnitude
  if c == 0 then none else roundQuotient (x.negative != y.negative) (a * d) (b * c)

/-- The double nearest to `± digits * 10 ^ exponent`. Exponents beyond the range of the format are
answered without computing the power. -/
def ofDecimal (negative : Bool) (digits : Nat) (exponent : Int) : Option Binary64 :=
  let width : Int := (Nat.toDigits 10 digits).length
  if digits == 0 then some (zero negative)
  else if 310 < width + exponent then none
  else if width + exponent < -330 then some (zero negative)
  else if 0 ≤ exponent then roundQuotient negative (digits * Nat.pow 10 exponent.toNat) 1
  else roundQuotient negative digits (Nat.pow 10 (-exponent).toNat)

end Binary64

end PartDepot

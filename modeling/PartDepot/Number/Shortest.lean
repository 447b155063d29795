import PartDepot.Number.Binary64

/-!
# The shortest decimal text of a double

`shortest x` is a decimal number with as few digits as possible that reads back as `x`; of several
such numbers the nearest.  `render` writes it: positionally between `1e-5` and `1e16`, else with an
exponent, and never without a sign that it is not an integer.
-/

namespace PartDepot.Binary64

/-- A positive decimal number `digits * 10 ^ exponent`. -/
structure Decimal where
  digits : Nat
  exponent : Int
deriving DecidableEq

/-- The exponent `k` with `10 ^ k ≤ num / den < 10 ^ (k + 1)`, for a positive fraction. -/
def leadingDecimal (num den : Nat) : Int :=
  let guess : Int := (Nat.toDigits 10 num).length - (Nat.toDigits 10 den).length
  let reaches := if 0 ≤ guess then den * Nat.pow 10 guess.toNat ≤ num
    else den ≤ num * Nat.pow 10 (-guess).toNat
  if reaches then guess else guess - 1

/-- The two whole multiples of `10 ^ k` around `num / den`, the nearer first; at a tie the even one
is first. -/
def neighbours (num den : Nat) (k : Int) : Decimal × Decimal :=
  let (n, d) := if 0 ≤ k then (num, den * Nat.pow 10 k.toNat)
    else (num * Nat.pow 10 (-k).toNat, den)
  let low := n / d
  let near := roundHalfEven n d
  if near == low then (⟨low, k⟩, ⟨low + 1, k⟩) else (⟨low + 1, k⟩, ⟨low, k⟩)

def readsAs (x : Binary64) (d : Decimal) : Bool :=
  ofDecimal x.negative d.digits d.exponent == some x

/-- Tries the grids with `count` digits and more, at most `fuel` of them. -/
def searchShortest (x : Binary64) (num den : Nat) (lead : Int) : Nat → Int → Option Decimal
  | 0, _ => none
  | fuel + 1, count =>
    let (near, far) := neighbours num den (lead - count + 1)
    if readsAs x near then some near
    else if readsAs x far then some far
    else searchShortest x num den lead fuel (count + 1)

/-- The exact value as a decimal number: a power of two below one is a power of five over a power
of ten. -/
def exactDecimal (x : Binary64) : Decimal :=
  if 0 ≤ x.exponent then ⟨x.significand * Nat.pow 2 x.exponent.toNat, 0⟩
  else ⟨x.significand * Nat.pow 5 (-x.exponent).toNat, x.exponent⟩

def shortest (x : Binary64) : Decimal :=
  let (num, den) := x.magnitude
  (searchShortest x num den (leadingDecimal num den) 17 1).getD (exactDecimal x)

def Decimal.render (d : Decimal) : String :=
  -- a digit sequence that ends in zeros stands for a shorter one
  let all := Nat.toDigits 10 d.digits
  let digits := (all.reverse.dropWhile (· == '0')).reverse
  let exponent := d.exponent + (all.length - digits.length : Nat)
  let point : Int := digits.length + exponent
  if 0 ≤ exponent && point ≤ 16 then
    String.ofList (digits ++ List.replicate exponent.toNat '0' ++ ['.', '0'])
  else if 0 < point && point ≤ 16 then
    String.ofList (digits.take point.toNat ++ '.' :: digits.drop point.toNat)
  else if -5 < point && point ≤ 0 then
    String.ofList ('0' :: '.' :: List.replicate (-point).toNat '0' ++ digits)
  else
    let mantissa := match digits with
      | [d] => [d]
      | d :: rest => d :: '.' :: rest
      | [] => ['0']
    String.ofList (mantissa ++ ['e']) ++ toString (point - 1)

def render (x : Binary64) : String :=
  let magnitude := if x.isZero then "0.0" else x.shortest.render
  if x.negative then "-" ++ magnitude else magnitude

end PartDepot.Binary64

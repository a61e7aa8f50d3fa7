import StructuredOutput.Number.Double

/-!
Decimal numerals and doubles. A numeral `digits · 10 ^ exponent` is read as the nearest double;
a double is written with the fewest digits that read back as it, and of these with the digits
nearest to it.
-/

namespace StructuredOutput

/-- The nonnegative decimal number `digits · 10 ^ exponent`. -/
structure Decimal where
  digits : Nat
  exponent : Int
  deriving DecidableEq

namespace Decimal

/-- The decimal digits of a number, most significant first; none for zero. -/
def digitCount (n : Nat) : Nat := if n = 0 then 0 else (Nat.toDigits 10 n).length

/-- The magnitude in units, as a fraction. -/
def unitFraction (d : Decimal) : Nat × Nat :=
  (d.digits * Nat.pow 10 d.exponent.toNat * unitsPerOne, Nat.pow 10 (-d.exponent).toNat)

/-- The double nearest to a numeral. A numeral of at least `10 ^ 400` is beyond every double and one
below `10 ^ -400` rounds to zero, so their powers of ten need not be computed. -/
def toFloating (d : Decimal) (negative : Bool) : Floating :=
  let point := d.exponent + digitCount d.digits
  if d.digits = 0 ∨ point < -400 then .finite { Double.zero with negative := negative }
  else if 400 < point then .infinite negative
  else
    let (num, den) := d.unitFraction
    .ofUnits negative num den

/-- Whether a numeral reads back as `units`. -/
def readsBack (d : Decimal) (units : Nat) : Bool :=
  let (num, den) := d.unitFraction
  roundUnits num den = units

end Decimal

namespace Double

/-- Whether `10 ^ e` is at most `units`. -/
def powerOfTenLe (e : Int) (units : Nat) : Bool :=
  Nat.pow 10 e.toNat * unitsPerOne ≤ units * Nat.pow 10 (-e).toNat

/-- The exponent of the leading decimal digit of a nonzero magnitude. The estimate from the binary
exponent is at most one off. -/
def leadingExponent (units : Nat) : Int :=
  let estimate := Int.fdiv (((units.log2 : Int) - 1074) * 30103) 100000
  if powerOfTenLe (estimate + 1) units then estimate + 1
  else if powerOfTenLe estimate units then estimate
  else estimate - 1

/-- `k · 10 ^ exponent`, where `k` has `n` digits or is `10 ^ n`, without trailing zeros in the
latter case. -/
def gridPoint (n k : Nat) (exponent : Int) : Decimal :=
  if k = Nat.pow 10 n then ⟨1, exponent + n⟩ else ⟨k, exponent⟩

/-- The neighbours of a magnitude on its grid of decimals with `n` digits, whose step is
`10 ^ exponent`: the nearer one first, of two equally near ones the even one. -/
def decimalNeighbours (units n : Nat) (exponent : Int) : List Decimal :=
  let num := units * Nat.pow 10 (-exponent).toNat
  let den := unitsPerOne * Nat.pow 10 exponent.toNat
  let low := num / den
  let nearest := roundHalfEven num den
  [gridPoint n nearest exponent, gridPoint n (if nearest = low then low + 1 else low) exponent]

/-- The exact decimal expansion of a magnitude. -/
def exactDecimal (units : Nat) : Decimal := ⟨units * Nat.pow 5 1074, -1074⟩

/-- The first numeral that reads back among those with one digit, two digits, and so on up to
seventeen, which are always enough. -/
def fewestDigits? (units : Nat) (leading : Int) : Option Decimal :=
  (List.range' 1 17).findSome? fun n =>
    (decimalNeighbours units n (leading + 1 - n)).find? (·.readsBack units)

/-- The shortest numeral that reads back as the magnitude of `x`, the nearest one of these. -/
def shortest (x : Double) : Decimal :=
  if x.units = 0 then ⟨0, 0⟩
  else (fewestDigits? x.units (leadingExponent x.units)).getD (exactDecimal x.units)

end Double

end StructuredOutput

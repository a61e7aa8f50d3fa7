import StructuredOutput.Number.Decimal
import StructuredOutput.Text.Digit

/-!
The text of a number: positional notation or a power of ten, and fixed places.
-/

namespace StructuredOutput

open Text

/-- How the digits of a number are laid out. -/
structure NumberLayout where
  /-- The least exponent of the leading digit that is written positionally. -/
  positionalFrom : Int
  /-- The exponents from here on are written as a power of ten. -/
  positionalBelow : Int
  /-- Whether a whole number keeps a point and one zero. -/
  wholePoint : Bool
  /-- The least number of digits of a power of ten. -/
  exponentDigits : Nat
  nanText : String
  infinityText : String

/-- The plain text of numbers: positional from `1e-4` to below `1e16`, a whole number ends in `.0`,
and a power of ten has two digits at least. -/
def plainLayout : NumberLayout := ⟨-4, 16, true, 2, "nan", "inf"⟩

/-- `n` written with `width` digits at least. -/
def zeroPadded (width n : Nat) : List Char :=
  let ds := decimal n
  List.replicate (width - ds.length) '0' ++ ds

/-- The decimal text of an integer. -/
def integerText (n : Int) : List Char :=
  if n < 0 then '-' :: decimal n.natAbs else decimal n.natAbs

namespace NumberLayout

/-- A power of ten after the digits: `e`, a sign and the digits of the exponent. -/
def power (l : NumberLayout) (mark : Char) (e : Int) : List Char :=
  mark :: (if e < 0 then '-' else '+') :: zeroPadded l.exponentDigits e.natAbs

/-- The text of the digits `ds`, the first of which stands for a multiple of `10 ^ e`. -/
def place (l : NumberLayout) (ds : List Char) (e : Int) : List Char :=
  if l.positionalFrom ≤ e ∧ e < l.positionalBelow then
    if e < 0 then '0' :: '.' :: List.replicate ((-e).toNat - 1) '0' ++ ds
    else
      let whole := e.toNat + 1
      let front := ds.take whole ++ List.replicate (whole - ds.length) '0'
      match ds.drop whole with
      | [] => if l.wholePoint then front ++ ['.', '0'] else front
      | back => front ++ '.' :: back
  else
    match ds with
    | [] => []
    | [d] => d :: l.power 'e' e
    | d :: more => d :: '.' :: more ++ l.power 'e' e

/-- The text of a numeral. -/
def decimalText (l : NumberLayout) (d : Decimal) : List Char :=
  let ds := decimal d.digits
  l.place ds (if d.digits = 0 then 0 else ds.length - 1 + d.exponent)

/-- The text of a finite double: its shortest numeral. -/
def doubleText (l : NumberLayout) (x : Double) : List Char :=
  (if x.negative then ['-'] else []) ++ l.decimalText x.shortest

/-- The text of a double. -/
def floatingText (l : NumberLayout) : Floating → List Char
  | .finite x => l.doubleText x
  | .infinite negative => (if negative then ['-'] else []) ++ l.infinityText.toList
  | .nan => l.nanText.toList

end NumberLayout

namespace Double

/-- The magnitude with `places` digits after the point, a half rounded to the even neighbour. -/
def fixedText (x : Double) (places : Nat) : List Char :=
  let n := roundHalfEven (x.units * Nat.pow 10 places) unitsPerOne
  let ds := zeroPadded (places + 1) n
  let whole := ds.length - places
  ds.take whole ++ (if places = 0 then [] else '.' :: ds.drop whole)

/-- The magnitude rounded to `count` significant digits: these digits and the exponent of the
first. -/
def significant (x : Double) (count : Nat) : List Char × Int :=
  if x.units = 0 then (List.replicate count '0', 0)
  else
    let e := leadingExponent x.units
    let step := e + 1 - count
    let n := roundHalfEven (x.units * Nat.pow 10 (-step).toNat)
      (unitsPerOne * Nat.pow 10 step.toNat)
    let ds := decimal n
    if ds.length = count then (ds, e) else (ds.take count, e + 1)

/-- The magnitude with a power of ten and `places` digits after the point. -/
def powerText (x : Double) (places : Nat) : List Char :=
  let (ds, e) := x.significant (places + 1)
  match ds with
  | [] => []
  | [d] => d :: plainLayout.power 'e' e
  | d :: more => d :: '.' :: more ++ plainLayout.power 'e' e

/-- The magnitude with `count` significant digits, without trailing zeros unless `keep` is set,
positional while the exponent is from `-4` to below `count`. -/
def generalText (x : Double) (count : Nat) (keep : Bool) : List Char :=
  let count := max count 1
  let (ds, e) := x.significant count
  let ds := if keep then ds
    else match (ds.reverse.dropWhile (· == '0')).reverse with
      | [] => ['0']
      | kept => kept
  { plainLayout with positionalBelow := count, wholePoint := false }.place ds e

end Double

end StructuredOutput

import StructuredOutput.Number.Decimal
import StructuredOutput.Text.Blank
import StructuredOutput.Text.Digit
import StructuredOutput.Text.Case

/-!
Reading numbers from text as people write them: blanks around, a sign, digits of any script grouped
by underscores, a fraction, a power of ten, and the words for infinity and the undefined number.
-/

namespace StructuredOutput

open Text

/-- The ASCII form of a numeral's character: a digit of any script becomes an ASCII digit and a
blank outside ASCII a space. Any other character outside ASCII becomes a question mark. -/
def numeralChar (c : Char) : Char :=
  if c.toNat < 0x80 then c
  else if isBlank c then ' '
  else match digit? c with
    | some d => Nat.digitChar d
    | none => '?'

/-- Blanks that may surround a numeral once it is in ASCII. -/
def isNumeralBlank (c : Char) : Bool := c = ' ' || (9 ≤ c.toNat && c.toNat ≤ 13)

/-- The value of a power of ten after the digits: a mark `e`, a sign and digits; zero if there is
none at all. -/
def exponent? (cs : List Char) : Option Int :=
  match cs with
  | [] => some 0
  | c :: rest =>
    if c = 'e' ∨ c = 'E' then
      let (negative, ds) := match rest with
        | '-' :: more => (true, more)
        | '+' :: more => (false, more)
        | _ => (false, rest)
      if ds ≠ [] ∧ ds.all Char.isDigit then
        let n : Int := (ofDigits (ds.filterMap asciiDigit?) : Nat)
        some (if negative then -n else n)
      else none
    else none

/-- Reads an unsigned numeral: digits with at most one point among them, then a power of ten. -/
def unsignedNumeral? (cs : List Char) : Option Decimal :=
  let whole := cs.takeWhile Char.isDigit
  let (fraction, rest) := match cs.dropWhile Char.isDigit with
    | '.' :: more => (more.takeWhile Char.isDigit, more.dropWhile Char.isDigit)
    | more => ([], more)
  if whole = [] ∧ fraction = [] then none
  else
    (exponent? rest).map fun e =>
      ⟨ofDigits ((whole ++ fraction).filterMap asciiDigit?), e - fraction.length⟩

/-- Removes the underscores of a numeral, each of which must stand between two digits. -/
def ungroup (before : Option Char) : List Char → Option (List Char)
  | [] => some []
  | '_' :: c :: rest =>
    if before.any Char.isDigit ∧ c.isDigit then (ungroup (some c) rest).map (c :: ·) else none
  | '_' :: [] => none
  | c :: rest => (ungroup (some c) rest).map (c :: ·)

/-- Reads a number. -/
def Floating.ofText? (text : List Char) : Option Floating :=
  let cs := (text.map numeralChar).dropWhile isNumeralBlank
  let cs := (cs.reverse.dropWhile isNumeralBlank).reverse
  let (negative, body) := match cs with
    | '-' :: more => (true, more)
    | '+' :: more => (false, more)
    | _ => (false, cs)
  let word := String.ofList (body.map lowerAscii)
  if word = "inf" ∨ word = "infinity" then some (.infinite negative)
  else if word = "nan" then some .nan
  else do
    let digits ← ungroup none body
    let d ← unsignedNumeral? digits
    pure (d.toFloating negative)

end StructuredOutput

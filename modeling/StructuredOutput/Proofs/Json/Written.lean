import StructuredOutput.Json.Reader

/-!
JSON values as they are written: tokens with the blanks between them. Strings are written without
`\u`. A part of a container has a label, which is the key and its colon in an object and nothing
in an array.
-/

namespace StructuredOutput.Json

open Text

/-! ### Tokens -/

/-- Blanks between tokens. -/
structure Gap where
  chars : List Char
  blank : ∀ c ∈ chars, isSpace c = true

namespace Gap

def none : Gap := ⟨[], fun _ h => absurd h List.not_mem_nil⟩

def take (g : Gap) (n : Nat) : Gap :=
  ⟨g.chars.take n, fun c hc => g.blank c (List.mem_of_mem_take hc)⟩

end Gap

/-- A character of a string as it is written: itself, or a backslash and a letter. -/
inductive Piece where
  | plain (c : Char) (quotable : c ≠ '"' ∧ c ≠ '\\' ∧ 0x20 ≤ c.toNat)
  | escape (letter c : Char) (stands : escaped? letter = some c)

namespace Piece

def text : Piece → List Char
  | plain c _ => [c]
  | escape letter _ _ => ['\\', letter]

def char : Piece → Char
  | plain c _ => c
  | escape _ c _ => c

end Piece

/-- The text of a string between its quotation marks. -/
def innerText (pieces : List Piece) : List Char := pieces.flatMap Piece.text

/-- The text of a string. -/
def quotedText (pieces : List Piece) : List Char := '"' :: innerText pieces ++ ['"']

/-- The string that pieces stand for. -/
def stringOf (pieces : List Piece) : String := String.ofList (pieces.map Piece.char)

/-- A power of ten as it is written. -/
structure Power where
  mark : Char
  sign : Option Bool
  digits : List Char
  mark_ok : mark = 'e' ∨ mark = 'E'
  digits_ne : digits ≠ []
  digits_ok : ∀ c ∈ digits, c.isDigit = true

namespace Power

/-- The text of a sign, which is a minus sign for `true`. -/
def signText : Option Bool → List Char
  | some true => ['-']
  | some false => ['+']
  | none => []

def text (p : Power) : List Char := p.mark :: signText p.sign ++ p.digits

def value (p : Power) : Int :=
  let n : Int := (ofDigits (p.digits.filterMap asciiDigit?) : Nat)
  if p.sign = some true then -n else n

end Power

/-- A number as it is written; an empty fraction is none. -/
structure Numeral where
  negative : Bool
  whole : List Char
  fraction : List Char
  power : Option Power
  whole_ok : whole = ['0'] ∨ whole.head? ≠ some '0' ∧ whole ≠ []
  whole_digits : ∀ c ∈ whole, c.isDigit = true
  fraction_digits : ∀ c ∈ fraction, c.isDigit = true
  short : fraction = [] → power = none → whole.length ≤ integerLimit

namespace Numeral

def fractionText (n : Numeral) : List Char :=
  match n.fraction with
  | [] => []
  | c :: cs => '.' :: c :: cs

def powerText (n : Numeral) : List Char :=
  match n.power with
  | none => []
  | some p => p.text

def text (n : Numeral) : List Char :=
  (if n.negative then ['-'] else []) ++ (n.whole ++ (n.fractionText ++ n.powerText))

/-- The number, which is an integer if it has neither fraction nor power of ten. -/
def json (n : Numeral) : Json :=
  match n.fraction, n.power with
  | [], none =>
    let m : Int := (ofDigits (n.whole.filterMap asciiDigit?) : Nat)
    .integer (if n.negative then -m else m)
  | _, _ =>
    let digits := ofDigits ((n.whole ++ n.fraction).filterMap asciiDigit?)
    let exponent := (n.power.map Power.value).getD 0
    .real (Decimal.toFloating ⟨digits, exponent - n.fraction.length⟩ n.negative)

end Numeral

/-- A minus sign, if a number has one. -/
def minusText (negative : Bool) : List Char := if negative then ['-'] else []

/-- A number literal; an empty fraction is none. -/
structure Literal where
  negative : Bool
  whole : List Char
  fraction : List Char
  power : Option Power
  whole_ok : whole = ['0'] ∨ whole.head? ≠ some '0' ∧ whole ≠ []
  whole_digits : ∀ c ∈ whole, c.isDigit = true
  fraction_digits : ∀ c ∈ fraction, c.isDigit = true

/-- A number literal without its bound on the length. -/
def Numeral.literal (n : Numeral) : Literal :=
  ⟨n.negative, n.whole, n.fraction, n.power, n.whole_ok, n.whole_digits, n.fraction_digits⟩

namespace Literal

def fractionText (l : Literal) : List Char :=
  match l.fraction with
  | [] => []
  | c :: cs => '.' :: c :: cs

def powerText (l : Literal) : List Char :=
  match l.power with
  | none => []
  | some p => p.text

def text (l : Literal) : List Char :=
  minusText l.negative ++ (l.whole ++ (l.fractionText ++ l.powerText))

/-- Whether a literal has neither fraction nor power of ten. -/
def IsWhole (l : Literal) : Prop := l.fraction = [] ∧ l.power = none

end Literal

/-! ### Values -/

/-- What stands before a value inside a container, `keyed` if that is an object. -/
inductive Label : (keyed : Bool) → Type
  | none : Label false
  | key (pieces : List Piece) (before after : Gap) : Label true

namespace Label

def text {keyed : Bool} : Label keyed → List Char
  | none => []
  | key pieces before after => quotedText pieces ++ before.chars ++ ':' :: after.chars

/-- The key of a label, which is empty in an array. -/
def name {keyed : Bool} : Label keyed → String
  | none => ""
  | key pieces _ _ => stringOf pieces

end Label

def openBracket (keyed : Bool) : Char := if keyed then '\x7b' else '['

def closeBracket (keyed : Bool) : Char := if keyed then '\x7d' else ']'

mutual

/-- A value as it is written. -/
inductive Written : Type
  | null
  | bool (b : Bool)
  | number (n : Numeral)
  | text (pieces : List Piece)
  | empty (keyed : Bool) (inside : Gap)
  | container (keyed : Bool) (before : Gap) (parts : Parts keyed)

/-- The parts of a container that is not empty, up to its closing bracket. -/
inductive Parts : (keyed : Bool) → Type
  | last {keyed : Bool} (label : Label keyed) (value : Written) (after : Gap) : Parts keyed
  | more {keyed : Bool} (label : Label keyed) (value : Written) (after before : Gap)
      (rest : Parts keyed) : Parts keyed

end

/-- The text of a truth value. -/
def boolText (b : Bool) : List Char := if b then "true".toList else "false".toList

mutual

def Written.chars : Written → List Char
  | .null => "null".toList
  | .bool b => boolText b
  | .number n => n.text
  | .text pieces => quotedText pieces
  | .empty keyed inside => openBracket keyed :: inside.chars ++ [closeBracket keyed]
  | .container keyed before parts => openBracket keyed :: before.chars ++ parts.chars

def Parts.chars {keyed : Bool} : Parts keyed → List Char
  | .last label value after =>
    label.text ++ (value.chars ++ (after.chars ++ [closeBracket keyed]))
  | .more label value after before rest =>
    label.text ++ (value.chars ++ (after.chars ++ ',' :: (before.chars ++ rest.chars)))

end

/-- The JSON data of a container. -/
def ofParts (keyed : Bool) (parts : List (String × Json)) : Json :=
  if keyed then .object (Entries.ofList parts) else .array (parts.map (·.2))

mutual

/-- The JSON data that is written. -/
def Written.json : Written → Json
  | .null => .null
  | .bool b => .bool b
  | .number n => n.json
  | .text pieces => .string (stringOf pieces)
  | .empty keyed _ => ofParts keyed []
  | .container keyed _ parts => ofParts keyed parts.json

/-- The data of parts with their keys, which are empty in an array. -/
def Parts.json {keyed : Bool} : Parts keyed → List (String × Json)
  | .last label value _ => [(label.name, value.json)]
  | .more label value _ _ rest => (label.name, value.json) :: rest.json

end

mutual

/-- How deep containers are nested. -/
def Written.depth : Written → Nat
  | .null | .bool _ | .number _ | .text _ => 0
  | .empty _ _ => 1
  | .container _ _ parts => parts.depth + 1

def Parts.depth {keyed : Bool} : Parts keyed → Nat
  | .last _ value _ => value.depth
  | .more _ value _ _ rest => max value.depth rest.depth

end

mutual

/-- No object repeats a key. -/
def Written.KeysDiffer : Written → Prop
  | .null | .bool _ | .number _ | .text _ | .empty _ _ => True
  | .container keyed _ parts =>
    (keyed = true → (Entries.names parts.json).Nodup) ∧ parts.KeysDiffer

def Parts.KeysDiffer {keyed : Bool} : Parts keyed → Prop
  | .last _ value _ => value.KeysDiffer
  | .more _ value _ _ rest => value.KeysDiffer ∧ rest.KeysDiffer

end

/-- A whole text: a value with blanks around it. -/
structure Document where
  before : Gap
  value : Written
  after : Gap

def Document.chars (d : Document) : List Char := d.before.chars ++ (d.value.chars ++ d.after.chars)

end StructuredOutput.Json

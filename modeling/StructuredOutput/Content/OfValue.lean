import StructuredOutput.Content
import StructuredOutput.Number.Numeral
import StructuredOutput.Value.Shown

/-!
Content trees of plain data, and back: numbers in any form, and values made of JSON's own kinds.
-/

namespace StructuredOutput

/-- Why a value has no content tree. -/
inductive DataFault where
  | number (fault : NumberFault)
  | keyNotText (key : String)
  | unsupported (typeName : String)
  deriving DecidableEq

def DataFault.message : DataFault → String
  | .number fault => fault.message
  | .keyNotText key => "Object keys must be strings, got " ++ key
  | .unsupported typeName => "Unsupported JSON value: " ++ typeName

namespace Content

/-- The number that a text spells, where `shown` is the written form of the text. -/
def ofNumeral (text : List Char) (shown : String) : Except NumberFault Content :=
  match Floating.ofText? text with
  | none => .error (.notNumeral shown)
  | some (.finite x) => .ok (number x)
  | some _ => .error (.notFinite shown)

/-- A byte as a character of a numeral; those outside ASCII are in none. -/
def numeralByte (b : UInt8) : Char := if b < 0x80 then Char.ofNat b.toNat else '?'

/-- The number that a value is or spells. -/
def ofNumber (ds : Declarations) (v : Value) : Except NumberFault Content :=
  match v.base with
  | .bool _ => .error .truthValue
  | .integer n => ofInteger n
  | .real x => ofFloating x
  | .text s => ofNumeral s.toList (v.shown ds)
  | .bytes bs => ofNumeral (bs.map numeralByte) (v.shown ds)
  | _ => .error (.notNumber (v.typeName ds))

/-- A number, text or truth value, or none if the value is of another kind. -/
def ofScalar? (v : Value) : Option (Except NumberFault Content) :=
  match v.base with
  | .null => some (.ok null)
  | .bool b => some (.ok (bool b))
  | .integer n => some (ofInteger n)
  | .real x => some (ofFloating x)
  | .text s => some (.ok (string s))
  | _ => none

mutual

/-- The content of plain data: texts as keys, sequences as arrays, bytes as arrays of numbers. -/
def ofValue (ds : Declarations) (v : Value) : Except DataFault Content :=
  match ofScalar? v with
  | some result => result.mapError .number
  | none =>
    match v with
    | .list items => (ofValues ds items).map array
    | .tuple items => (ofValues ds items).map array
    | .bytes bs => (bs.mapM fun b => (ofInteger b.toNat).mapError DataFault.number).map array
    | .dict entries => (ofDict ds entries).map ofEntries
    | v => .error (.unsupported (v.typeName ds))

def ofValues (ds : Declarations) : List Value → Except DataFault (List Content)
  | [] => .ok []
  | v :: vs => do
    let c ← ofValue ds v
    let cs ← ofValues ds vs
    .ok (c :: cs)

def ofDict (ds : Declarations) : List (Value × Value) → Except DataFault (List (String × Content))
  | [] => .ok []
  | (k, v) :: es =>
    match k.asText? with
    | none => .error (.keyNotText (k.shown ds))
    | some key => do
      let c ← ofValue ds v
      let cs ← ofDict ds es
      .ok ((key, c) :: cs)

end

/-- The number of a double as plain data: an integer if the value is one and below `safeLimit`. -/
def plainNumber (x : Double) : Value :=
  if x.isIntegral && x.magnitudeBelow safeLimit then .integer x.truncate else .real (.finite x)

mutual

/-- The plain data of a tree. -/
def toValue : Content → Value
  | null => .null
  | bool b => .bool b
  | number x => plainNumber x
  | string s => .text s
  | array items => .list (toValues items)
  | object entries => .dict (toDict entries)

def toValues : List Content → List Value
  | [] => []
  | c :: cs => toValue c :: toValues cs

def toDict : List (String × Content) → List (Value × Value)
  | [] => []
  | (k, c) :: cs => (.text k, toValue c) :: toDict cs

end

end Content

end StructuredOutput

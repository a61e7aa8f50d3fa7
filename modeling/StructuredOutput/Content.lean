import StructuredOutput.Entries
import StructuredOutput.Json.Writer
import StructuredOutput.Path

/-!
Content trees: the data that is exchanged with a model. Every number is a finite double, and the
entries of an object keep their order.
-/

namespace StructuredOutput

/-- The kinds of content. -/
inductive Kind where
  | null | bool | number | string | array | object
  deriving DecidableEq

def Kind.name : Kind → String
  | .null => "null"
  | .bool => "bool"
  | .number => "number"
  | .string => "string"
  | .array => "array"
  | .object => "object"

/-- A content tree. -/
inductive Content where
  | null
  | bool (value : Bool)
  | number (value : Double)
  | string (value : String)
  | array (items : List Content)
  | object (entries : List (String × Content))

/-- Content of another kind than is required at a place. -/
structure KindMismatch where
  expected : String
  actual : String
  path : Path
  deriving DecidableEq

/-- What is said of content of another kind than required. -/
def KindMismatch.message (m : KindMismatch) : String :=
  m.path.text ++ ": expected " ++ m.expected ++ ", got " ++ m.actual

/-- Why a value is no number of a content tree. -/
inductive NumberFault where
  | truthValue
  | notFinite (value : String)
  | tooLarge
  | notNumeral (text : String)
  | notNumber (typeName : String)
  deriving DecidableEq

/-- What is said of a value that is no number. -/
def NumberFault.message : NumberFault → String
  | .truthValue => "number() does not accept bool; use boolean()."
  | .notFinite value => s!"number() requires a finite value, got {value}"
  | .tooLarge => "number() requires a value representable as a float"
  | .notNumeral text => s!"could not convert string to float: {text}"
  | .notNumber typeName =>
    "float() argument must be a string or a real number, not '" ++ typeName ++ "'"

namespace Content

def kind : Content → Kind
  | null => .null
  | bool _ => .bool
  | number _ => .number
  | string _ => .string
  | array _ => .array
  | object _ => .object

def isNull (c : Content) : Bool := c.kind == .null

/-- An object with the given entries; a repeated key keeps its first place and its last value. -/
def ofEntries (entries : List (String × Content)) : Content := object (Entries.ofList entries)

mutual

/-- Equality of trees: numbers by value, entries in order. -/
def same : Content → Content → Bool
  | null, null => true
  | bool a, bool b => a == b
  | number x, number y => x.sameValue y
  | string s, string t => s == t
  | array xs, array ys => sameItems xs ys
  | object xs, object ys => sameEntries xs ys
  | _, _ => false

def sameItems : List Content → List Content → Bool
  | [], [] => true
  | x :: xs, y :: ys => same x y && sameItems xs ys
  | _, _ => false

def sameEntries : List (String × Content) → List (String × Content) → Bool
  | [], [] => true
  | (k, x) :: xs, (l, y) :: ys => k == l && same x y && sameEntries xs ys
  | _, _ => false

end

/-! ### Access by kind -/

/-- What is said of content that is not of the kind required. -/
def mismatch {α : Type} (c : Content) (expected : Kind) (path : Path) : Except KindMismatch α :=
  .error ⟨expected.name, c.kind.name, path⟩

def asObject (c : Content) (path : Path) : Except KindMismatch (List (String × Content)) :=
  match c with
  | object entries => .ok entries
  | _ => c.mismatch .object path

def asArray (c : Content) (path : Path) : Except KindMismatch (List Content) :=
  match c with
  | array items => .ok items
  | _ => c.mismatch .array path

def asString (c : Content) (path : Path) : Except KindMismatch String :=
  match c with
  | string s => .ok s
  | _ => c.mismatch .string path

def asNumber (c : Content) (path : Path) : Except KindMismatch Double :=
  match c with
  | number x => .ok x
  | _ => c.mismatch .number path

def asBool (c : Content) (path : Path) : Except KindMismatch Bool :=
  match c with
  | bool b => .ok b
  | _ => c.mismatch .bool path

/-! ### JSON -/

/-- The number of a double as arithmetic yields it, if it is finite. -/
def ofFinite (otherwise : NumberFault) : Floating → Except NumberFault Content
  | .finite x => .ok (number x)
  | _ => .error otherwise

/-- The number of an integer. -/
def ofInteger (n : Int) : Except NumberFault Content := ofFinite .tooLarge (Floating.ofInt n)

/-- The number of a double, which must be finite. -/
def ofFloating : Floating → Except NumberFault Content
  | .finite x => .ok (number x)
  | x => .error (.notFinite (String.ofList (plainLayout.floatingText x)))

mutual

/-- The content of JSON data. -/
def ofJson : Json → Except NumberFault Content
  | .null => .ok null
  | .bool b => .ok (bool b)
  | .integer n => ofInteger n
  | .real x => ofFloating x
  | .string s => .ok (string s)
  | .array items => (ofItems items).map array
  | .object entries => (ofJsonEntries entries).map ofEntries

def ofItems : List Json → Except NumberFault (List Content)
  | [] => .ok []
  | j :: js => do
    let c ← ofJson j
    let cs ← ofItems js
    .ok (c :: cs)

def ofJsonEntries : List (String × Json) → Except NumberFault (List (String × Content))
  | [] => .ok []
  | (k, j) :: js => do
    let c ← ofJson j
    let cs ← ofJsonEntries js
    .ok ((k, c) :: cs)

end

/-- Whole numbers from here on may not be told apart as doubles. -/
def safeLimit : Nat := 0x20000000000000

/-- The JSON number of a double: an integer if the value is one and below `safeLimit`. -/
def jsonNumber (x : Double) : Json :=
  if x.isIntegral && x.magnitudeBelow safeLimit then .integer x.truncate else .real (.finite x)

mutual

/-- The JSON data of a tree. -/
def toJson : Content → Json
  | null => .null
  | bool b => .bool b
  | number x => jsonNumber x
  | string s => .string s
  | array items => .array (toItems items)
  | object entries => .object (toEntries entries)

def toItems : List Content → List Json
  | [] => []
  | c :: cs => toJson c :: toItems cs

def toEntries : List (String × Content) → List (String × Json)
  | [] => []
  | (k, c) :: cs => (k, toJson c) :: toEntries cs

end

/-- The JSON text of a tree, on one line or with items indented. -/
def serialize (c : Content) (indent : Option Nat) : String :=
  c.toJson.write (Json.styleFor indent)

end Content

end StructuredOutput

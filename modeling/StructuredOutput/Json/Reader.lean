import StructuredOutput.Entries
import StructuredOutput.Json.Tree
import StructuredOutput.Number.Decimal
import StructuredOutput.Text.Digit

/-!
Reading JSON text. The reader works on the remaining characters; a fault keeps the characters from
its place on, which gives its line and column in the whole text. Nesting deeper than
`nestingLimit` and integers longer than `integerLimit` are refused.
-/

namespace StructuredOutput.Json

open Text

/-- How deep containers may nest. -/
def nestingLimit : Nat := 1000

/-- How many digits an integer may have. -/
def integerLimit : Nat := 4300

/-- What is wrong with a text. -/
inductive Fault where
  | value
  | comma
  | colon
  | propertyName
  | unterminatedString
  | escape
  | unicodeEscape
  | controlCharacter
  | extraData
  | byteOrderMark
  | nonFinite (word : String)
  | longInteger (digits : Nat)
  | tooDeep
  deriving DecidableEq

/-- A fault and the text from its place on. -/
structure Failure where
  fault : Fault
  rest : List Char

/-- The result of reading at the front of a text: a value and what follows it. -/
abbrev Result (α : Type) := Except Failure (α × List Char)

def isSpace (c : Char) : Bool := c = ' ' || c = '\t' || c = '\n' || c = '\r'

def skipSpace (cs : List Char) : List Char := cs.dropWhile isSpace

/-- The character that an escape letter stands for. -/
def escaped? (c : Char) : Option Char :=
  match c with
  | '"' => some '"'
  | '\\' => some '\\'
  | '/' => some '/'
  | 'b' => some (Char.ofNat 8)
  | 'f' => some (Char.ofNat 12)
  | 'n' => some '\n'
  | 'r' => some '\r'
  | 't' => some '\t'
  | _ => none

/-- The code unit of four hexadecimal digits. -/
def hexUnit? (a b c d : Char) : Option Nat := do
  let a ← hexDigit? a
  let b ← hexDigit? b
  let c ← hexDigit? c
  let d ← hexDigit? d
  pure (((a * 16 + b) * 16 + c) * 16 + d)

def isHighSurrogate (n : Nat) : Bool := 0xd800 ≤ n && n < 0xdc00

def isLowSurrogate (n : Nat) : Bool := 0xdc00 ≤ n && n < 0xe000

/-- The character of a code unit that is not part of a pair; a lone surrogate has none and is
replaced. -/
def unitChar (n : Nat) : Char :=
  if isHighSurrogate n || isLowSurrogate n then Char.ofNat 0xfffd else Char.ofNat n

/-- The character of a surrogate pair. -/
def pairChar (high low : Nat) : Char :=
  Char.ofNat (0x10000 + (high - 0xd800) * 0x400 + (low - 0xdc00))

/-- The four digits after `\u` and what follows them, which must not be the end of the text. -/
def unicodeUnit? : List Char → Option (Nat × List Char)
  | a :: b :: c :: d :: e :: rest => (hexUnit? a b c d).map (·, e :: rest)
  | _ => none

/-- Reads a string after its opening quotation mark; `start` is the text from that mark on. -/
def stringBody (start : List Char) : (fuel : Nat) → List Char → Result (List Char)
  | 0, cs => .error ⟨.tooDeep, cs⟩
  | _ + 1, [] => .error ⟨.unterminatedString, start⟩
  | fuel + 1, c :: rest =>
    if c = '"' then .ok ([], rest)
    else if c = '\\' then
      match rest with
      | [] => .error ⟨.unterminatedString, start⟩
      | 'u' :: more =>
        match unicodeUnit? more with
        | none => .error ⟨.unicodeEscape, rest⟩
        | some (n, after) =>
          match isHighSurrogate n, after with
          | true, '\\' :: 'u' :: second =>
            if second.length < 5 then prepend (unitChar n) (stringBody start fuel after)
            else
              match unicodeUnit? second with
              | none => .error ⟨.unicodeEscape, 'u' :: second⟩
              | some (m, beyond) =>
                if isLowSurrogate m then prepend (pairChar n m) (stringBody start fuel beyond)
                else prepend (unitChar n) (stringBody start fuel after)
          | _, _ => prepend (unitChar n) (stringBody start fuel after)
      | e :: more =>
        match escaped? e with
        | some ch => prepend ch (stringBody start fuel more)
        | none => .error ⟨.escape, c :: rest⟩
    else if c.toNat < 0x20 then .error ⟨.controlCharacter, c :: rest⟩
    else prepend c (stringBody start fuel rest)
where
  /-- Puts a character before a string that has been read. -/
  prepend (c : Char) (r : Result (List Char)) : Result (List Char) :=
    r.map fun (cs, rest) => (c :: cs, rest)

/-- Reads a string whose opening quotation mark is the first character of `start`. -/
def readString (start : List Char) : Result String :=
  (stringBody start (start.length + 1) start.tail).map fun (cs, rest) => (String.ofList cs, rest)

/-- The digits of a fraction and what follows; none unless a digit follows the point. -/
def fractionPart (cs : List Char) : List Char × List Char :=
  match cs with
  | '.' :: d :: more =>
    if d.isDigit then ((d :: more).takeWhile Char.isDigit, (d :: more).dropWhile Char.isDigit)
    else ([], cs)
  | _ => ([], cs)

/-- The sign and digits of a power of ten and what follows; none unless there is a digit. -/
def exponentPart (cs : List Char) : Option Int × List Char :=
  match cs with
  | e :: more =>
    if e = 'e' ∨ e = 'E' then
      let (negative, ds) := match more with
        | '-' :: ds => (true, ds)
        | '+' :: ds => (false, ds)
        | _ => (false, more)
      match ds.takeWhile Char.isDigit with
      | [] => (none, cs)
      | digits =>
        let n : Int := (ofDigits (digits.filterMap asciiDigit?) : Nat)
        (some (if negative then -n else n), ds.dropWhile Char.isDigit)
    else (none, cs)
  | [] => (none, cs)

/-- The digits before the point and what follows: a zero, or digits that do not begin with one. -/
def wholePart (cs : List Char) : List Char × List Char :=
  match cs with
  | '0' :: more => (['0'], more)
  | _ => (cs.takeWhile Char.isDigit, cs.dropWhile Char.isDigit)

/-- Reads a number. Without a fraction and a power of ten it is an integer. -/
def readNumber (cs : List Char) : Result Json :=
  let (negative, body) := match cs with
    | '-' :: more => (true, more)
    | _ => (false, cs)
  match wholePart body with
  | ([], _) => .error ⟨.value, cs⟩
  | (whole, afterWhole) =>
    let (fraction, afterFraction) := fractionPart afterWhole
    let (exponent, rest) := exponentPart afterFraction
    match fraction, exponent with
    | [], none =>
      if integerLimit < whole.length then .error ⟨.longInteger whole.length, cs⟩
      else
        let n : Int := (ofDigits (whole.filterMap asciiDigit?) : Nat)
        .ok (.integer (if negative then -n else n), rest)
    | _, _ =>
      let digits := ofDigits ((whole ++ fraction).filterMap asciiDigit?)
      .ok (.real (Decimal.toFloating ⟨digits, exponent.getD 0 - fraction.length⟩ negative), rest)

/-- The words that are values, and those that are refused. -/
def words : List (String × Except Fault Json) :=
  [("null", .ok .null), ("true", .ok (.bool true)), ("false", .ok (.bool false)),
    ("NaN", .error (.nonFinite "NaN")), ("Infinity", .error (.nonFinite "Infinity")),
    ("-Infinity", .error (.nonFinite "-Infinity"))]

/-- Reads a word or a number. -/
def readScalar (cs : List Char) : Result Json :=
  match words.find? fun w => w.1.toList.isPrefixOf cs with
  | some (word, .ok v) => .ok (v, cs.drop word.length)
  | some (_, .error fault) => .error ⟨fault, cs⟩
  | none => readNumber cs

mutual

/-- Reads a value at the front of a text. `depth` more levels of containers are allowed. -/
def readValue : (fuel depth : Nat) → List Char → Result Json
  | 0, _, cs => .error ⟨.tooDeep, cs⟩
  | fuel + 1, depth, cs =>
    match cs with
    | '"' :: _ => (readString cs).map fun (s, rest) => (.string s, rest)
    | '[' :: rest =>
      match depth with
      | 0 => .error ⟨.tooDeep, cs⟩
      | depth + 1 =>
        match skipSpace rest with
        | ']' :: after => .ok (.array [], after)
        | inside => (readItems fuel depth inside).map fun (items, after) => (.array items, after)
    | '{' :: rest =>
      match depth with
      | 0 => .error ⟨.tooDeep, cs⟩
      | depth + 1 =>
        match skipSpace rest with
        | '}' :: after => .ok (.object [], after)
        | inside =>
          (readEntries fuel depth inside).map fun (entries, after) =>
            (.object (Entries.ofList entries), after)
    | _ => readScalar cs

/-- Reads the items of an array up to its closing bracket. -/
def readItems : (fuel depth : Nat) → List Char → Result (List Json)
  | 0, _, cs => .error ⟨.tooDeep, cs⟩
  | fuel + 1, depth, cs =>
    match readValue fuel depth cs with
    | .error e => .error e
    | .ok (item, rest) =>
      match skipSpace rest with
      | ']' :: after => .ok ([item], after)
      | ',' :: more =>
        (readItems fuel depth (skipSpace more)).map fun (items, after) => (item :: items, after)
      | other => .error ⟨.comma, other⟩

/-- Reads the entries of an object up to its closing brace. -/
def readEntries : (fuel depth : Nat) → List Char → Result (List (String × Json))
  | 0, _, cs => .error ⟨.tooDeep, cs⟩
  | fuel + 1, depth, cs =>
    match cs with
    | '"' :: _ =>
      match readString cs with
      | .error e => .error e
      | .ok (key, afterKey) =>
        match skipSpace afterKey with
        | ':' :: afterColon =>
          match readValue fuel depth (skipSpace afterColon) with
          | .error e => .error e
          | .ok (value, rest) =>
            match skipSpace rest with
            | '}' :: after => .ok ([(key, value)], after)
            | ',' :: more =>
              (readEntries fuel depth (skipSpace more)).map fun (entries, after) =>
                ((key, value) :: entries, after)
            | other => .error ⟨.comma, other⟩
        | other => .error ⟨.colon, other⟩
    | _ => .error ⟨.propertyName, cs⟩

end

/-- Enough steps to read any text of this length. -/
def fuelFor (cs : List Char) : Nat := 2 * cs.length + 2

/-- Reads the value at the front of a text. -/
def readPrefix (cs : List Char) : Result Json := readValue (fuelFor cs) nestingLimit cs

/-- Reads a whole text: one value with blanks around it. -/
def readWhole (cs : List Char) : Except Failure Json :=
  match readPrefix (skipSpace cs) with
  | .error e => .error e
  | .ok (value, rest) =>
    match skipSpace rest with
    | [] => .ok value
    | other => .error ⟨.extraData, other⟩

/-- Reads a text that must not begin with a byte order mark. -/
def read (cs : List Char) : Except Failure Json :=
  if cs.head? = some (Char.ofNat 0xfeff) then .error ⟨.byteOrderMark, cs⟩ else readWhole cs

/-- The name of a fault that has a place, before that place is told. -/
def Fault.placed? : Fault → Option String
  | .value => some "Expecting value"
  | .comma => some "Expecting ',' delimiter"
  | .colon => some "Expecting ':' delimiter"
  | .propertyName => some "Expecting property name enclosed in double quotes"
  | .unterminatedString => some "Unterminated string starting at"
  | .escape => some "Invalid \\escape"
  | .unicodeEscape => some "Invalid \\uXXXX escape"
  | .controlCharacter => some "Invalid control character at"
  | .extraData => some "Extra data"
  | .byteOrderMark => some "Unexpected UTF-8 BOM (decode using utf-8-sig)"
  | .nonFinite _ | .longInteger _ | .tooDeep => none

/-- The place of a suffix in a text: line and column from one, and the characters before it. -/
def placeOf (text rest : List Char) : String :=
  let before := text.take (text.length - rest.length)
  let line := before.count '\n' + 1
  let column := (before.reverse.takeWhile (· != '\n')).length + 1
  s!"line {line} column {column} (char {before.length})"

/-- The message of a failure in `text`; excessive nesting has none. -/
def Failure.message? (text : List Char) (f : Failure) : Option String :=
  match f.fault.placed? with
  | some name => some s!"{name}: {placeOf text f.rest}"
  | none =>
    match f.fault with
    | .nonFinite word => some s!"Invalid JSON: non-finite literal {word} is not allowed"
    | .longInteger digits =>
      some (s!"Exceeds the limit ({integerLimit} digits) for integer string conversion: "
        ++ s!"value has {digits} digits; use sys.set_int_max_str_digits() to increase the limit")
    | _ => none

end StructuredOutput.Json

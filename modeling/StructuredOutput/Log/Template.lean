import StructuredOutput.Value.Shown

/-!
Message templates: a percent sign, flags, width, precision and a letter stand for an argument.
-/

namespace StructuredOutput.Log.Template

open Text

/-- Why a template cannot be filled in. -/
inductive Fault where
  | tooFewArguments
  | tooManyArguments
  | needsMapping
  | missingKey
  | incomplete
  | incompleteKey
  | unsupported (letter : Char) (index : Nat)
  | tooWide
  | tooPrecise
  | starNotInteger
  | notReal (letter : Char) (typeName : String)
  | notInteger (letter : Char) (typeName : String)
  | notNumber (typeName : String)
  | notCharacter
  | undefinedNumber
  /-- A number beyond what its form can hold. -/
  | overflow
  deriving DecidableEq

/-- What a fault says; a missing key and an overflow have no words. -/
def Fault.message? : Fault → Option String
  | .tooFewArguments => some "not enough arguments for format string"
  | .tooManyArguments => some "not all arguments converted during string formatting"
  | .needsMapping => some "format requires a mapping"
  | .incomplete => some "incomplete format"
  | .incompleteKey => some "incomplete format key"
  | .unsupported letter index =>
    let told := if 31 < letter.toNat ∧ letter.toNat < 127 then letter else '?'
    let code := String.ofList (Nat.toDigits 16 letter.toNat)
    some (s!"unsupported format character '{told}' (0x{code}) at index {index}")
  | .tooWide => some "width too big"
  | .tooPrecise => some "precision too big"
  | .starNotInteger => some "* wants int"
  | .notReal letter typeName => some s!"%{letter} format: a real number is required, not {typeName}"
  | .notInteger letter typeName => some s!"%{letter} format: an integer is required, not {typeName}"
  | .notNumber typeName => some s!"must be real number, not {typeName}"
  | .notCharacter => some "%c requires int or char"
  | .undefinedNumber => some "cannot convert float NaN to integer"
  | .missingKey | .overflow => none

/-- How an argument is written. -/
structure Form where
  left : Bool
  plus : Bool
  blank : Bool
  alternate : Bool
  zero : Bool
  width : Nat
  precision : Option Nat

/-- A form without any demands. -/
def Form.free : Form := ⟨false, false, false, false, false, 0, none⟩

/-- A form with a flag set. -/
def Form.flag? (f : Form) (c : Char) : Option Form :=
  match c with
  | '-' => some { f with left := true }
  | '+' => some { f with plus := true }
  | ' ' => some { f with blank := true }
  | '#' => some { f with alternate := true }
  | '0' => some { f with zero := true }
  | _ => none

/-- Fills a text up to the width of its form. -/
def Form.pad (f : Form) (cs : List Char) : List Char :=
  let blanks := List.replicate (f.width - cs.length) ' '
  if f.left then cs ++ blanks else blanks ++ cs

/-- A number: its sign, a mark for its base and its digits, with zeros or blanks up to the width. -/
def Form.padNumber (f : Form) (negative : Bool) (mark digits : List Char) : List Char :=
  let sign := if negative then ['-'] else if f.plus then ['+'] else if f.blank then [' '] else []
  let head := sign ++ mark
  if f.zero && !f.left then
    head ++ List.replicate (f.width - head.length - digits.length) '0' ++ digits
  else f.pad (head ++ digits)

/-- The integer that is written for a value with a letter that allows fractions. -/
def wholeOf (ds : Declarations) (letter : Char) (v : Value) : Except Fault Int :=
  match v.base with
  | .bool b => .ok (if b then 1 else 0)
  | .integer n => .ok n
  | .real (.finite x) => .ok x.truncate
  | .real (.infinite _) => .error .overflow
  | .real .nan => .error .undefinedNumber
  | _ => .error (.notReal letter (v.typeName ds))

/-- The integer that is written for a value with a letter for another base than ten. -/
def integerOf (ds : Declarations) (letter : Char) (v : Value) : Except Fault Int :=
  match v.base with
  | .bool b => .ok (if b then 1 else 0)
  | .integer n => .ok n
  | _ => .error (.notInteger letter (v.typeName ds))

/-- The double that is written for a value. -/
def floatingOf (ds : Declarations) (v : Value) : Except Fault Floating :=
  let ofInteger (n : Int) : Except Fault Floating :=
    match Floating.ofInt n with
    | .finite x => .ok (.finite x)
    | _ => .error .overflow
  match v.base with
  | .bool b => ofInteger (if b then 1 else 0)
  | .integer n => ofInteger n
  | .real x => .ok x
  | _ => .error (.notNumber (v.typeName ds))

/-- An integer in a base, with zeros up to the precision. -/
def Form.integer (f : Form) (base : Nat) (mark : List Char) (n : Int) : List Char :=
  let digits := Nat.toDigits base n.natAbs
  let zeros := List.replicate (f.precision.getD 0 - digits.length) '0'
  f.padNumber (n < 0) (if f.alternate then mark else []) (zeros ++ digits)

/-- Puts a point at the end of the digits that have none. -/
def pointed (cs : List Char) : List Char :=
  if cs.contains '.' then cs
  else cs.takeWhile (· != 'e') ++ '.' :: cs.dropWhile (· != 'e')

/-- A double with the letter e, f or g. -/
def Form.floating (f : Form) (letter : Char) (x : Floating) : List Char :=
  match x with
  | .nan => f.padNumber false [] "nan".toList
  | .infinite negative => f.padNumber negative [] "inf".toList
  | .finite x =>
    let places := f.precision.getD 6
    let digits :=
      if letter = 'e' then x.powerText places
      else if letter = 'f' then x.fixedText places
      else x.generalText places f.alternate
    f.padNumber x.negative [] (if f.alternate then pointed digits else digits)

/-- The text with every character outside ASCII escaped. -/
def asciiOnly (cs : List Char) : List Char :=
  cs.flatMap fun c =>
    if c.toNat < 0x80 then [c]
    else if c.toNat < 0x100 then '\\' :: 'x' :: hexDigits c.toNat 2
    else if c.toNat < 0x10000 then '\\' :: 'u' :: hexDigits c.toNat 4
    else '\\' :: 'U' :: hexDigits c.toNat 8

/-- A text cut to the precision of its form. -/
def Form.text (f : Form) (cs : List Char) : List Char :=
  f.pad (match f.precision with
    | some n => cs.take n
    | none => cs)

/-- The character of a value: itself or its code. -/
def characterOf (v : Value) : Except Fault Char :=
  match v.base with
  | .text s =>
    match s.toList with
    | [c] => .ok c
    | _ => .error .notCharacter
  | .integer n => if 0 ≤ n ∧ n < 0x110000 then .ok (Char.ofNat n.toNat) else .error .overflow
  | .bool b => .ok (Char.ofNat (if b then 1 else 0))
  | _ => .error .notCharacter

/-- Capital letters for the letters of a number. -/
def capitals (cs : List Char) : List Char := cs.map Char.toUpper

/-- A value as a letter demands it; `index` is the place of the letter. -/
def Form.value (ds : Declarations) (f : Form) (letter : Char) (index : Nat) (v : Value) :
    Except Fault (List Char) :=
  match letter with
  | 's' => .ok (f.text (v.plain ds).toList)
  | 'r' => .ok (f.text (v.shown ds).toList)
  | 'a' => .ok (f.text (asciiOnly (v.shown ds).toList))
  | 'c' => (characterOf v).map fun c => f.pad [c]
  | 'd' | 'i' | 'u' => (wholeOf ds letter v).map (f.integer 10 [])
  | 'o' => (integerOf ds letter v).map (f.integer 8 ['0', 'o'])
  | 'x' => (integerOf ds letter v).map (f.integer 16 ['0', 'x'])
  | 'X' => (integerOf ds letter v).map fun n => capitals (f.integer 16 ['0', 'x'] n)
  | 'e' | 'f' | 'g' => (floatingOf ds v).map (f.floating letter)
  | 'E' | 'F' | 'G' => (floatingOf ds v).map fun x => capitals (f.floating letter.toLower x)
  | _ => .error (.unsupported letter index)

/-- Reads flags. -/
def flags (f : Form) : List Char → Form × List Char
  | [] => (f, [])
  | c :: cs =>
    match f.flag? c with
    | some f => flags f cs
    | none => (f, c :: cs)

/-- The number of digits. -/
def numberOf (ds : List Char) : Nat := ofDigits (ds.filterMap asciiDigit?)

/-- The greatest width. -/
def widthLimit : Int := 0x7fffffffffffffff

/-- The greatest precision. -/
def precisionLimit : Int := 0x7fffffff

/-- Reads a width or a precision, which an argument gives if it is a star. `tooLarge` tells of one
that is written and beyond the limit. -/
def amount (limit : Int) (tooLarge : Fault) (args : List Value) (cs : List Char) :
    Except Fault (Int × List Value × List Char) :=
  match cs with
  | '*' :: rest =>
    match args with
    | [] => .error .tooFewArguments
    | v :: args =>
      match v.base with
      | .integer n => if n < -limit - 1 ∨ limit < n then .error .overflow else .ok (n, args, rest)
      | .bool b => .ok (if b then 1 else 0, args, rest)
      | _ => .error .starNotInteger
  | _ =>
    let n : Int := (numberOf (cs.takeWhile Char.isDigit) : Nat)
    if limit < n then .error tooLarge else .ok (n, args, cs.dropWhile Char.isDigit)

/-- Reads a key up to its closing parenthesis, inside which parentheses may be nested. -/
def key (depth : Nat) : List Char → Option (List Char × List Char)
  | [] => none
  | ')' :: rest =>
    match depth with
    | 0 => some ([], rest)
    | depth + 1 => (key depth rest).map fun (k, r) => (')' :: k, r)
  | '(' :: rest => (key (depth + 1) rest).map fun (k, r) => ('(' :: k, r)
  | c :: rest => (key depth rest).map fun (k, r) => (c :: k, r)

/-- The arguments after a key, if there is one: the value of that key. -/
def keyed (mapping : Option (List (Value × Value))) (args : List Value) (cs : List Char) :
    Except Fault (List Value × List Char) :=
  match cs with
  | '(' :: rest =>
    match mapping with
    | none => .error .needsMapping
    | some entries =>
      match key 0 rest with
      | none => .error .incompleteKey
      | some (k, after) =>
        match entries.find? fun e => e.1.same (.text (String.ofList k)) with
        | some (_, v) => .ok ([v], after)
        | none => .error .missingKey
  | _ => .ok (args, cs)

/-- Reads a precision, if there is one. -/
def precision (args : List Value) (cs : List Char) :
    Except Fault (Option Nat × List Value × List Char) :=
  match cs with
  | '.' :: rest =>
    (amount precisionLimit .tooPrecise args rest).map fun (n, args, rest) =>
      (some n.toNat, args, rest)
  | _ => .ok (none, args, cs)

/-- A placeholder after its percent sign: its text, the arguments left and what follows. -/
def placeholder (ds : Declarations) (mapping : Option (List (Value × Value))) (size : Nat)
    (args : List Value) (cs : List Char) :
    Except Fault (List Char × List Value × List Char) := do
  let (args, cs) ← keyed mapping args cs
  let (form, cs) := flags .free cs
  let (width, args, cs) ← amount widthLimit .tooWide args cs
  let (places, args, cs) ← precision args cs
  let cs := match cs with
    | 'h' :: rest => rest
    | 'l' :: rest => rest
    | 'L' :: rest => rest
    | _ => cs
  let form := { form with
    left := form.left || width < 0
    width := width.natAbs
    precision := places }
  match cs, args with
  | [], _ => .error .incomplete
  | _ :: _, [] => .error .tooFewArguments
  | letter :: rest, v :: args =>
    (form.value ds letter (size - cs.length) v).map fun text => (text, args, rest)

/-- Fills in a template with the arguments that are left, reading at most `fuel` parts. -/
def fillFrom (ds : Declarations) (mapping : Option (List (Value × Value))) (size : Nat) :
    (fuel : Nat) → List Value → List Char → Except Fault (List Char)
  | 0, _, _ => .ok []
  | _ + 1, args, [] =>
    if args.isEmpty || mapping.isSome then .ok [] else .error .tooManyArguments
  | fuel + 1, args, '%' :: '%' :: rest => (fillFrom ds mapping size fuel args rest).map ('%' :: ·)
  | fuel + 1, args, '%' :: rest => do
    let (text, args, rest) ← placeholder ds mapping size args rest
    let more ← fillFrom ds mapping size fuel args rest
    .ok (text ++ more)
  | fuel + 1, args, c :: rest => (fillFrom ds mapping size fuel args rest).map (c :: ·)

/-- Fills in a template. Without arguments it is the message itself; a single dictionary that is not
empty gives values by key. -/
def fill (ds : Declarations) (template : List Char) (args : List Value) :
    Except Fault (List Char) :=
  let mapping := match args with
    | [.dict entries] => if entries.isEmpty then none else some entries
    | _ => none
  if args.isEmpty then .ok template
  else fillFrom ds mapping template.length (template.length + 1) args template

end StructuredOutput.Log.Template

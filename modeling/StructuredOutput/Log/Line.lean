import StructuredOutput.Json.Writer
import StructuredOutput.Log.Moment
import StructuredOutput.Log.Record

/-!
Lines of a log: plain text with the context as `key=value`, or one JSON object.
-/

namespace StructuredOutput.Log

open Text

/-- The two forms of lines. -/
inductive LineForm where
  | text | json
  deriving DecidableEq

/-- An error that a record carries. -/
structure Attached where
  kind : String
  text : String
  deriving DecidableEq

/-- The text of an attached error; a missing key is quoted. -/
def Attached.line (a : Attached) : List Char :=
  let text := if a.kind = "KeyError" then quoted a.text.toList else a.text.toList
  if text.isEmpty then a.kind.toList else a.kind.toList ++ ':' :: ' ' :: text

/-- Why a record has no line. -/
inductive LineFault where
  | moment (fault : MomentFault)
  | contextNotMapping
  /-- A key that an object of JSON cannot have. -/
  | key (typeName : String)
  deriving DecidableEq

def LineFault.message? : LineFault → Option String
  | .moment fault => fault.message?
  | .contextNotMapping => none
  | .key typeName => some s!"keys must be str, int, float, bool or None, not {typeName}"

/-- ASCII without blanks, and words for the numbers that JSON has none for. -/
def jsonLineStyle : Json.Style :=
  ⟨none, ":", true, { plainLayout with nanText := "NaN", infinityText := "Infinity" }⟩

/-- A value as the key of an object. -/
def jsonKey (ds : Declarations) (v : Value) : Except LineFault String :=
  match v.base with
  | .text s => .ok s
  | .null => .ok "null"
  | .bool b => .ok (if b then "true" else "false")
  | .integer n => .ok (String.ofList (integerText n))
  | .real x => .ok (String.ofList (jsonLineStyle.numbers.floatingText x))
  | _ => .error (.key (v.typeName ds))

mutual

/-- A value as JSON; one that JSON cannot hold is a string of its written form. -/
def jsonOf (ds : Declarations) : Value → Except LineFault Json
  | .null => .ok .null
  | .bool b => .ok (.bool b)
  | .integer n => .ok (.integer n)
  | .real x => .ok (.real x)
  | .text s => .ok (.string s)
  | .list items => (jsonItems ds items).map .array
  | .tuple items => (jsonItems ds items).map .array
  | .dict entries => (jsonEntries ds entries).map .object
  | .member _ _ (.text s) true => .ok (.string s)
  | .member _ _ (.integer n) true => .ok (.integer n)
  | v => .ok (.string (v.shown ds))

def jsonItems (ds : Declarations) : List Value → Except LineFault (List Json)
  | [] => .ok []
  | v :: vs => do
    let j ← jsonOf ds v
    let js ← jsonItems ds vs
    .ok (j :: js)

def jsonEntries (ds : Declarations) :
    List (Value × Value) → Except LineFault (List (String × Json))
  | [] => .ok []
  | (k, v) :: es => do
    let key ← jsonKey ds k
    let j ← jsonOf ds v
    let js ← jsonEntries ds es
    .ok ((key, j) :: js)

end

namespace Record

/-- What stands before the attached error in a line of text, without the time. -/
def headline (r : Record) : List Char :=
  (levelName r.level).toList ++ ' ' :: r.logger.toList ++ ' ' :: r.message.toList

/-- The attached error on lines of its own. -/
def attach (line : List Char) : Option Attached → List Char
  | none => line
  | some a => (if line.getLast? = some '\n' then line else line ++ ['\n']) ++ a.line

/-- Event and context at the end of a line of text. -/
def trailer (ds : Declarations) (r : Record) : Except LineFault (List Char) :=
  let event := match r.event with
    | .null => []
    | v => ' ' :: '[' :: (v.plain ds).toList ++ [']']
  if r.context.isFalsy then .ok event
  else
    match r.context with
    | .dict entries =>
      let pairs := entries.map fun (k, v) => k.plain ds ++ "=" ++ v.shown ds
      .ok (event ++ ' ' :: (" ".intercalate pairs).toList)
    | _ => .error .contextNotMapping

/-- The line of text without the time. -/
def untimedLine (ds : Declarations) (r : Record) (attached : Option Attached) :
    Except LineFault (List Char) :=
  (r.trailer ds).map (attach r.headline attached ++ ·)

/-- The line of text. -/
def textLine (ds : Declarations) (r : Record) (created : Double) (attached : Option Attached) :
    Except LineFault (List Char) := do
  let m ← (Moment.second? created).mapError .moment
  let line ← r.untimedLine ds attached
  .ok (m.plainText ++ ' ' :: line)

/-- The members of the JSON object, without the time. -/
def jsonMembers (ds : Declarations) (r : Record) (attached : Option Attached) :
    Except LineFault (List (String × Json)) := do
  let event ← match r.event with
    | .null => .ok []
    | v => (jsonOf ds v).map fun j => [("event", j)]
  let context ←
    if r.context.isFalsy then .ok [] else (jsonOf ds r.context).map fun j => [("context", j)]
  let failure := match attached with
    | none => []
    | some a => [("exc_info", .string (String.ofList a.line))]
  .ok ([("level", .string (levelName r.level)), ("logger", .string r.logger),
    ("message", .string r.message)] ++ event ++ context ++ failure)

/-- The JSON line. -/
def jsonLine (ds : Declarations) (r : Record) (created : Double) (attached : Option Attached) :
    Except LineFault (List Char) := do
  let m ← (Moment.micro? created).mapError .moment
  let time ← m.offsetText.mapError .moment
  let members ← r.jsonMembers ds attached
  .ok (Json.text jsonLineStyle 0 (.object (("timestamp", .string (String.ofList time)) :: members)))

/-- The line of a record in a form. -/
def line (ds : Declarations) (form : LineForm) (r : Record) (created : Double)
    (attached : Option Attached) : Except LineFault (List Char) :=
  match form with
  | .text => r.textLine ds created attached
  | .json => r.jsonLine ds created attached

end Record

end StructuredOutput.Log

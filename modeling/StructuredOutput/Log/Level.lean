import StructuredOutput.Text.Case
import StructuredOutput.Value.Shown

/-!
Levels of log records. A record is kept if its level reaches a threshold.
-/

namespace StructuredOutput.Log

open Text

/-- The levels that have names, the most severe first. -/
def levels : List (String × Int) :=
  [("CRITICAL", 50), ("ERROR", 40), ("WARNING", 30), ("INFO", 20), ("DEBUG", 10), ("NOTSET", 0)]

/-- The name of a level. -/
def levelName (level : Int) : String :=
  match levels.find? (·.2 == level) with
  | some (name, _) => name
  | none => s!"Level {level}"

/-- A threshold as it is set; a truth value counts as zero or one. -/
inductive Threshold where
  | level (value : Int)
  | truth (value : Bool)
  deriving DecidableEq

namespace Threshold

/-- Everything passes if no other threshold applies. -/
def unset : Threshold := .level 0

/-- The level of a threshold. -/
def rank : Threshold → Int
  | level n => n
  | truth b => if b then 1 else 0

/-- The threshold that applies: warnings pass where none is set. -/
def effective (t : Threshold) : Int := if t.rank = 0 then 30 else t.rank

end Threshold

/-- A text that names no level. -/
structure UnknownLevel where
  name : String
  deriving DecidableEq

def UnknownLevel.message (u : UnknownLevel) : String :=
  "Unknown log level: " ++ quotedString u.name

/-- The threshold of a value: a level by its number or, in letters of either case, by its name. Any
other value stands for `INFO`. -/
def Threshold.ofValue (v : Value) : Except UnknownLevel Threshold :=
  match v.base with
  | .bool b => .ok (.truth b)
  | .integer n => .ok (.level n)
  | .text s =>
    let name := String.ofList (s.toList.flatMap upperAscii)
    match levels.find? (·.1 == name) with
    | some (_, n) => .ok (.level n)
    | none => .error ⟨s⟩
  | _ => .ok (.level 20)

end StructuredOutput.Log

import StructuredOutput.Entries
import StructuredOutput.Log.Line

/-!
Where the log of the library goes: a threshold and at most one output of its own, beside the outputs
that a host program has.
-/

namespace StructuredOutput.Log

open Text

/-- The setup of the log. `installed` counts the outputs made so far; the last of them is in use if
there is a form. -/
structure Setup where
  threshold : Threshold
  form : Option LineForm
  installed : Nat
  deriving DecidableEq

/-- What is asked of the setup. A missing form and a level that counts as false are taken from the
environment. -/
structure Request where
  level : Value
  json : Option Bool
  force : Bool
  environment : List (String × String)

namespace Setup

/-- No threshold and no output. -/
def initial : Setup := ⟨.unset, none, 0⟩

/-- The level of a request: its own, the one of the environment, or that of `INFO`. -/
def levelOf (r : Request) : Value :=
  if r.level.isFalsy then
    match Entries.get? r.environment "STRUCTGEN_LOG_LEVEL" with
    | some s => if s.isEmpty then .integer 20 else .text s
    | none => .integer 20
  else r.level

/-- The form of lines of a request: its own or the one of the environment. -/
def formOf (r : Request) : LineForm :=
  let json := r.json.getD <|
    match Entries.get? r.environment "STRUCTGEN_LOG_FORMAT" with
    | some s => s.toList.flatMap lower == "json".toList
    | none => false
  if json then .json else .text

/-- Carries out a request: the threshold is always set, and an output that is there stays unless
the request forces a new one. -/
def apply (s : Setup) (r : Request) : Except UnknownLevel Setup :=
  (Threshold.ofValue (levelOf r)).map fun t =>
    if s.form.isSome && !r.force then { s with threshold := t }
    else ⟨t, some (formOf r), s.installed + 1⟩

end Setup

end StructuredOutput.Log

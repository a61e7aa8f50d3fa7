import StructuredOutput.Log.Level
import StructuredOutput.Log.Template
import StructuredOutput.Notice

/-!
Log records: a message with the name of an event and a context of named values.
-/

namespace StructuredOutput.Log

/-- A log record. The event is null if there is none. -/
structure Record where
  logger : String
  level : Int
  message : String
  event : Value
  context : Value

/-- A source of records. Its own context comes first in each of them. -/
structure Logger where
  name : String
  threshold : Threshold
  context : List (Value × Value)

/-- What is asked to be recorded. The context is null if there is none. -/
structure Entry where
  level : Int
  message : String
  args : List Value
  event : Value
  context : Value
  extra : Value

/-- Why nothing can be recorded. -/
inductive Fault where
  | extraNotMapping
  | contextNotMapping
  | eventMissing
  | template (fault : Template.Fault)
  deriving DecidableEq

def Fault.message? : Fault → Option String
  | .extraNotMapping => some "Structured logs require a mutable mapping for extra context."
  | .contextNotMapping => some "context must be a mapping when provided."
  | .eventMissing => some "Structured logs require an 'event' field."
  | .template fault => fault.message?

namespace Logger

/-- Lays values over a context. -/
def overlay (context more : List (Value × Value)) : List (Value × Value) :=
  more.foldl (fun acc e => Value.putEntry acc e.1 e.2) context

/-- The logger with more values in its own context. -/
def bind (l : Logger) (more : List (Value × Value)) : Logger :=
  { l with context := overlay l.context more }

/-- The event of an entry: its own one, or else the one among the extra values. -/
def eventOf (entry : Entry) (extra : List (Value × Value)) : Value :=
  match entry.event with
  | .null => ((extra.find? fun e => e.1.same (.text "event")).map (·.2)).getD .null
  | v => v

/-- Event and context of an entry: the context of the logger, then that of the entry, then the extra
values. -/
def merge (l : Logger) (entry : Entry) : Except Fault (Value × List (Value × Value)) := do
  let extra ← match entry.extra with
    | .null => .ok []
    | .dict es => .ok es
    | _ => .error .extraNotMapping
  let inline ← match entry.context with
    | .null => .ok []
    | .dict es => .ok es
    | _ => .error .contextNotMapping
  let event := eventOf entry extra
  if event.asText?.isNone then .error .eventMissing
  else
    let rest := extra.filter fun e => !(e.1.same (.text "event"))
    .ok (event, overlay (overlay l.context inline) rest)

/-- The record of an entry, unless its level is below the threshold. -/
def log (ds : Declarations) (l : Logger) (entry : Entry) : Except Fault (Option Record) :=
  if entry.level < l.threshold.effective then .ok none
  else do
    let (event, context) ← l.merge entry
    let message ← (Template.fill ds entry.message.toList entry.args).mapError .template
    .ok (some ⟨l.name, entry.level, String.ofList message, event, .dict context⟩)

end Logger

end StructuredOutput.Log

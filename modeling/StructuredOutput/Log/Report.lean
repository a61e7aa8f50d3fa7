import StructuredOutput.Log.Record

/-!
The log records of the library's own reports.
-/

namespace StructuredOutput.Notice

open Log

/-- The parts of the library that report. -/
inductive Source where
  | schema | projection | streaming
  deriving DecidableEq

/-- The name of the logger of a part. -/
def Source.logger : Source → String
  | .schema => "structgen.schema.derive"
  | .projection => "structgen.projection.core"
  | .streaming => "structgen.streaming.reconstruct"

/-- The word for a part in the context of its records. -/
def Source.component : Source → String
  | .schema => "schema"
  | .projection => "projection"
  | .streaming => "streaming"

/-- The record of a report of a part. -/
def recordOf (source : Source) (event message : String) (context : List (String × Value)) :
    Record :=
  let all := ("component", .text source.component) :: context
  ⟨source.logger, 10, message, .text event, .dict (all.map fun e => (.text e.1, e.2))⟩

/-- The record of a report. -/
def record : Notice → Record
  | schemaDerived type kind =>
    recordOf .schema "schema.derived" "Derived schema."
      [("type", .text type), ("kind", .text kind)]
  | schemaRenamed name renamed =>
    recordOf .schema "schema.renamed" "Renamed clashing schema."
      [("name", .text name), ("renamed", .text renamed)]
  | schemaProjected backend root named =>
    recordOf .projection "projection.complete" "Projected schema."
      [("backend", .text backend), ("root", .text root), ("named", .integer named)]
  | streamStateChanged target before after =>
    recordOf .streaming "stream.state_changed" "Reconstruction state changed."
      [("target", .text target), ("from", .text before), ("to", .text after)]
  | streamEventIgnored target state kind =>
    recordOf .streaming "stream.event_ignored" "Ignoring event after stream end."
      [("target", .text target), ("state", .text state), ("kind", .text kind)]
  | fragmentSkipped target length error =>
    recordOf .streaming "stream.fragment_skipped" "Skipping unparseable fragment."
      [("target", .text target), ("length", .integer length), ("error", .text error)]
  | fragmentUnmatched target kind =>
    recordOf .streaming "stream.fragment_unmatched" "Fragment did not match the target shape."
      [("target", .text target), ("kind", .text kind)]

end StructuredOutput.Notice

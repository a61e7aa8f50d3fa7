import StructuredOutput.Backend.Document
import StructuredOutput.Backend.GrammarRules
import StructuredOutput.Notice

/-!
Schemas written for backends, alone and inside the part of a request that a backend expects.
-/

namespace StructuredOutput

/-- What a schema becomes for a backend. -/
inductive Projected where
  | document (members : Members)
  | grammar (rules : List Grammar.Rule)

namespace SchemaGraph

/-- The name of a schema; one without a name is a response. -/
def label (g : SchemaGraph) : String := g.root.name?.getD "response"

/-- A schema written for a backend, and what is reported. -/
def project (g : SchemaGraph) (backend : Backend) (settings : ProjectionSettings) :
    Except ProjectionFault (Projected × List Notice) := do
  let named ← NamedSchemas.collect g
  let projected ←
    if backend = .gbnf then (Grammar.rulesOf g named).map Projected.grammar
    else (Document.render g.root backend named settings).map Projected.document
  .ok (projected, [.schemaProjected backend.name g.label named.schemas.length])

end SchemaGraph

/-- Puts one underscore for every run of characters that a format name cannot have. -/
def underscores (put : Bool) : List Char → List Char
  | [] => []
  | c :: cs =>
    if c.isAlphanum || c = '_' || c = '-' then c :: underscores false cs
    else if put then underscores true cs
    else '_' :: underscores true cs

/-- The longest name that a format may have. -/
def formatNameLimit : Nat := 64

/-- The name of a format that a text suggests. -/
def formatName (raw : String) : String :=
  match Grammar.stripped '_' (underscores false raw.toList) with
  | [] => "response"
  | cs => String.ofList (cs.take formatNameLimit)

/-- The part of a request that asks for a format. -/
def requestMembers (backend : Backend) (name : String) : Projected → Members
  | .grammar rules => [("grammar", .string (Grammar.text rules))]
  | .document members =>
    let schema := Json.object members
    match backend with
    | .openai =>
      [("type", .string "json_schema"),
        ("json_schema",
          .object [("name", .string name), ("schema", schema), ("strict", .bool true)])]
    | .gemini => [("response_mime_type", .string "application/json"), ("response_schema", schema)]
    | .jsonSchema | .gbnf =>
      [("type", .string "json_schema"),
        ("json_schema", .object [("name", .string name), ("schema", schema)])]

/-- The part of a request that asks a backend for a schema. A name that is not empty goes before the
schema's own. -/
def SchemaGraph.responseFormat (g : SchemaGraph) (backend : Backend)
    (settings : ProjectionSettings) (name : Option String) :
    Except ProjectionFault (Members × List Notice) := do
  let (projected, notices) ← g.project backend settings
  let raw := match name with
    | some n => if n.isEmpty then g.label else n
    | none => g.label
  .ok (requestMembers backend (formatName raw) projected, notices)

end StructuredOutput

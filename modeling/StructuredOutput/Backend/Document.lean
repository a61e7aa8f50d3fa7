import StructuredOutput.Backend.NamedSchemas
import StructuredOutput.Json.Tree
import StructuredOutput.Settings

/-!
JSON Schema documents in three dialects. Objects and unions that recur are defined once and referred
to, where the dialect has references. Of two refinements that set one keyword the later counts.
-/

namespace StructuredOutput

/-- The members of a JSON object. -/
abbrev Members := List (String × Json)

namespace Document

/-- How a document is written. -/
structure Style where
  backend : Backend
  /-- Whether parts of the document may be referred to. -/
  pointers : Bool
  rootName : Option String
  /-- The names that are defined apart. -/
  definitions : List String
  descriptions : Bool

/-- An integer in a document. -/
def count (n : Nat) : Json := .integer n

/-- A bound in a document. -/
def bound : Bound → Json
  | .whole n => .integer n
  | .real x => .real (.finite x)

/-- Sets a member, if there is a value for it. -/
def putIf (members : Members) (key : String) (value : Option Json) : Members :=
  match value with
  | some v => Entries.put members key v
  | none => members

/-- The members that a refinement of texts sets. -/
def putRule (members : Members) : TextRule → Members
  | .pattern regex => Entries.put members "pattern" (.string regex)
  | .constant value => Entries.put members "enum" (.array [.string value])
  | .oneOf values => Entries.put members "enum" (.array (values.map .string))
  | .length span =>
    putIf (putIf members "minLength" (span.lower.map count)) "maxLength" (span.upper.map count)

def putRange (members : Members) (r : Range) : Members :=
  putIf (putIf members "minimum" (r.lower.map bound)) "maximum" (r.upper.map bound)

def putCount (members : Members) (span : Span) : Members :=
  putIf (putIf members "minItems" (span.lower.map count)) "maxItems" (span.upper.map count)

/-- A document that allows null besides. -/
def nullable (members : Members) : Members :=
  match Entries.get? members "type" with
  | some (.string kind) =>
    if kind = "object" then either
    else
      let widened := Entries.put members "type" (.array [.string kind, .string "null"])
      match Entries.get? members "enum" with
      | some (.array options) => Entries.put widened "enum" (.array (options ++ [.null]))
      | _ => widened
  | _ => either
where
  either : Members :=
    [("anyOf", .array [.object members, .object [("type", .string "null")]])]

/-- Sets a description, unless it is empty or descriptions are left out. -/
def Style.describe (st : Style) (members : Members) (description : Option String) : Members :=
  match description with
  | some d =>
    if st.descriptions && !d.isEmpty then Entries.put members "description" (.string d) else members
  | none => members

/-- A reference to a named part of the document. -/
def Style.pointer (st : Style) (name : String) : Members :=
  [("$ref", .string (if st.rootName = some name then "#" else "#/$defs/" ++ name))]

/-- What stands for a schema instead of its own document: a reference to it, if it is defined apart
or is one itself. -/
def Style.reference? (st : Style) : Schema → Option (Except ProjectionFault Members)
  | .object name _ _ => named name
  | .union name _ _ => named name
  | .ref name => some (if st.pointers then .ok (st.pointer name) else .error (.recursive name))
  | _ => none
where
  named (name : String) : Option (Except ProjectionFault Members) :=
    if st.pointers && (st.rootName == some name || st.definitions.contains name) then
      some (.ok (st.pointer name))
    else none

/-- A property, from the document of its schema. -/
def Style.property (st : Style) (p : Property Schema) (rendered : Members) : Json :=
  let rendered := if st.backend == .openai && p.optional then nullable rendered else rendered
  .object (st.describe rendered p.description)

/-- An object, from the documents of its properties. -/
def Style.object (st : Style) (name : String) (description : Option String)
    (properties : List (Property Schema)) (rendered : Members) : Members :=
  let keys := Json.array (properties.map fun p => .string p.key)
  let required :=
    if st.backend = .openai then keys else .array ((Schema.required properties).map .string)
  st.describe [("type", .string "object"), ("title", .string name)] description
    ++ [("properties", .object rendered), ("required", required)]
    ++ [if st.backend = .gemini then ("propertyOrdering", keys)
        else ("additionalProperties", .bool false)]

mutual

/-- The document of a schema itself. -/
def body (st : Style) : Schema → Except ProjectionFault Members
  | .string rules => .ok (rules.foldl putRule [("type", .string "string")])
  | .integer ranges => .ok (ranges.foldl putRange [("type", .string "integer")])
  | .number ranges => .ok (ranges.foldl putRange [("type", .string "number")])
  | .boolean => .ok [("type", .string "boolean")]
  | .array item counts => do
    let rendered ←
      match st.reference? item with
      | some r => r
      | none => body st item
    .ok (counts.foldl putCount [("type", .string "array"), ("items", .object rendered)])
  | .object name description properties =>
    (bodies st properties).map (st.object name description properties)
  | .union name description alternatives =>
    if alternatives.isEmpty then .error (.emptyUnion name)
    else do
      let rendered ← choices st alternatives
      .ok (st.describe [("title", .string name)] description ++ [("anyOf", .array rendered)])
  | .ref name => if st.pointers then .ok (st.pointer name) else .error (.recursive name)

/-- The documents of properties by key. -/
def bodies (st : Style) : List (Property Schema) → Except ProjectionFault Members
  | [] => .ok []
  | ⟨key, s, description, optional⟩ :: ps => do
    let rendered ←
      match st.reference? s with
      | some r => r
      | none => body st s
    let rest ← bodies st ps
    .ok ((key, st.property ⟨key, s, description, optional⟩ rendered) :: rest)

/-- The documents of alternatives. -/
def choices (st : Style) : List Schema → Except ProjectionFault (List Json)
  | [] => .ok []
  | s :: ss => do
    let rendered ←
      match st.reference? s with
      | some r => r
      | none => body st s
    let rest ← choices st ss
    .ok (.object rendered :: rest)

end

/-- The style of a document for a backend. -/
def styleFor (root : Schema) (backend : Backend) (named : NamedSchemas)
    (settings : ProjectionSettings) : Style :=
  let pointers := backend.supportsPointers && settings.useDefinitions
  let rootName := match root with
    | .object name _ _ => some name
    | .union name _ _ => some name
    | _ => none
  let apart := if pointers then named.shared.filter fun name => rootName != some name else []
  ⟨backend, pointers, rootName, apart, settings.includeDescriptions⟩

/-- The definitions of the given names. -/
def definitions (st : Style) (named : NamedSchemas) :
    List String → Except ProjectionFault Members
  | [] => .ok []
  | name :: names => do
    match Entries.get? named.schemas name with
    | none => .error (.dangling name)
    | some s => do
      let rendered ← body st s
      let rest ← definitions st named names
      .ok ((name, .object rendered) :: rest)

/-- The document of a schema for a backend. -/
def render (root : Schema) (backend : Backend) (named : NamedSchemas)
    (settings : ProjectionSettings) : Except ProjectionFault Members := do
  if backend == .openai && !(root matches .object _ _ _) then
    .error (.rootNotObject root.kindName)
  else
    let st := styleFor root backend named settings
    let members ← body st root
    if st.definitions.isEmpty then .ok members
    else do
      let defs ← definitions st named st.definitions
      .ok (Entries.put members "$defs" (.object defs))

end Document

end StructuredOutput

import StructuredOutput.Backend.Projection
import StructuredOutput.Content
import StructuredOutput.Proofs.Entries

/-!
When content is valid against a JSON Schema document. Every member of a schema object is one
condition on the content, and a schema is followed to a bounded depth, since references may be
circular.
-/

namespace StructuredOutput

/-- The word of JSON Schema for a kind of content. -/
def Kind.typeName : Kind → String
  | .null => "null"
  | .bool => "boolean"
  | .number => "number"
  | .string => "string"
  | .array => "array"
  | .object => "object"

namespace Document

/-! ### Conditions without subschemas -/

/-- Whether content is of a type: an integer is a number without a fraction. -/
def isOfType (c : Content) (type : String) : Bool :=
  if type = "integer" then
    match c with
    | .number x => x.isIntegral
    | _ => false
  else c.kind.typeName == type

/-- Whether content is of the type given, or of one of several. -/
def hasType (c : Content) : Json → Bool
  | .string type => isOfType c type
  | .array types => types.any fun j =>
    match j with
    | .string type => isOfType c type
    | _ => false
  | _ => false

/-- The value of a JSON number in units. -/
def numberUnits? : Json → Option Int
  | .integer n => some (n * unitsPerOne)
  | .real (.finite x) => some x.signedUnits
  | _ => none

mutual

/-- Whether content equals JSON data: numbers by value, objects without regard to order. -/
def equals : Json → Content → Bool
  | .null, .null => true
  | .bool a, .bool b => a == b
  | .string s, .string t => s == t
  | .array js, .array cs => equalItems js cs
  | .object js, .object cs => js.length == cs.length && equalEntries js cs
  | j, .number x => numberUnits? j == some x.signedUnits
  | _, _ => false

def equalItems : List Json → List Content → Bool
  | [], [] => true
  | j :: js, c :: cs => equals j c && equalItems js cs
  | _, _ => false

def equalEntries : List (String × Json) → List (String × Content) → Bool
  | [], _ => true
  | (k, j) :: js, cs => (Entries.get? cs k).any (equals j) && equalEntries js cs

end

/-- Whether content is one of the options given. -/
def isOption (c : Content) : Json → Bool
  | .array options => options.any (equals · c)
  | _ => false

/-- Whether a number stands in a relation to a bound; other content always does. -/
def bounded (relation : Int → Int → Bool) (c : Content) (bound : Json) : Bool :=
  match c, numberUnits? bound with
  | .number x, some units => relation units x.signedUnits
  | _, _ => true

/-- Whether a size stands in a relation to a bound, if there is a size. -/
def sized (relation : Int → Int → Bool) (size : Option Nat) (bound : Json) : Bool :=
  match size, bound with
  | some n, .integer limit => relation limit n
  | _, _ => true

/-- The number of characters of a text. -/
def characters? : Content → Option Nat
  | .string s => some s.length
  | _ => none

/-- The number of items of an array. -/
def items? : Content → Option Nat
  | .array items => some items.length
  | _ => none

/-- Whether a text matches a pattern; other content always does. -/
def matchesPattern (pattern : String → String → Bool) (c : Content) : Json → Bool
  | .string regex =>
    match c with
    | .string s => pattern regex s
    | _ => true
  | _ => true

/-- Whether an object has all the keys given; other content always does. -/
def hasKeys (c : Content) : Json → Bool
  | .array keys =>
    match c with
    | .object entries => keys.all fun j =>
      match j with
      | .string key => (Entries.get? entries key).isSome
      | _ => true
    | _ => true
  | _ => true

/-! ### Conditions with subschemas -/

/-- The properties that a schema object declares. -/
def declared (members : Members) : Members :=
  match Entries.get? members "properties" with
  | some (.object properties) => properties
  | _ => []

/-- What a reference stands for: the whole document or one of its definitions. -/
def target? (document : Members) (pointer : String) : Option Json :=
  if pointer = "#" then some (.object document)
  else
    match Entries.get? document "$defs" with
    | some (.object defs) => (defs.find? fun e => pointer == "#/$defs/" ++ e.1).map (·.2)
    | _ => none

section

variable (pattern : String → String → Bool) (document : Members) (valid : Json → Content → Bool)

def allItems (c : Content) (schema : Json) : Bool :=
  match c with
  | .array items => items.all (valid schema)
  | _ => true

def allDeclared (c : Content) : Json → Bool
  | .object properties =>
    match c with
    | .object entries =>
      entries.all fun e => (Entries.get? properties e.1).all fun schema => valid schema e.2
    | _ => true
  | _ => true

def allOthers (properties : Members) (c : Content) (schema : Json) : Bool :=
  match c with
  | .object entries =>
    entries.all fun e => (Entries.get? properties e.1).isSome || valid schema e.2
  | _ => true

def someAlternative (c : Content) : Json → Bool
  | .array schemas => schemas.any fun schema => valid schema c
  | _ => false

def referenced (c : Content) : Json → Bool
  | .string pointer => (target? document pointer).any fun schema => valid schema c
  | _ => false

/-- The condition that one member of a schema object puts on content. Members that only describe
put none. -/
def keyword (members : Members) (c : Content) (key : String) (value : Json) : Bool :=
  match key with
  | "type" => hasType c value
  | "enum" => isOption c value
  | "pattern" => matchesPattern pattern c value
  | "minimum" => bounded (fun limit n => decide (limit ≤ n)) c value
  | "maximum" => bounded (fun limit n => decide (n ≤ limit)) c value
  | "minLength" => sized (fun limit n => decide (limit ≤ n)) (characters? c) value
  | "maxLength" => sized (fun limit n => decide (n ≤ limit)) (characters? c) value
  | "minItems" => sized (fun limit n => decide (limit ≤ n)) (items? c) value
  | "maxItems" => sized (fun limit n => decide (n ≤ limit)) (items? c) value
  | "items" => allItems valid c value
  | "properties" => allDeclared valid c value
  | "required" => hasKeys c value
  | "additionalProperties" => allOthers valid (declared members) c value
  | "anyOf" => someAlternative valid c value
  | "$ref" => referenced document valid c value
  | _ => true

/-- Whether content meets the conditions of a schema object. -/
def satisfies (members : Members) (c : Content) : Bool :=
  (Entries.names members).all fun key =>
    (Entries.get? members key).all (keyword pattern document valid members c key)

end

/-- Whether content is valid against a schema, where subschemas and references are followed to a
depth. -/
def accepts (pattern : String → String → Bool) (document : Members) :
    (depth : Nat) → Json → Content → Bool
  | 0, _, _ => false
  | depth + 1, .object members, c =>
    satisfies pattern document (accepts pattern document depth) members c
  | _ + 1, .bool b, _ => b
  | _ + 1, _, _ => false

/-- Content is valid against a document if some depth is enough to see it. -/
def Valid (pattern : String → String → Bool) (document : Members) (c : Content) : Prop :=
  ∃ depth, accepts pattern document depth (.object document) c = true

/-! ### Reading conditions off -/

variable {pattern : String → String → Bool} {document members : Members}
  {valid : Json → Content → Bool} {c : Content}

theorem satisfies_iff : satisfies pattern document valid members c = true ↔
    ∀ key value, Entries.get? members key = some value →
      keyword pattern document valid members c key value = true := by
  rw [satisfies, List.all_eq_true]
  constructor
  · intro h key value hget
    have hkey : key ∈ Entries.names members :=
      List.mem_map.mpr ⟨_, Entries.mem_of_get? hget, rfl⟩
    simpa [hget] using h key hkey
  · intro h key _
    cases hget : Entries.get? members key with
    | none => rfl
    | some value => exact h key value hget

theorem isOfType_object {c : Content} (h : isOfType c "object" = true) :
    ∃ entries, c = .object entries := by
  cases c <;> simp [isOfType, Content.kind, Kind.typeName] at h
  exact ⟨_, rfl⟩

theorem isOfType_array {c : Content} (h : isOfType c "array" = true) :
    ∃ items, c = .array items := by
  cases c <;> simp [isOfType, Content.kind, Kind.typeName] at h
  exact ⟨_, rfl⟩

theorem isOfType_string {c : Content} (h : isOfType c "string" = true) :
    ∃ s, c = .string s := by
  cases c <;> simp [isOfType, Content.kind, Kind.typeName] at h
  exact ⟨_, rfl⟩

theorem isOfType_number {c : Content} (h : isOfType c "number" = true) :
    ∃ x, c = .number x := by
  cases c <;> simp [isOfType, Content.kind, Kind.typeName] at h
  exact ⟨_, rfl⟩

theorem isOfType_integer {c : Content} (h : isOfType c "integer" = true) :
    ∃ x : Double, c = .number x ∧ x.isIntegral = true := by
  cases c <;> simp [isOfType] at h
  exact ⟨_, rfl, h⟩

theorem isOfType_boolean {c : Content} (h : isOfType c "boolean" = true) :
    ∃ b, c = .bool b := by
  cases c <;> simp [isOfType, Content.kind, Kind.typeName] at h
  exact ⟨_, rfl⟩

theorem target?_root : target? document "#" = some (.object document) := by
  simp [target?]

theorem definition_ne_root (name : String) : "#/$defs/" ++ name ≠ "#" := by
  intro heq
  have hlength := congrArg String.length heq
  rw [String.length_append] at hlength
  have hprefix : "#/$defs/".length = 8 := by decide
  have hroot : "#".length = 1 := by decide
  omega

private theorem find?_definition (defs : Members) (name : String) :
    (defs.find? fun e => "#/$defs/" ++ name == "#/$defs/" ++ e.1).map (·.2) =
      Entries.get? defs name := by
  induction defs with
  | nil => rfl
  | cons e defs ih =>
    obtain ⟨n, j⟩ := e
    by_cases hn : n = name
    · simp [Entries.get?, hn]
    · have hne : ("#/$defs/" ++ name == "#/$defs/" ++ n) = false := by
        simpa [String.append_right_inj] using Ne.symm hn
      rw [List.find?_cons_of_neg (by simpa using hne), ih, Entries.get?_cons_of_ne _ _ hn]

theorem target?_definition {defs : Members} (name : String)
    (h : Entries.get? document "$defs" = some (.object defs)) :
    target? document ("#/$defs/" ++ name) = Entries.get? defs name := by
  rw [target?, if_neg (definition_ne_root name), h]
  exact find?_definition defs name

theorem target?_of_no_definitions (name : String) (h : Entries.get? document "$defs" = none) :
    target? document ("#/$defs/" ++ name) = none := by
  rw [target?, if_neg (definition_ne_root name), h]

end Document

end StructuredOutput

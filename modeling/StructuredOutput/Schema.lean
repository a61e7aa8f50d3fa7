import StructuredOutput.Constraint
import StructuredOutput.DefinitionError
import StructuredOutput.Entries

/-!
Schemas: what values of a type may be, independent of any backend. A reference names an enclosing
object or union; the nodes that references stand for are kept in a table beside the schema.
-/

namespace StructuredOutput

/-- A property of an object. -/
structure Property (σ : Type) where
  key : String
  schema : σ
  description : Option String
  optional : Bool

/-- A schema. -/
inductive Schema where
  | string (rules : List TextRule)
  | integer (ranges : List Range)
  | number (ranges : List Range)
  | boolean
  | array (item : Schema) (counts : List Span)
  | object (name : String) (description : Option String) (properties : List (Property Schema))
  | union (name : String) (description : Option String) (alternatives : List Schema)
  | ref (name : String)

namespace Schema

/-- The word for the kind of a schema. -/
def kindName : Schema → String
  | string _ => "StringSchema"
  | integer _ => "IntegerSchema"
  | number _ => "NumberSchema"
  | boolean => "BooleanSchema"
  | array _ _ => "ArraySchema"
  | object _ _ _ => "ObjectSchema"
  | union _ _ _ => "UnionSchema"
  | ref _ => "SchemaRef"

/-- The name of an object, a union or a reference. -/
def name? : Schema → Option String
  | object name _ _ => some name
  | union name _ _ => some name
  | ref name => some name
  | _ => none

/-- Whether two lists are equal item by item. -/
def allAlike {α : Type} (alike : α → α → Bool) : List α → List α → Bool
  | [], [] => true
  | x :: xs, y :: ys => alike x y && allAlike alike xs ys
  | _, _ => false

mutual

/-- Equality of schemas: bounds by value, references by name. -/
def same : Schema → Schema → Bool
  | string a, string b => a == b
  | integer a, integer b => allAlike Range.same a b
  | number a, number b => allAlike Range.same a b
  | boolean, boolean => true
  | array i a, array j b => same i j && a == b
  | object m d ps, object n e qs => m == n && d == e && sameProperties ps qs
  | union m d xs, union n e ys => m == n && d == e && sameAll xs ys
  | ref m, ref n => m == n
  | _, _ => false

def sameProperties : List (Property Schema) → List (Property Schema) → Bool
  | [], [] => true
  | ⟨k, s, d, o⟩ :: ps, ⟨l, t, e, p⟩ :: qs =>
    k == l && same s t && d == e && o == p && sameProperties ps qs
  | _, _ => false

def sameAll : List Schema → List Schema → Bool
  | [], [] => true
  | s :: ss, t :: ts => same s t && sameAll ss ts
  | _, _ => false

end

/-- The keys of properties that must be present, in order. -/
def required (properties : List (Property Schema)) : List String :=
  (properties.filter fun p => !p.optional).map (·.key)

/-- An object with the given properties, whose keys must differ. -/
def ofProperties (name : String) (description : Option String)
    (properties : List (Property Schema)) : Except DefinitionError Schema :=
  let keys := properties.map (·.key)
  if (Entries.distinct keys).length ≠ keys.length then .error (.duplicateProperties name)
  else .ok (object name description properties)

/-! ### Refinement -/

/-- What is said of a refinement that does not fit a schema. -/
def refuse {α : Type} (kind : String) (c : Constraint) : Except DefinitionError α :=
  .error (.cannotConstrain c.kind kind)

/-- The text of a bound that may be absent. -/
def boundText (b : Option Bound) : String :=
  match b with
  | none => "None"
  | some b => b.text

/-- A range with its bounds as integers, which they must be in value. -/
def integerRange (r : Range) : Except DefinitionError Range :=
  if h : r.isIntegral = true then .ok (r.toWhole h)
  else .error (.fractionalRange (boundText r.lower) (boundText r.upper))

/-- A schema with one more refinement. An `element` refines the items of an array. -/
def refine (s : Schema) (c : Constraint) : Except DefinitionError Schema :=
  match s, c with
  | string rules, .text rule => .ok (string (rules ++ [rule]))
  | string _, c => refuse "string" c
  | integer ranges, .range r => (integerRange r).map fun r => integer (ranges ++ [r])
  | integer _, c => refuse "integer" c
  | number ranges, .range r => .ok (number (ranges ++ [r]))
  | number _, c => refuse "number" c
  | boolean, c => refuse "boolean" c
  | array item counts, .count span => .ok (array item (counts ++ [span]))
  | array item counts, .element inner => (refine item inner).map fun item => array item counts
  | array _ _, c => refuse "array" c
  | object _ _ _, c => refuse "object" c
  | union name _ _, _ => .error (.constrainedUnion name)
  | ref name, _ => .error (.constrainedReference name)

/-- A schema with refinements in order. -/
def constrain (s : Schema) (cs : List Constraint) : Except DefinitionError Schema :=
  cs.foldlM refine s

end Schema

/-- A schema and the table of the nodes that references name. -/
structure SchemaGraph where
  root : Schema
  table : List (String × Schema)

end StructuredOutput

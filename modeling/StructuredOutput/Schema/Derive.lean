import StructuredOutput.Notice
import StructuredOutput.Schema
import StructuredOutput.Shape.Fields

/-!
The schema of a type. Every record, enumeration, union and union case has a name of its own: where
two of them claim one name, the later one gets a number. A declaration met again inside its own
schema is a reference.
-/

namespace StructuredOutput

/-- What a named schema describes: a declaration in one of its roles. -/
inductive Role where
  | enum (id : String)
  | record (id : String)
  | union (name : String) (records : List String)
  | case (name : String) (records : List String) (record : String)
  deriving DecidableEq

/-- What has been derived so far. -/
structure Derivation where
  /-- The roles whose schemas are being built, the innermost first. -/
  building : List Role
  built : List (Role × Schema)
  names : List (Role × String)
  table : List (String × Schema)
  notices : List Notice

/-- A step of a derivation, which may fail. -/
abbrev Derive := ExceptT TypeFault (StateM Derivation)

namespace TypeExpr

mutual

/-- The number of parts of a type, notes included. -/
def size : TypeExpr → Nat
  | list t | sequence t | set t => size t + 1
  | annotated t notes => size t + notes.length + 1
  | dict k v => size k + size v + 1
  | tuple ts | variadic ts | union ts => sizeAll ts + 1
  | atom _ | named _ | literal _ | undefined _ => 1

def sizeAll : List TypeExpr → Nat
  | [] => 0
  | t :: ts => size t + sizeAll ts

end

end TypeExpr

/-- The number of parts of a declaration. -/
def Declaration.size : Declaration → Nat
  | .record r => r.fields.foldl (fun n f => n + f.type.size) 1
  | .typeAlias t => t.size + 1
  | .enum _ | .plain => 1

/-- The number of parts of all declarations. -/
def Declarations.size (ds : Declarations) : Nat := ds.entries.foldl (fun n e => n + e.2.size) 0

namespace Derivation

/-- Nothing derived. -/
def start : Derivation := ⟨[], [], [], [], []⟩

/-- The first of a name and its numbered forms that is not taken. -/
def freshName (taken : List String) (base : String) : String :=
  let numbered := (List.range (taken.length + 1)).map fun i => s!"{base}{i + 2}"
  ((base :: numbered).find? fun n => !taken.contains n).getD base

/-- The name of a role, which it keeps once it has one. -/
def claim (role : Role) (base : String) : Derive String := do
  let d ← get
  match Entries.get? d.names role with
  | some name => pure name
  | none => do
    let name := freshName (d.names.map (·.2)) base
    let renamed := if name = base then [] else [Notice.schemaRenamed base name]
    set { d with names := d.names ++ [(role, name)], notices := d.notices ++ renamed }
    pure name

/-- The schema of a role: a reference inside itself, and built once otherwise. -/
def once (role : Role) (base : String) (body : String → Derive Schema) : Derive Schema := do
  let name ← claim role base
  let d ← get
  if d.building.contains role then pure (.ref name)
  else
    match Entries.get? d.built role with
    | some s => pure s
    | none => do
      set { d with building := role :: d.building }
      let s ← body name
      modify fun d => { d with
        building := d.building.filter (· != role)
        built := d.built ++ [(role, s)]
        table := Entries.put d.table name s }
      pure s

/-- Fails for the given reason. -/
def fail {α : Type} (cause : DefinitionError) : Derive α := throw (.definition cause)

/-- A result that may be a refusal. -/
def lift {α : Type} (r : Except DefinitionError α) : Derive α :=
  match r with
  | .ok a => pure a
  | .error cause => fail cause

/-- The schema of a scalar type. -/
def scalar : Primitive → Schema
  | .text => .string []
  | .integer => .integer []
  | .real => .number []
  | .bool => .boolean

/-- The rule that texts be one of the given ones. -/
def choice : List String → TextRule
  | [s] => .constant s
  | values => .oneOf values

/-- Builds arrays around the schemas of other shapes. -/
def arrays (other : Shape → Derive Schema) : Shape → Derive Schema
  | .array item _ constraints => do
    let s ← arrays other item
    lift ((Schema.array s []).constrain constraints)
  | s => other s

/-- The object of a record with properties before those of its fields. -/
def objectOf (ds : Declarations) (field : Shape → Derive Schema) (id name : String)
    (description : Option String) (leading : List (Property Schema)) : Derive Schema := do
  match ds.fieldShapes id with
  | .error fault => throw fault
  | .ok fields => do
    let properties ← fields.mapM fun f => do
      let s ← field f.shape
      pure (⟨f.key, s, f.description, f.optional⟩ : Property Schema)
    lift (Schema.ofProperties name description (leading ++ properties))

/-- The schema of a shape that is no array, where `fuel` named schemas may be nested. -/
def build (ds : Declarations) : (fuel : Nat) → Shape → Derive Schema
  | 0, _ => throw .endless
  | fuel + 1, shape =>
    match shape with
    | .primitive type constraints => lift ((scalar type).constrain constraints)
    | .literal values constraints => lift ((Schema.string [choice values]).constrain constraints)
    | .enum id name description =>
      once (.enum id) name fun name =>
        pure (.union name description
          ((ds.enumOf id).wires.map fun w => .string [.constant w.1]))
    | .record id name description =>
      once (.record id) name fun name =>
        objectOf ds (arrays (build ds fuel)) id name description []
    | .union name description cases =>
      let records := cases.map (·.record)
      once (.union name records) name fun unionName => do
        let alternatives ← cases.mapM fun c => do
          let caseName ← claim (.case name records c.record) (ds.schemaName c.record)
          let tag : Property Schema := ⟨discriminatorKey, .string [.constant c.tag], none, false⟩
          objectOf ds (arrays (build ds fuel)) c.record caseName (ds.naming c.record).description
            [tag]
        pure (.union unionName description alternatives)
    | .array _ _ _ | .optional _ => fail .nestedOptional

end Derivation

/-- The schemas that have been derived, by type. -/
abbrev SchemaCache := List (TypeExpr × SchemaGraph)

namespace Declarations

/-- How deep the named schemas of a type can be nested. -/
def derivationDepth (ds : Declarations) (t : TypeExpr) : Nat :=
  let parts := ds.size + t.size + 2
  parts * parts

/-- The schema of a type, with what is reported on the way. -/
def deriveSchema (ds : Declarations) (t : TypeExpr) :
    Except TypeFault SchemaGraph × List Notice :=
  match ds.shapeOf t with
  | .error fault => (.error fault, [])
  | .ok (.optional _) => (.error (.definition (.optionalRoot (t.shown ds))), [])
  | .ok shape =>
    match (Derivation.arrays (Derivation.build ds (ds.derivationDepth t)) shape).run .start with
    | (.error fault, d) => (.error fault, d.notices)
    | (.ok root, d) =>
      (.ok ⟨root, d.table⟩, d.notices ++ [.schemaDerived (t.label ds) root.kindName])

/-- The schema of a type, derived unless an equal type has one already; the cache afterwards and
what is reported. -/
def schemaFor (ds : Declarations) (cache : SchemaCache) (t : TypeExpr) :
    Except TypeFault SchemaGraph × SchemaCache × List Notice :=
  match t.changeable? with
  | some typeName => (.error (.changeableLiteral typeName), cache, [])
  | none =>
    match cache.find? fun e => e.1.same t with
    | some (_, graph) => (.ok graph, cache, [])
    | none =>
      match ds.deriveSchema t with
      | (.error fault, notices) => (.error fault, cache, notices)
      | (.ok graph, notices) => (.ok graph, cache ++ [(t, graph)], notices)

end Declarations

end StructuredOutput

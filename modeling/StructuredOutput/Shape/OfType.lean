import StructuredOutput.Shape
import StructuredOutput.Text.Case
import StructuredOutput.TypeExpr.Build

/-!
The shape of a type expression. An alias names the union that it stands for, and an attached name
goes before that; refinements are collected on the way to the type that they refine.
-/

namespace StructuredOutput

open Text

/-- The text with its first character in lower case. -/
def uncapitalized (s : String) : String :=
  match s.toList with
  | [] => s
  | c :: cs => String.ofList (lower c ++ cs)

namespace Declarations

/-- The name of a record or an enumeration in a schema: the one given to it, unless that is empty,
and else its class name. -/
def schemaName (ds : Declarations) (id : String) : String :=
  match (ds.naming id).name with
  | some n => if n.isEmpty then ds.className id else n
  | none => ds.className id

/-- The discriminator of a record as a case of a union. -/
def caseTag (ds : Declarations) (id : String) : String :=
  ((ds.naming id).case).getD (uncapitalized (ds.className id))

end Declarations

/-- The text that stands for a member of an enumeration: its value, if that is a text, and else its
name. -/
def wireValue (m : String × Value) : String := m.2.asText?.getD m.1

namespace EnumDecl

/-- The members in order, each with the text that stands for it. -/
def wires (e : EnumDecl) : List (String × (String × Value)) :=
  e.canonical.map fun m => (wireValue m, m)

end EnumDecl

/-- The name that a union takes. -/
inductive UnionNaming where
  /-- The names of its cases. -/
  | byCases
  | byAlias (name : String)
  | tagged (name : String) (description : Option String)

namespace UnionNaming

/-- An alias names a union unless it has a name already. -/
def orAlias (n : UnionNaming) (name : String) : UnionNaming :=
  match n with
  | byCases => byAlias name
  | _ => n

/-- The last name attached to a type goes before an outer one. -/
def orTagged (n : UnionNaming) (notes : List Note) : UnionNaming :=
  notes.foldl
    (fun acc note =>
      match note with
      | .tagged name description => tagged name description
      | _ => acc)
    n

end UnionNaming

/-- The refinements among notes. -/
def guided (notes : List Note) : List Constraint :=
  notes.flatMap fun note =>
    match note with
    | .guide constraints _ => constraints
    | _ => []

namespace Declarations

/-- A case of a union: a record that has no field named like the discriminator. -/
def unionCase (ds : Declarations) (t : TypeExpr) : Except DefinitionError Case :=
  match t with
  | .named id =>
    match ds.find? id with
    | some (.record r) =>
      if (ds.fields id).any fun f => f.init && f.name == discriminatorKey then
        .error (.reservedField r.className)
      else .ok ⟨id, ds.caseTag id⟩
    | _ => .error (.caseNotRecord (t.shown ds))
  | _ => .error (.caseNotRecord (t.shown ds))

/-- The shape of a union of the given types. -/
def unionShape (ds : Declarations) (members : List TypeExpr) (naming : UnionNaming) :
    Except DefinitionError Shape := do
  let cases ← members.mapM ds.unionCase
  let tags := cases.map (·.tag)
  if (Entries.distinct tags).length ≠ tags.length then .error (.sharedCase tags)
  else
    match naming with
    | .tagged name description => .ok (.union name description cases)
    | .byAlias name => .ok (.union name none cases)
    | .byCases =>
      .ok (.union ("Or".intercalate (cases.map fun c => ds.schemaName c.record)) none cases)

/-- The shape of a declared class. -/
def classShape (ds : Declarations) (id : String) (constraints : List Constraint) :
    Except DefinitionError Shape :=
  match ds.find? id with
  | some (.enum e) =>
    if !constraints.isEmpty then .error (.constrainedClass e.className)
    else
      let wires := e.wires.map (·.1)
      if wires.isEmpty then .error (.emptyEnum e.className)
      else if (Entries.distinct wires).length ≠ wires.length then
        .error (.sharedWireValue e.className)
      else .ok (.enum id (ds.schemaName id) (ds.naming id).description)
  | some (.record r) =>
    if !constraints.isEmpty then .error (.constrainedClass r.className)
    else .ok (.record id (ds.schemaName id) (ds.naming id).description)
  | _ => .error (.unsupportedType (ds.classText id))

/-- The shape of an array, from the shape of its items. -/
def arrayShape (written : String) (item : Shape) (container : Container)
    (constraints : List Constraint) : Except TypeFault Shape :=
  match item with
  | .optional _ => .error (.definition (.optionalItems written))
  | _ => .ok (.array item container constraints)

/-- A shape, or nothing if the union has a place for it. -/
def orNothing (hasNone : Bool) (s : Shape) : Shape := if hasNone then .optional s else s

/-- Whether a type is that of nothing. -/
def isNone (t : TypeExpr) : Bool := t matches .atom .none

/-- The shape of a literal type, the written form of which is given. -/
def literalShape (written : String) (values : List Value) (constraints : List Constraint) :
    Except DefinitionError Shape :=
  match values.mapM Value.asText? with
  | some (t :: ts) => .ok (.literal (t :: ts) constraints)
  | _ => .error (.literalNotText written)

/-- The shape of a type without parts. -/
def atomShape (a : Atom) (constraints : List Constraint) : Except DefinitionError Shape :=
  match a with
  | .text => .ok (.primitive .text constraints)
  | .integer => .ok (.primitive .integer constraints)
  | .real => .ok (.primitive .real constraints)
  | .bool => .ok (.primitive .bool constraints)
  | .bareList | .bareSequence => .error (.missingItemType a.name)
  | .bareTuple => .error (.mixedTuple a.name)
  | _ => .error (.unsupportedType (TypeExpr.shown empty (.atom a)))

/-- The name of a tagged union can be attached to a union only. -/
def notUnion (ds : Declarations) (t : TypeExpr) (naming : UnionNaming)
    (shape : Except TypeFault Shape) : Except TypeFault Shape :=
  match naming with
  | .tagged _ _ => .error (.definition (.taggedNonUnion (t.shown ds)))
  | _ => shape

mutual

/-- The shape of a type, where `depth` aliases may be followed one inside the other. -/
def resolve (ds : Declarations) (depth : Nat) (t : TypeExpr) (constraints : List Constraint)
    (naming : UnionNaming) : Except TypeFault Shape :=
  match t with
  | .named id =>
    match ds.find? id with
    | some (.typeAlias body) =>
      match depth with
      | 0 => .error .endless
      | depth + 1 => resolve ds depth body constraints (naming.orAlias id)
    | _ => notUnion ds t naming ((ds.classShape id constraints).mapError .definition)
  | .annotated inner notes =>
    resolve ds depth inner (constraints ++ guided notes) (naming.orTagged notes)
  | .union members =>
    let present := members.filter fun m => !isNone m
    let hasNone := present.length < members.length
    if present.length = 1 then
      (resolveOnly ds depth members constraints naming).map (orNothing hasNone)
    else if !constraints.isEmpty then .error (.definition .constrainedUnionType)
    else ((ds.unionShape present naming).map (orNothing hasNone)).mapError .definition
  | .literal values =>
    notUnion ds t naming
      ((literalShape (t.shown ds) values constraints).mapError .definition)
  | .list item =>
    notUnion ds t naming do
      arrayShape (t.shown ds) (← resolve ds depth item [] .byCases) .list constraints
  | .sequence item =>
    notUnion ds t naming do
      arrayShape (t.shown ds) (← resolve ds depth item [] .byCases) .list constraints
  | .variadic [item] =>
    notUnion ds t naming do
      arrayShape (t.shown ds) (← resolve ds depth item [] .byCases) .tuple constraints
  | .tuple _ | .variadic _ =>
    notUnion ds t naming (.error (.definition (.mixedTuple (t.shown ds))))
  | .atom a => notUnion ds t naming ((atomShape a constraints).mapError .definition)
  | .set _ | .dict _ _ | .undefined _ =>
    notUnion ds t naming (.error (.definition (.unsupportedType (t.shown ds))))
termination_by (depth, sizeOf t)

/-- The shape of the only member of a union that is not nothing. -/
def resolveOnly (ds : Declarations) (depth : Nat) (members : List TypeExpr)
    (constraints : List Constraint) (naming : UnionNaming) : Except TypeFault Shape :=
  match members with
  | [] => .error .endless
  | m :: ms =>
    if isNone m then resolveOnly ds depth ms constraints naming
    else resolve ds depth m constraints naming
termination_by (depth, sizeOf members)

end

/-- The shape of a type. -/
def shapeOf (ds : Declarations) (t : TypeExpr) : Except TypeFault Shape :=
  ds.resolve (ds.entries.length + 1) t [] .byCases

end Declarations

end StructuredOutput

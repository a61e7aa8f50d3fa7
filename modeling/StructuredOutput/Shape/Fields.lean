import StructuredOutput.Shape.OfType
import StructuredOutput.TypeExpr.Names

/-!
The fields of a record as they travel: their keys, shapes and descriptions.
-/

namespace StructuredOutput

namespace TypeExpr

/-- The last description among notes. -/
def noteDescription? (notes : List Note) : Option String :=
  notes.reverse.findSome? fun note =>
    match note with
    | .guide _ description => description
    | _ => none

mutual

/-- The last description attached to a type or to a member of a union. -/
def description? : TypeExpr → Option String
  | annotated t notes => (noteDescription? notes).or (description? t)
  | union members => descriptionIn? members
  | _ => none

def descriptionIn? : List TypeExpr → Option String
  | [] => none
  | t :: ts => (descriptionIn? ts).or (description? t)

end

end TypeExpr

/-- The key of a positional parameter. -/
def positionalKey (i : Nat) : String := if i = 0 then "value" else s!"value{i}"

namespace FieldDecl

/-- The key that a field has by its alias or its name. -/
def labeledKey (ds : Declarations) (f : FieldDecl) : String :=
  match f.givenKey with
  | some v => if v.isFalsy then f.name else v.plain ds
  | none => f.name

/-- The description of a field: that of its type goes before its own. -/
def describe (f : FieldDecl) : Option String :=
  match f.type.description? with
  | some d => some d
  | none =>
    match f.description with
    | some v => v.asText?
    | none => none

end FieldDecl

namespace Declarations

/-- The fields in order with their keys, where `position` positional parameters came before. -/
def keyed (ds : Declarations) (position : Nat) : List FieldDecl → List (String × FieldDecl)
  | [] => []
  | f :: fs =>
    if f.unlabeled then (positionalKey position, f) :: ds.keyed (position + 1) fs
    else (f.labeledKey ds, f) :: ds.keyed position fs

/-- A field as it travels. -/
def fieldShape (ds : Declarations) (id : String) (key : String) (f : FieldDecl) :
    Except TypeFault FieldShape :=
  match ds.shapeOf f.type with
  | .ok (.optional inner) => .ok ⟨f.name, key, inner, true, f.describe⟩
  | .ok shape => .ok ⟨f.name, key, shape, false, f.describe⟩
  | .error (.definition cause) =>
    .error (.definition (.inField (ds.className id) f.name cause))
  | .error fault => .error fault

/-- The keys that occur more than once, sorted. -/
def repeatedKeys (keys : List String) : List String :=
  (Entries.distinct (keys.filter fun k => 1 < keys.count k)).mergeSort fun a b => !(b < a)

/-- The fields of a record as they travel: those that are given when an instance is made. -/
def fieldShapes (ds : Declarations) (id : String) : Except TypeFault (List FieldShape) :=
  match ds.undefinedInRecord? id with
  | some name => .error (.definition (.undefinedName (ds.className id) name))
  | none => do
    let fields ← (ds.keyed 0 ((ds.fields id).filter (·.init))).mapM fun (key, f) =>
      ds.fieldShape id key f
    match repeatedKeys (fields.map (·.key)) with
    | [] => .ok fields
    | keys => .error (.definition (.sharedKey (ds.className id) keys))

end Declarations

end StructuredOutput

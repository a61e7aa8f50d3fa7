import StructuredOutput.Codec.DecodeError
import StructuredOutput.Shape.Fields

/-!
Typed values from content. A key that is absent counts as null for an optional field, and keys that
are not declared are ignored.
-/

namespace StructuredOutput

/-- The scalar of a type that content holds. -/
def decodePrimitive (type : Primitive) (c : Content) (path : Path) : Except KindMismatch Value :=
  match type with
  | .text => (c.asString path).map .text
  | .bool => (c.asBool path).map .bool
  | .real => (c.asNumber path).map fun x => .real (.finite x)
  | .integer =>
    match c.asNumber path with
    | .error e => .error e
    | .ok x =>
      match x.toInt? with
      | some n => .ok (.integer n)
      | none => .error ⟨"integer", "number", path⟩

/-- The items of an array as a value. -/
def Container.collect : Container → List Value → Value
  | .list, items => .list items
  | .tuple, items => .tuple items

namespace Declarations

/-- The instance of a record with the given attributes; its other fields have their defaults. -/
def instantiate (ds : Declarations) (id : String) (given : List (String × Value)) : Value :=
  .record id
    ((ds.fields id).filterMap fun f =>
      match Entries.get? given f.name with
      | some v => some (f.name, v)
      | none => f.default.map fun v => (f.name, v))

end Declarations

namespace Decoding

/-- The option of a literal that content holds. -/
def literal (values : List String) (c : Content) (path : Path) : Except DecodeError Value :=
  match c.asString path with
  | .error e => .error (.mismatch e)
  | .ok s => if values.contains s then .ok (.text s) else .error (.unknown ⟨s, values, path⟩)

/-- The member of an enumeration that content holds. -/
def member (ds : Declarations) (id : String) (c : Content) (path : Path) :
    Except DecodeError Value :=
  let e := ds.enumOf id
  match c.asString path with
  | .error m => .error (.mismatch m)
  | .ok s =>
    match Entries.get? e.wires s with
    | some m => .ok (e.memberValue id m)
    | none => .error (.unknown ⟨s, e.wires.map (·.1), path⟩)

/-- A value without parts; content that should have parts is of another kind. -/
def leaf (ds : Declarations) (shape : Shape) (c : Content) (path : Path) :
    Except DecodeError Value :=
  match shape with
  | .primitive type _ => (decodePrimitive type c path).mapError .mismatch
  | .literal values _ => literal values c path
  | .enum id _ _ => member ds id c path
  | .array _ _ _ => .error (.mismatch ⟨Kind.array.name, c.kind.name, path⟩)
  | _ => .error (.mismatch ⟨Kind.object.name, c.kind.name, path⟩)

/-- The case that the entries of an object name. -/
def caseOf (cases : List Case) (entries : List (String × Content)) (path : Path) :
    Except DecodeError Case :=
  match Entries.get? entries discriminatorKey with
  | none => .error (.missing ⟨discriminatorKey, path⟩)
  | some c =>
    match c.asString (path.key discriminatorKey) with
    | .error e => .error (.mismatch e)
    | .ok tag =>
      match caseFor? cases tag with
      | some found => .ok found
      | none => .error (.unknown ⟨tag, cases.map (·.tag), path.key discriminatorKey⟩)

mutual

/-- The value of a shape that content at a path holds. -/
def value (ds : Declarations) (c : Content) (shape : Shape) (path : Path) :
    Except DecodeError Value :=
  match c with
  | .array items =>
    match shape.core with
    | .array item container _ => (values ds items item path 0).map container.collect
    | core => leaf ds core (.array items) path
  | .object entries =>
    match shape.core with
    | .record id _ _ => do
      let fields ← (ds.fieldShapes id).mapError .type
      let given ← fields.mapM fun f => (f.attr, ·) <$> field ds entries f path
      .ok (ds.instantiate id given)
    | .union _ _ cases => do
      let found ← caseOf cases entries path
      let fields ← (ds.fieldShapes found.record).mapError .type
      let given ← fields.mapM fun f => (f.attr, ·) <$> field ds entries f path
      .ok (ds.instantiate found.record given)
    | core => leaf ds core (.object entries) path
  | c => if shape.isOptional && c.isNull then .ok .null else leaf ds shape.core c path

/-- The values of array items, the first of which has index `i`. -/
def values (ds : Declarations) (items : List Content) (shape : Shape) (path : Path) (i : Nat) :
    Except DecodeError (List Value) :=
  match items with
  | [] => .ok []
  | c :: cs => do
    let v ← value ds c shape (path.index i)
    let vs ← values ds cs shape path (i + 1)
    .ok (v :: vs)

/-- The value of a field: that of the entry under its key. -/
def field (ds : Declarations) (entries : List (String × Content)) (f : FieldShape) (path : Path) :
    Except DecodeError Value :=
  match entries with
  | [] => if f.optional then .ok .null else .error (.missing ⟨f.key, path⟩)
  | (k, c) :: rest =>
    if k == f.key then
      if f.optional && c.isNull then .ok .null else value ds c f.shape (path.key f.key)
    else field ds rest f path

end

end Decoding

/-- The value of a type that content holds. -/
def decode (ds : Declarations) (c : Content) (t : TypeExpr) : Except DecodeError Value := do
  let shape ← (ds.shapeOf t).mapError .type
  Decoding.value ds c shape .top

end StructuredOutput

import StructuredOutput.Content.OfValue
import StructuredOutput.Shape.Fields

/-!
Content from typed values, by a declared type or by the value's own class. Nothing encodes as null:
optional properties are present rather than left out.
-/

namespace StructuredOutput

/-- Why a value does not encode. -/
inductive EncodeError where
  | mismatch (cause : KindMismatch)
  | number (fault : NumberFault)
  | type (fault : TypeFault)
  deriving DecidableEq

/-- The kind of content that a scalar type requires. -/
def Primitive.kindName : Primitive → String
  | .text => "string"
  | .integer => "integer"
  | .real => "number"
  | .bool => "bool"

namespace Encoding

/-- What is said of a value that is not of the class required. -/
def mismatch {α : Type} (ds : Declarations) (expected : String) (v : Value) (path : Path) :
    Except EncodeError α :=
  .error (.mismatch ⟨expected, v.typeName ds, path⟩)

/-- The content of a scalar; an integer is a number, too, but a truth value is neither. -/
def primitive (ds : Declarations) (type : Primitive) (v : Value) (path : Path) :
    Except EncodeError Content :=
  match type, v.base with
  | .bool, .bool b => .ok (.bool b)
  | .text, .text s => .ok (.string s)
  | .integer, .integer n => (Content.ofInteger n).mapError .number
  | .real, .integer n => (Content.ofInteger n).mapError .number
  | .real, .real x => (Content.ofFloating x).mapError .number
  | type, _ => mismatch ds type.kindName v path

/-- The content of a value without parts. -/
def leaf (ds : Declarations) (shape : Shape) (v : Value) (path : Path) :
    Except EncodeError Content :=
  match shape with
  | .primitive type _ => primitive ds type v path
  | .literal _ _ =>
    match v.asText? with
    | some s => .ok (.string s)
    | none => mismatch ds "string" v path
  | .enum id _ _ =>
    match v with
    | .member enum name value _ =>
      if enum == id then .ok (.string (wireValue (name, value)))
      else mismatch ds (ds.className id) v path
    | _ => mismatch ds (ds.className id) v path
  | .array _ _ _ => mismatch ds "array" v path
  | .record id _ _ => mismatch ds (ds.className id) v path
  | .union name _ _ => mismatch ds name v path
  | .optional _ => mismatch ds "" v path

mutual

/-- The content of a value of a shape. -/
def value (ds : Declarations) (v : Value) (shape : Shape) (path : Path) :
    Except EncodeError Content :=
  match v with
  | .list items =>
    match shape.core with
    | .array item _ _ => (values ds items item path 0).map .array
    | core => leaf ds core (.list items) path
  | .tuple items =>
    match shape.core with
    | .array item _ _ => (values ds items item path 0).map .array
    | core => leaf ds core (.tuple items) path
  | .record id attrs =>
    match shape.core with
    | .record declared name description =>
      if ds.isSubrecord id declared then do
        let fields ← (ds.fieldShapes declared).mapError .type
        let entries ← fields.mapM fun f => (f.key, ·) <$> field ds attrs f path
        .ok (.ofEntries entries)
      else leaf ds (.record declared name description) (.record id attrs) path
    | .union name description cases =>
      match caseOf? cases id with
      | some found => do
        let fields ← (ds.fieldShapes id).mapError .type
        let entries ← fields.mapM fun f => (f.key, ·) <$> field ds attrs f path
        .ok (.ofEntries ((discriminatorKey, .string found.tag) :: entries))
      | none => leaf ds (.union name description cases) (.record id attrs) path
    | core => leaf ds core (.record id attrs) path
  | .null => if shape.isOptional then .ok .null else leaf ds shape .null path
  | v => leaf ds shape.core v path

/-- The contents of array items, the first of which has index `i`. -/
def values (ds : Declarations) (items : List Value) (shape : Shape) (path : Path) (i : Nat) :
    Except EncodeError (List Content) :=
  match items with
  | [] => .ok []
  | v :: vs => do
    let c ← value ds v shape (path.index i)
    let cs ← values ds vs shape path (i + 1)
    .ok (c :: cs)

/-- The content of a field: that of its attribute. -/
def field (ds : Declarations) (attrs : List (String × Value)) (f : FieldShape) (path : Path) :
    Except EncodeError Content :=
  match attrs with
  | [] => .ok .null
  | (n, v) :: rest =>
    if n == f.attr then
      if f.optional && v matches .null then .ok .null else value ds v f.shape (path.key f.key)
    else field ds rest f path

end

/-- The content of the slots of a record: they may hold anything, which has no shape. -/
def slots (ds : Declarations) (id : String) (fields : List (String × Value)) :
    Except EncodeError Content :=
  match fields with
  | [] => .ok (.object [])
  | (n, _) :: _ =>
    .error (.type (.definition
      (.inField (ds.slotsName id) n (.unsupportedType (TypeExpr.shown ds (.atom .any))))))

/-- The content of an instance of a class by its own shape. -/
def ofClass (ds : Declarations) (v : Value) (id : String) (path : Path) :
    Except EncodeError Content := do
  let shape ← (ds.shapeOf (.named id)).mapError .type
  value ds v shape path

/-- The content of an instance of a record; one that is declared as a case is tagged. -/
def record (ds : Declarations) (v : Value) (id : String) (path : Path) :
    Except EncodeError Content :=
  match (ds.naming id).case with
  | some tag => value ds v (.union "" none [⟨id, tag⟩]) path
  | none => ofClass ds v id path

mutual

/-- The content of a value by its own class. -/
def untyped (ds : Declarations) (v : Value) (path : Path) : Except EncodeError Content :=
  match Content.ofScalar? v with
  | some result => result.mapError .number
  | none =>
    match v with
    | .list items => (untypedItems ds items path 0).map .array
    | .tuple items => (untypedItems ds items path 0).map .array
    | .member enum name inner mixed => ofClass ds (.member enum name inner mixed) enum path
    | .record id attrs => record ds (.record id attrs) id path
    | .slots id fields => slots ds id fields
    | v => mismatch ds "encodable value" v path

def untypedItems (ds : Declarations) (items : List Value) (path : Path) (i : Nat) :
    Except EncodeError (List Content) :=
  match items with
  | [] => .ok []
  | v :: vs => do
    let c ← untyped ds v (path.index i)
    let cs ← untypedItems ds vs path (i + 1)
    .ok (c :: cs)

end

end Encoding

/-- The content of a value of a type, or of its own class if no type is given. -/
def encode (ds : Declarations) (v : Value) (t : Option TypeExpr) : Except EncodeError Content :=
  match t with
  | none => Encoding.untyped ds v .top
  | some t => do
    let shape ← (ds.shapeOf t).mapError .type
    Encoding.value ds v shape .top

end StructuredOutput

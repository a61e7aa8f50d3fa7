import StructuredOutput.Codec.Decode

/-!
What unfinished content already tells about a value. A slot of a record is unknown until its value
has been observed; an array is the tuple of its first items that are known.
-/

namespace StructuredOutput

namespace Value

/-- Whether nothing is known of a value. -/
def isUnknown (v : Value) : Bool := v matches .unknown

/-- The slots of a record, with the given ones known. -/
def slotsOf (fields : List FieldShape) (id : String) (given : List (String × Value)) : Value :=
  slots id (fields.map fun f => (f.attr, (Entries.get? given f.attr).getD .unknown))

end Value

namespace Declarations

/-- The slots of a record of which nothing is known. -/
def noSlots (ds : Declarations) (t : TypeExpr) : Except TypeFault (String × Value) :=
  match t.changeable? with
  | some typeName => .error (.changeableLiteral typeName)
  | none =>
    let refused := TypeFault.definition (.slotsOfNonRecord (t.shown ds))
    match t with
    | .named id =>
      match ds.record? id with
      | some _ => (ds.fieldShapes id).map fun fields => (id, .slotsOf fields id [])
      | none => .error refused
    | _ => .error refused

end Declarations

namespace Snapshot

/-- What content tells about a scalar. -/
def primitive (type : Primitive) (c : Content) : Value :=
  match type, c with
  | .text, .string s => .text s
  | .bool, .bool b => .bool b
  | .real, .number x => .real (.finite x)
  | .integer, .number x =>
    match x.toInt? with
    | some n => .integer n
    | none => .unknown
  | _, _ => .unknown

/-- What content tells about a value without parts. -/
def leaf (ds : Declarations) (shape : Shape) (c : Content) : Value :=
  match shape, c with
  | .primitive type _, c => primitive type c
  | .literal values _, .string s => if values.contains s then .text s else .unknown
  | .enum id _ _, .string s =>
    let e := ds.enumOf id
    match Entries.get? e.wires s with
    | some m => e.memberValue id m
    | none => .unknown
  | _, _ => .unknown

/-- The case that the entries of an object name. -/
def caseOf? (cases : List Case) (entries : List (String × Content)) : Option Case :=
  match Entries.get? entries discriminatorKey with
  | some (.string tag) => caseFor? cases tag
  | _ => none

mutual

/-- What content tells about a value of a shape. -/
def value (ds : Declarations) (c : Content) (shape : Shape) : Except TypeFault Value :=
  match c with
  | .array items =>
    match shape.core with
    | .array item _ _ => (known ds items item).map .tuple
    | core => .ok (leaf ds core (.array items))
  | .object entries =>
    match shape.core with
    | .record id _ _ => do
      let fields ← ds.fieldShapes id
      let slots ← fields.mapM fun f => (f.attr, ·) <$> slot ds entries f
      .ok (.slots id slots)
    | .union _ _ cases =>
      match caseOf? cases entries with
      | none => .ok .unknown
      | some found => do
        let fields ← ds.fieldShapes found.record
        let slots ← fields.mapM fun f => (f.attr, ·) <$> slot ds entries f
        .ok (.slots found.record slots)
    | core => .ok (leaf ds core (.object entries))
  | c => .ok (if shape.isOptional && c.isNull then .null else leaf ds shape.core c)

/-- The first items of an array that are known. -/
def known (ds : Declarations) (items : List Content) (shape : Shape) :
    Except TypeFault (List Value) :=
  match items with
  | [] => .ok []
  | c :: cs => do
    let v ← value ds c shape
    if v.isUnknown then .ok []
    else do
      let vs ← known ds cs shape
      .ok (v :: vs)

/-- What is known of a field. -/
def slot (ds : Declarations) (entries : List (String × Content)) (f : FieldShape) :
    Except TypeFault Value :=
  match entries with
  | [] => .ok .unknown
  | (k, c) :: rest =>
    if k == f.key then
      if f.optional && c.isNull then .ok .null else value ds c f.shape
    else slot ds rest f

end

mutual

/-- Joins two snapshots so that nothing observed is forgotten: what the later one does not know is
kept, slots of one record and items of arrays are joined one by one, and anything else is replaced
by what is known later. -/
def merge (previous current : Value) : Value :=
  match current with
  | .unknown => previous
  | .slots id fields =>
    match previous with
    | .slots id' fields' =>
      if id == id' then .slots id (mergeSlots fields' fields) else .slots id fields
    | _ => .slots id fields
  | .tuple items =>
    match previous with
    | .tuple items' => .tuple (mergeItems items' items)
    | _ => .tuple items
  | current => current

/-- Joins the slots of a record by name. -/
def mergeSlots (previous current : List (String × Value)) : List (String × Value) :=
  match current with
  | [] => []
  | (n, v) :: rest =>
    (n, merge ((Entries.get? previous n).getD .unknown) v) :: mergeSlots previous rest

/-- Joins the items of arrays; the longer one gives the rest. -/
def mergeItems (previous current : List Value) : List Value :=
  match previous, current with
  | [], current => current
  | previous, [] => previous
  | p :: ps, c :: cs => merge p c :: mergeItems ps cs

end

/-- The keys of the fields that must be given and of which nothing is known yet. -/
def missing (ds : Declarations) (v : Value) : Except TypeFault (List String) :=
  match v with
  | .slots id slots => do
    let fields ← ds.fieldShapes id
    .ok ((fields.filter fun f =>
      !f.optional && ((Entries.get? slots f.attr).getD .unknown).isUnknown).map (·.key))
  | _ => .ok []

end Snapshot

/-- What content tells about a value of a type. -/
def snapshot (ds : Declarations) (c : Content) (t : TypeExpr) : Except TypeFault Value := do
  let shape ← ds.shapeOf t
  Snapshot.value ds c shape

end StructuredOutput

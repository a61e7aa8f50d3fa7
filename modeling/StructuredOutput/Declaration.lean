import StructuredOutput.Constraint
import StructuredOutput.Value

/-!
Declared types: records, enumerations, aliases and plain classes, and the type expressions that
refer to them.
-/

namespace StructuredOutput

/-- A type without parts. The last five are names that need an argument or allow any value. -/
inductive Atom where
  | text | integer | real | bool | none | bytes | object | list | tuple | dict
  | bareList | bareTuple | bareSequence | any | optional
  deriving DecidableEq

/-- What may be attached to a type expression. -/
inductive Note where
  /-- Refinements and a description. -/
  | guide (constraints : List Constraint) (description : Option String)
  /-- The name of a tagged union. -/
  | tagged (name : String) (description : Option String)
  /-- Text without a meaning here. -/
  | remark (text : String)

/-- A type expression. -/
inductive TypeExpr where
  | atom (a : Atom)
  | named (id : String)
  | list (item : TypeExpr)
  | sequence (item : TypeExpr)
  | set (item : TypeExpr)
  | dict (key value : TypeExpr)
  | tuple (items : List TypeExpr)
  /-- A tuple whose last item may be repeated. -/
  | variadic (items : List TypeExpr)
  | literal (values : List Value)
  | union (members : List TypeExpr)
  | annotated (inner : TypeExpr) (notes : List Note)
  /-- Text with a name that nothing defines. -/
  | undefined (text : String)

/-- Names for use outside the program. -/
structure Naming where
  name : Option String
  description : Option String
  /-- The discriminator of a record as a case of a union. -/
  case : Option String
  deriving DecidableEq

/-- A declared field of a record. -/
structure FieldDecl where
  name : String
  type : TypeExpr
  givenKey : Option Value
  description : Option Value
  unlabeled : Bool
  default : Option Value
  /-- Whether the field is given when an instance is made; if not, it has its default. -/
  init : Bool

/-- What the members of an enumeration are besides. -/
inductive Mixin where
  | text | integer
  deriving DecidableEq

/-- A declared record; `base` is the record that it extends. -/
structure RecordDecl where
  className : String
  base : Option String
  naming : Option Naming
  fields : List FieldDecl

/-- A declared enumeration. -/
structure EnumDecl where
  className : String
  naming : Option Naming
  mixin : Option Mixin
  members : List (String × Value)

/-- A declaration. -/
inductive Declaration where
  | record (decl : RecordDecl)
  | enum (decl : EnumDecl)
  | typeAlias (type : TypeExpr)
  | plain

/-- Declarations by identifier. `home` is the module that all of them live in. -/
structure Declarations where
  home : String
  entries : List (String × Declaration)

namespace Declarations

/-- No declarations. -/
def empty : Declarations := ⟨"m", []⟩

def find? (ds : Declarations) (id : String) : Option Declaration := Entries.get? ds.entries id

def record? (ds : Declarations) (id : String) : Option RecordDecl :=
  match ds.find? id with
  | some (.record r) => some r
  | _ => none

def enum? (ds : Declarations) (id : String) : Option EnumDecl :=
  match ds.find? id with
  | some (.enum e) => some e
  | _ => none

/-- The enumeration of an identifier; one that is not declared has no members. -/
def enumOf (ds : Declarations) (id : String) : EnumDecl :=
  (ds.enum? id).getD ⟨id, none, none, []⟩

/-- The name of a class; an alias goes by its identifier. -/
def className (ds : Declarations) (id : String) : String :=
  match ds.find? id with
  | some (.record r) => r.className
  | some (.enum e) => e.className
  | _ => id

/-- Whether an identifier names a class rather than an alias. -/
def isClass (ds : Declarations) (id : String) : Bool :=
  match ds.find? id with
  | some (.typeAlias _) => false
  | _ => true

/-- The names given to a class itself; a record does not take over those of its base. -/
def naming (ds : Declarations) (id : String) : Naming :=
  let given := match ds.find? id with
    | some (.record r) => r.naming
    | some (.enum e) => e.naming
    | _ => none
  given.getD ⟨none, none, none⟩

/-- Lays fields over inherited ones: a field of the same name takes the inherited place. -/
def override (inherited own : List FieldDecl) : List FieldDecl :=
  own.foldl
    (fun acc f =>
      if acc.any (·.name == f.name) then acc.map fun g => if g.name == f.name then f else g
      else acc ++ [f])
    inherited

/-- The records that a record extends and the record itself, the remotest first; at most `fuel` of
them. -/
def lineage (ds : Declarations) : (fuel : Nat) → String → List RecordDecl
  | 0, _ => []
  | fuel + 1, id =>
    match ds.record? id with
    | none => []
    | some r =>
      match r.base with
      | none => [r]
      | some b => lineage ds fuel b ++ [r]

/-- The records from the remotest base of a record down to itself. -/
def ancestry (ds : Declarations) (id : String) : List RecordDecl :=
  ds.lineage (ds.entries.length + 1) id

/-- All fields of a record, inherited ones first. -/
def fields (ds : Declarations) (id : String) : List FieldDecl :=
  (ds.ancestry id).foldl (fun acc r => override acc r.fields) []

/-- Whether a record is another one or extends it in at most `fuel` steps. -/
def descends (ds : Declarations) (base : String) : (fuel : Nat) → String → Bool
  | 0, id => id == base
  | fuel + 1, id =>
    id == base ||
      match (ds.record? id).bind (·.base) with
      | some b => descends ds base fuel b
      | none => false

/-- Whether instances of a record are instances of another. -/
def isSubrecord (ds : Declarations) (id base : String) : Bool :=
  ds.descends base ds.entries.length id

end Declarations

namespace EnumDecl

/-- The value of a member: in an enumeration of texts or integers it is one itself. -/
def memberValue (e : EnumDecl) (id : String) (m : String × Value) : Value :=
  .member id m.1 m.2 e.mixin.isSome

/-- The members in order; one whose value equals an earlier one's is another name for that. -/
def canonical (e : EnumDecl) : List (String × Value) :=
  e.members.foldl (fun acc m => if acc.any (·.2.same m.2) then acc else acc ++ [m]) []

/-- The member of a name. -/
def member? (e : EnumDecl) (name : String) : Option (String × Value) :=
  (Entries.get? e.members name).bind fun v => e.canonical.find? (·.2.same v)

end EnumDecl

end StructuredOutput

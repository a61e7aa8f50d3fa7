import StructuredOutput.Constraint

/-!
Shapes: how the values of a type travel as content. The fields of a record are not part of its
shape, so that the shape of a type that refers to itself is finite.
-/

namespace StructuredOutput

/-- The types of scalars. -/
inductive Primitive where
  | text | integer | real | bool
  deriving DecidableEq

/-- What the items of an array are collected in. -/
inductive Container where
  | list | tuple
  deriving DecidableEq

/-- A case of a tagged union: a record and its discriminator. -/
structure Case where
  record : String
  tag : String
  deriving DecidableEq

/-- The shape of a type. Records and enumerations are given by their identifiers. -/
inductive Shape where
  | primitive (type : Primitive) (constraints : List Constraint)
  | literal (values : List String) (constraints : List Constraint)
  | array (item : Shape) (container : Container) (constraints : List Constraint)
  | optional (inner : Shape)
  | record (id name : String) (description : Option String)
  | enum (id name : String) (description : Option String)
  | union (name : String) (description : Option String) (cases : List Case)

/-- A field of a record as it travels: its attribute, its key, and the shape of a value that is
there. -/
structure FieldShape where
  attr : String
  key : String
  shape : Shape
  optional : Bool
  description : Option String

namespace Shape

/-- Whether null is a value of the shape. -/
def isOptional : Shape → Bool
  | optional _ => true
  | _ => false

/-- The shape of the values that are not null. -/
def core : Shape → Shape
  | optional inner => inner.core
  | s => s

end Shape

/-- The case of a discriminator. -/
def caseFor? (cases : List Case) (tag : String) : Option Case := cases.find? (·.tag == tag)

/-- The case of a record. -/
def caseOf? (cases : List Case) (record : String) : Option Case :=
  cases.find? (·.record == record)

end StructuredOutput

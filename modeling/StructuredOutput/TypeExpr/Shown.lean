import StructuredOutput.Value.Shown

/-!
How type expressions appear in messages. A union of classes and types built from them is written
with bars; one that has a member of another kind is written as a generic type.
-/

namespace StructuredOutput

open Text

/-- An optional part of a message; its absence is written, too. -/
def optionalText : Option String → String
  | none => "None"
  | some s => s

namespace Span

/-- The two bounds as arguments. -/
def arguments (s : Span) : String :=
  let part (b : Option Nat) : String := optionalText (b.map fun n => String.ofList (decimal n))
  "(lower=" ++ part s.lower ++ ", upper=" ++ part s.upper ++ ")"

end Span

namespace Constraint

/-- The written form of a refinement. -/
def shown : Constraint → String
  | text (.pattern regex) => "Pattern(regex=" ++ quotedString regex ++ ")"
  | text (.constant value) => "Constant(value=" ++ quotedString value ++ ")"
  | text (.oneOf values) => "OneOf(values=" ++ tupleText (values.map quotedString) ++ ")"
  | text (.length span) => "Length" ++ span.arguments
  | range r =>
    "Range(lower=" ++ optionalText (r.lower.map Bound.text) ++ ", upper="
      ++ optionalText (r.upper.map Bound.text) ++ ")"
  | count span => "Count" ++ span.arguments
  | element inner => "Element(constraint=" ++ shown inner ++ ")"

end Constraint

/-- The written form of what is attached to a type. -/
def Note.shown : Note → String
  | .guide constraints description =>
    "Guide(constraints=" ++ tupleText (constraints.map Constraint.shown) ++ ", description="
      ++ optionalText (description.map quotedString) ++ ")"
  | .tagged name description =>
    "TaggedUnion(name=" ++ quotedString name ++ ", description="
      ++ optionalText (description.map quotedString) ++ ")"
  | .remark text => quotedString text

namespace Atom

/-- The name of a type without parts. -/
def name : Atom → String
  | text => "str"
  | integer => "int"
  | real => "float"
  | bool => "bool"
  | none => "NoneType"
  | bytes => "bytes"
  | object => "object"
  | list => "list"
  | tuple => "tuple"
  | dict => "dict"
  | bareList => "typing.List"
  | bareTuple => "typing.Tuple"
  | bareSequence => "typing.Sequence"
  | any => "typing.Any"
  | optional => "typing.Optional"

/-- All types without parts. -/
def all : List Atom :=
  [text, integer, real, bool, none, bytes, object, list, tuple, dict, bareList, bareTuple,
    bareSequence, any, optional]

/-- The type of a name. -/
def ofName? (s : String) : Option Atom := all.find? fun a => a.name == s

/-- Whether it is a class, that is not a special name. -/
def isClass : Atom → Bool
  | bareList | bareTuple | bareSequence | any | optional => false
  | _ => true

/-- Whether it can be joined to another type by a bar. -/
def isBarred (a : Atom) : Bool := a.isClass || a == any

end Atom

namespace TypeExpr

/-- Whether a type can be joined to another by a bar without becoming a generic type. -/
def isBarred (ds : Declarations) : TypeExpr → Bool
  | atom a => a.isBarred
  | named id => ds.isClass id
  | literal _ | annotated _ _ | undefined _ => false
  | _ => true

/-- The written form of a union, from its members and their written forms. -/
def unionText (ds : Declarations) (members : List TypeExpr) (texts : List String) : String :=
  if members.all (isBarred ds) then
    " | ".intercalate <|
      members.zipWith (fun t s => if t matches atom .none then "None" else s) texts
  else
    match members, texts with
    | [atom .none, _], [_, s] => "typing.Optional[" ++ s ++ "]"
    | [_, atom .none], [s, _] => "typing.Optional[" ++ s ++ "]"
    | _, _ => "typing.Union[" ++ ", ".intercalate texts ++ "]"

/-- The written form of a value of a literal type; a class goes by its name. -/
def optionText (ds : Declarations) : Value → String
  | .type id => ds.qualifiedName id
  | v => v.shown ds

mutual

/-- The written form of a type inside another one. -/
def inner (ds : Declarations) : TypeExpr → String
  | atom a => a.name
  | named id => ds.qualifiedName id
  | list t => "list[" ++ inner ds t ++ "]"
  | sequence t => "collections.abc.Sequence[" ++ inner ds t ++ "]"
  | set t => "set[" ++ inner ds t ++ "]"
  | dict k v => "dict[" ++ inner ds k ++ ", " ++ inner ds v ++ "]"
  | tuple [] => "tuple[()]"
  | tuple ts => "tuple[" ++ ", ".intercalate (innerAll ds ts) ++ "]"
  | variadic ts => "tuple[" ++ ", ".intercalate (innerAll ds ts ++ ["..."]) ++ "]"
  | literal [] => "typing.Literal[()]"
  | literal values => "typing.Literal[" ++ ", ".intercalate (values.map (optionText ds)) ++ "]"
  | union members => unionText ds members (innerAll ds members)
  | annotated t notes =>
    "typing.Annotated[" ++ ", ".intercalate (inner ds t :: notes.map Note.shown) ++ "]"
  | undefined text => text

/-- The written forms of several types. -/
def innerAll (ds : Declarations) : List TypeExpr → List String
  | [] => []
  | t :: ts => inner ds t :: innerAll ds ts

end

/-- The written form of a type that stands alone. -/
def shown (ds : Declarations) : TypeExpr → String
  | atom a => if a.isClass then "<class '" ++ a.name ++ "'>" else a.name
  | named id => ds.classText id
  | t => t.inner ds

/-- The name of a type, where it has one, and else its written form. -/
def label (ds : Declarations) : TypeExpr → String
  | atom .bareList => "List"
  | atom .bareTuple => "Tuple"
  | atom .bareSequence => "Sequence"
  | atom .any => "Any"
  | atom .optional => "Optional"
  | atom a => a.name
  | named id => ds.className id
  | list _ => "list"
  | sequence _ => "Sequence"
  | set _ => "set"
  | dict _ _ => "dict"
  | tuple _ | variadic _ => "tuple"
  | literal _ => "Literal"
  | union members =>
    if members.all (isBarred ds) then (union members).inner ds
    else
      match members with
      | [_, atom .none] | [atom .none, _] => "Optional"
      | _ => "Union"
  | annotated _ _ => "Annotated"
  | t => t.inner ds

end TypeExpr

end StructuredOutput

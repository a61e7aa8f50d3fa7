import StructuredOutput.Declaration
import StructuredOutput.Text.Identifier

/-!
Names in type expressions that are given as text, and which of them nothing defines.
-/

namespace StructuredOutput

open Text

/-- The words of a text: its longest runs of characters that an identifier can have. -/
def words (cs : List Char) : List (List Char) :=
  let add (c : Char) (acc : List (List Char)) : List (List Char) :=
    if isIdentifierPart c then
      match acc with
      | [] => [[c]]
      | w :: ws => (c :: w) :: ws
    else [] :: acc
  (cs.foldr add []).filter isIdentifier

/-- The names that are defined without a declaration. -/
def predefined : List String :=
  ["int", "str", "float", "bool", "complex", "bytes", "bytearray", "list", "tuple", "set",
    "frozenset", "dict", "object", "type", "None", "True", "False"]

namespace Declarations

/-- The first name in a text that nothing defines; the whole text if there is none. -/
def undefinedName (ds : Declarations) (text : String) : String :=
  let names := (words text.toList).map String.ofList
  (names.find? fun n => !predefined.contains n && (ds.find? n).isNone).getD text

mutual

/-- The first name in a type that nothing defines. -/
def undefinedIn? (ds : Declarations) : TypeExpr → Option String
  | .undefined text => some (ds.undefinedName text)
  | .list t | .sequence t | .set t | .annotated t _ => undefinedIn? ds t
  | .dict k v => (undefinedIn? ds k).or (undefinedIn? ds v)
  | .tuple ts | .variadic ts | .union ts => undefinedInAny? ds ts
  | .atom _ | .named _ | .literal _ => none

def undefinedInAny? (ds : Declarations) : List TypeExpr → Option String
  | [] => none
  | t :: ts => (undefinedIn? ds t).or (undefinedInAny? ds ts)

end

/-- The first name in the annotations of a record and its bases that nothing defines. -/
def undefinedInRecord? (ds : Declarations) (id : String) : Option String :=
  (ds.ancestry id).findSome? fun r => r.fields.findSome? fun f => ds.undefinedIn? f.type

end Declarations

end StructuredOutput

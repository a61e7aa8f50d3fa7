import StructuredOutput.Declaration
import StructuredOutput.Text.Quoted

/-!
How values appear in messages: their written form and the names of their types.
-/

namespace StructuredOutput

open Text

/-- The items of a tuple between parentheses; a single one is followed by a comma. -/
def tupleText : List String → String
  | [] => "()"
  | [x] => "(" ++ x ++ ",)"
  | xs => "(" ++ ", ".intercalate xs ++ ")"

namespace Declarations

/-- The name of a class together with its module. -/
def qualifiedName (ds : Declarations) (id : String) : String :=
  if ds.isClass id then ds.home ++ "." ++ ds.className id else id

/-- A declared class, or the name of an alias. -/
def classText (ds : Declarations) (id : String) : String :=
  match ds.find? id with
  | some (.typeAlias _) => id
  | some (.enum e) => "<enum '" ++ e.className ++ "'>"
  | _ => "<class '" ++ ds.qualifiedName id ++ "'>"

/-- The name of the class that holds what is known of a record. -/
def slotsName (ds : Declarations) (id : String) : String := ds.className id ++ "Partial"

end Declarations

namespace Value

/-- The name of the type of a value. -/
def typeName (ds : Declarations) : Value → String
  | null => "NoneType"
  | bool _ => "bool"
  | integer _ => "int"
  | real _ => "float"
  | text _ => "str"
  | bytes _ => "bytes"
  | list _ => "list"
  | tuple _ => "tuple"
  | set _ => "set"
  | dict _ => "dict"
  | unknown => "_Unknown"
  | object => "object"
  | type id =>
    match ds.find? id with
    | some (.enum _) => "EnumType"
    | some (.typeAlias _) => "TypeAliasType"
    | _ => "type"
  | member enum _ _ _ => ds.className enum
  | record id _ => ds.className id
  | slots id _ => ds.slotsName id

mutual

/-- The written form of a value. -/
def shown (ds : Declarations) : Value → String
  | null => "None"
  | bool true => "True"
  | bool false => "False"
  | integer n => String.ofList (integerText n)
  | real x => String.ofList (plainLayout.floatingText x)
  | text s => quotedString s
  | bytes b => String.ofList (quotedBytes b)
  | list items => "[" ++ ", ".intercalate (shownItems ds items) ++ "]"
  | tuple items => tupleText (shownItems ds items)
  | set [] => "set()"
  | set items => "\x7b" ++ ", ".intercalate (shownItems ds items) ++ "\x7d"
  | dict entries => "\x7b" ++ ", ".intercalate (shownEntries ds entries) ++ "\x7d"
  | unknown => "UNKNOWN"
  | object => "<object object>"
  | type id => ds.classText id
  | member enum name value _ =>
    "<" ++ ds.className enum ++ "." ++ name ++ ": " ++ shown ds value ++ ">"
  | record id fields => ds.className id ++ "(" ++ ", ".intercalate (shownFields ds fields) ++ ")"
  | slots id fields => ds.slotsName id ++ "(" ++ ", ".intercalate (shownFields ds fields) ++ ")"

/-- The written forms of several values. -/
def shownItems (ds : Declarations) : List Value → List String
  | [] => []
  | v :: vs => shown ds v :: shownItems ds vs

/-- The written forms of dictionary entries. -/
def shownEntries (ds : Declarations) : List (Value × Value) → List String
  | [] => []
  | (k, v) :: es => (shown ds k ++ ": " ++ shown ds v) :: shownEntries ds es

/-- The written forms of attributes. -/
def shownFields (ds : Declarations) : List (String × Value) → List String
  | [] => []
  | (n, v) :: fs => (n ++ "=" ++ shown ds v) :: shownFields ds fs

end

/-- A value as plain text: a text is itself and a member goes by its name. -/
def plain (ds : Declarations) : Value → String
  | text s => s
  | member enum name _ _ => ds.className enum ++ "." ++ name
  | v => v.shown ds

mutual

/-- The name of the type of the first part of a value that can be changed in place; a value
without such parts can be a key. -/
def changeable? : Value → Option String
  | list _ => some "list"
  | set _ => some "set"
  | dict _ => some "dict"
  | tuple items => changeableItem? items
  | record _ fields => changeableField? fields
  | slots _ fields => changeableField? fields
  | _ => none

def changeableItem? : List Value → Option String
  | [] => none
  | v :: vs => (changeable? v).or (changeableItem? vs)

def changeableField? : List (String × Value) → Option String
  | [] => none
  | (_, v) :: fs => (changeable? v).or (changeableField? fs)

end

end Value

end StructuredOutput

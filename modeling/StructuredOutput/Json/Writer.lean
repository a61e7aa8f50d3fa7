import StructuredOutput.Json.Tree
import StructuredOutput.Number.Layout

/-!
JSON text of a value: on one line, or with every item and entry on its own indented line.
-/

namespace StructuredOutput.Json

open Text

/-- How JSON text is written. -/
structure Style where
  /-- Spaces per level, each item on its own line; all on one line if absent. -/
  indent : Option Nat
  /-- What separates a key from its value. -/
  colon : String
  /-- Whether characters outside printable ASCII are written as escapes. -/
  asciiOnly : Bool
  numbers : NumberLayout

/-- One line, no blanks, text as it is. -/
def compactStyle : Style := ⟨none, ":", false, plainLayout⟩

/-- The style for an indentation, compact if there is none. -/
def styleFor : Option Nat → Style
  | none => compactStyle
  | some n => { compactStyle with indent := some n, colon := ": " }

/-- The letter that stands for a character after a backslash, for those that have one. -/
def shortEscape? (c : Char) : Option Char :=
  if c = '"' then some '"'
  else if c = '\\' then some '\\'
  else if c = '\n' then some 'n'
  else if c = '\r' then some 'r'
  else if c = '\t' then some 't'
  else if c.toNat = 8 then some 'b'
  else if c.toNat = 12 then some 'f'
  else none

/-- A UTF-16 code unit as an escape. -/
def unitEscape (n : Nat) : List Char := '\\' :: 'u' :: hexDigits n 4

/-- The UTF-16 code units of a character as escapes. -/
def unicodeEscape (c : Char) : List Char :=
  if c.toNat < 0x10000 then unitEscape c.toNat
  else
    let n := c.toNat - 0x10000
    unitEscape (0xd800 + n / 0x400) ++ unitEscape (0xdc00 + n % 0x400)

/-- A character inside a JSON string. -/
def escapedChar (asciiOnly : Bool) (c : Char) : List Char :=
  match shortEscape? c with
  | some e => ['\\', e]
  | none =>
    if c.toNat < 0x20 || (asciiOnly && 0x7e < c.toNat) then unicodeEscape c else [c]

/-- A JSON string. -/
def stringText (asciiOnly : Bool) (cs : List Char) : List Char :=
  '"' :: cs.flatMap (escapedChar asciiOnly) ++ ['"']

/-- The line break before an item at nesting level `level`, if items have their own lines. -/
def Style.lineBreak (s : Style) (level : Nat) : List Char :=
  match s.indent with
  | none => []
  | some n => '\n' :: List.replicate (n * level) ' '

/-- Puts the parts of a container between its brackets. -/
def Style.enclose (s : Style) (level : Nat) (opening closing : Char) (parts : List (List Char)) :
    List Char :=
  match parts with
  | [] => [opening, closing]
  | _ =>
    opening :: s.lineBreak (level + 1) ++ List.intercalate (',' :: s.lineBreak (level + 1)) parts
      ++ s.lineBreak level ++ [closing]

mutual

/-- The text of a value at nesting level `level`. -/
def text (s : Style) (level : Nat) : Json → List Char
  | null => "null".toList
  | bool true => "true".toList
  | bool false => "false".toList
  | integer n => integerText n
  | real x => s.numbers.floatingText x
  | string t => stringText s.asciiOnly t.toList
  | array items => s.enclose level '[' ']' (itemTexts s (level + 1) items)
  | object entries => s.enclose level '{' '}' (entryTexts s (level + 1) entries)

/-- The texts of array items. -/
def itemTexts (s : Style) (level : Nat) : List Json → List (List Char)
  | [] => []
  | item :: rest => text s level item :: itemTexts s level rest

/-- The texts of object entries. -/
def entryTexts (s : Style) (level : Nat) : List (String × Json) → List (List Char)
  | [] => []
  | (key, value) :: rest =>
    (stringText s.asciiOnly key.toList ++ s.colon.toList ++ text s level value)
      :: entryTexts s level rest

end

/-- The JSON text of a value. -/
def write (s : Style) (j : Json) : String := String.ofList (text s 0 j)

end StructuredOutput.Json

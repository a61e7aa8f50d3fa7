import StructuredOutput.Text.Quoted

/-!
What can be wrong with a regular expression, and where.
-/

namespace StructuredOutput.Pattern

open Text

/-- Why a text is not a regular expression. -/
inductive Fault where
  | escapeAtEnd
  | badEscape (text : List Char)
  | incompleteEscape (text : List Char)
  | octalEscape (text : List Char)
  /-- Something that must follow is absent. -/
  | missing (what : String)
  | unterminatedName (closing : Char)
  | undefinedCharacter (name : List Char)
  | unterminatedSet
  | badRange (first last : List Char)
  | nothingToRepeat
  | multipleRepeat
  | repeatOrder
  | repeatTooLarge
  | unexpectedEnd
  | unterminatedGroup
  | unterminatedComment
  | unbalanced
  | unknownExtension (text : List Char)
  | badGroupName (name : List Char)
  | unknownGroupName (name : List Char)
  | groupRedefinition (name : List Char) (group former : Nat)
  | badGroupNumber
  | invalidReference (group : Nat)
  | openReference
  | lookbehindReference
  | conditionBranches
  | variableLookbehind
  | unknownFlag
  /-- Flags that cannot stand where they do. -/
  | badFlags (why : String)
  | misplacedFlags
  deriving DecidableEq

/-- A fault and its place; a fault of the whole expression has none. -/
structure Failure where
  fault : Fault
  position : Option Nat
  deriving DecidableEq

/-- What a fault says before its place is told. -/
def Fault.message : Fault → String
  | .escapeAtEnd => "bad escape (end of pattern)"
  | .badEscape text => "bad escape " ++ String.ofList text
  | .incompleteEscape text => "incomplete escape " ++ String.ofList text
  | .octalEscape text => "octal escape value " ++ String.ofList text ++ " outside of range 0-0o377"
  | .missing what => "missing " ++ what
  | .unterminatedName closing => s!"missing {closing}, unterminated name"
  | .undefinedCharacter name => "undefined character name " ++ String.ofList (quoted name)
  | .unterminatedSet => "unterminated character set"
  | .badRange first last => "bad character range " ++ String.ofList (first ++ '-' :: last)
  | .nothingToRepeat => "nothing to repeat"
  | .multipleRepeat => "multiple repeat"
  | .repeatOrder => "min repeat greater than max repeat"
  | .repeatTooLarge => "the repetition number is too large"
  | .unexpectedEnd => "unexpected end of pattern"
  | .unterminatedGroup => "missing ), unterminated subpattern"
  | .unterminatedComment => "missing ), unterminated comment"
  | .unbalanced => "unbalanced parenthesis"
  | .unknownExtension text => "unknown extension ?" ++ String.ofList text
  | .badGroupName name => "bad character in group name " ++ String.ofList (quoted name)
  | .unknownGroupName name => "unknown group name " ++ String.ofList (quoted name)
  | .groupRedefinition name group former =>
    "redefinition of group name " ++ String.ofList (quoted name)
      ++ s!" as group {group}; was group {former}"
  | .badGroupNumber => "bad group number"
  | .invalidReference group => s!"invalid group reference {group}"
  | .openReference => "cannot refer to an open group"
  | .lookbehindReference => "cannot refer to group defined in the same lookbehind subpattern"
  | .conditionBranches => "conditional backref with more than two branches"
  | .variableLookbehind => "look-behind requires fixed-width pattern"
  | .unknownFlag => "unknown flag"
  | .badFlags why => "bad inline flags: " ++ why
  | .misplacedFlags => "global flags not at the start of the expression"

/-- What a failure says: the fault and its place; in an expression of several lines, also the line
and the column. -/
def Failure.message (text : List Char) (f : Failure) : String :=
  match f.position with
  | none => f.fault.message
  | some p =>
    let place := s!"{f.fault.message} at position {p}"
    if text.contains '\n' then
      let before := text.take p
      let line := before.count '\n' + 1
      let column := (before.reverse.takeWhile (· != '\n')).length + 1
      place ++ s!" (line {line}, column {column})"
    else place

end StructuredOutput.Pattern

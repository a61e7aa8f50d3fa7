import StructuredOutput.Text.Quoted

/-!
The backends that schemas are written for, and why a schema cannot be written for one.
-/

namespace StructuredOutput

open Text

/-- The families of grammars. -/
inductive Backend where
  | jsonSchema | openai | gemini | gbnf
  deriving DecidableEq

namespace Backend

def name : Backend → String
  | jsonSchema => "json_schema"
  | openai => "openai"
  | gemini => "gemini"
  | gbnf => "gbnf"

/-- All backends. -/
def all : List Backend := [jsonSchema, openai, gemini, gbnf]

/-- The backend of a name. -/
def ofName? (s : String) : Option Backend := all.find? fun b => b.name == s

/-- Whether a document may refer to a part of itself. -/
def supportsPointers (b : Backend) : Bool := b != gemini

/-- What is said of a name that is no backend's. -/
def unknownMessage (s : String) : String := quotedString s ++ " is not a valid BackendKind"

end Backend

/-- Why a schema cannot be written for a backend. -/
inductive ProjectionFault where
  | stated (reason : String)
  | sharedName (name : String)
  | rootNotObject (kind : String)
  | recursive (name : String)
  | emptyUnion (name : String)
  | numericRange
  | pattern (regex : String)
  | reversedLength (lower upper : Nat)
  | reversedCount (lower upper : Nat)
  /-- A reference without a node that it stands for. -/
  | dangling (name : String)
  deriving DecidableEq

def ProjectionFault.reason : ProjectionFault → String
  | .stated reason => reason
  | .sharedName name => "two different schemas are named " ++ quotedString name
  | .rootNotObject kind => s!"structured outputs require an object at the root, got {kind}"
  | .recursive name => "recursive schema " ++ quotedString name ++ " cannot be inlined"
  | .emptyUnion name => "union " ++ quotedString name ++ " has no alternatives"
  | .numericRange => "numeric ranges cannot be expressed in GBNF"
  | .pattern regex => "pattern " ++ quotedString regex ++ " cannot be expressed in GBNF"
  | .reversedLength lower upper => s!"string length bounds {lower}..{upper} are contradictory"
  | .reversedCount lower upper => s!"array bounds {lower}..{upper} are contradictory"
  | .dangling name => "no schema is named " ++ quotedString name

end StructuredOutput

import StructuredOutput.Content
import StructuredOutput.DefinitionError

/-!
Why content does not decode, each cause with the place of the node at fault.
-/

namespace StructuredOutput

open Text

/-- An object without a property that is required. -/
structure MissingProperty where
  name : String
  path : Path
  deriving DecidableEq

def MissingProperty.message (m : MissingProperty) : String :=
  m.path.text ++ ": missing required property " ++ quotedString m.name

/-- A text that is none of the options at its place. -/
structure UnknownDiscriminator where
  value : String
  expected : List String
  path : Path
  deriving DecidableEq

def UnknownDiscriminator.message (u : UnknownDiscriminator) : String :=
  let told := u.path.text ++ ": unknown discriminator " ++ quotedString u.value
  if u.expected.isEmpty then told
  else told ++ " (expected one of " ++ ", ".intercalate u.expected ++ ")"

/-- Why content does not decode. -/
inductive DecodeError where
  | mismatch (cause : KindMismatch)
  | missing (cause : MissingProperty)
  | unknown (cause : UnknownDiscriminator)
  /-- The fields of a record have no shapes. -/
  | type (fault : TypeFault)
  deriving DecidableEq

end StructuredOutput

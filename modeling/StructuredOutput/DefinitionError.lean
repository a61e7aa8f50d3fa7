import StructuredOutput.Text.Quoted
import StructuredOutput.Pattern.Fault

/-!
Why a declared type or a refinement cannot form a schema.
-/

namespace StructuredOutput

open Text

/-- The list of the texts, each quoted. -/
def quotedList (texts : List String) : String :=
  "[" ++ ", ".intercalate (texts.map quotedString) ++ "]"

/-- Why a declaration is refused. Types are given in their written form. -/
inductive DefinitionError where
  | stated (text : String)
  | invalidPattern (regex : String) (failure : Pattern.Failure)
  | constantNotText
  | noOptions
  | optionNotText
  | spanNotInteger (kind bound : String)
  | spanNegative (kind : String)
  | boundNotNumber (bound : String)
  | boundNotFinite
  | boundsReversed (kind lower upper : String)
  | cannotConstrain (constraint schema : String)
  | fractionalRange (lower upper : String)
  | constrainedUnion (name : String)
  | constrainedReference (name : String)
  | duplicateProperties (name : String)
  | constrainedUnionType
  | constrainedClass (name : String)
  | taggedNonUnion (type : String)
  | literalNotText (type : String)
  | unsupportedType (type : String)
  | emptyEnum (name : String)
  | sharedWireValue (name : String)
  | mixedTuple (type : String)
  | missingItemType (type : String)
  | optionalItems (type : String)
  | caseNotRecord (type : String)
  | reservedField (record : String)
  | sharedCase (cases : List String)
  | undefinedName (record name : String)
  | inField (record field : String) (cause : DefinitionError)
  | sharedKey (record : String) (keys : List String)
  | optionalRoot (type : String)
  | nestedOptional
  | slotsOfNonRecord (type : String)
  deriving DecidableEq

/-- The key that tells the case of a tagged union. -/
def discriminatorKey : String := "type"

/-- What a refused declaration is told. -/
def DefinitionError.message : DefinitionError → String
  | .stated text => text
  | .invalidPattern regex failure =>
    "Pattern " ++ quotedString regex ++ " is not a valid regular expression: "
      ++ failure.message regex.toList
  | .constantNotText => "Constant requires a string value."
  | .noOptions => "OneOf requires at least one option."
  | .optionNotText => "OneOf options must be strings."
  | .spanNotInteger kind bound => s!"{kind} bounds must be integers, got {bound}"
  | .spanNegative kind => s!"{kind} bounds must be non-negative."
  | .boundNotNumber bound => s!"Range bounds must be numbers, got {bound}"
  | .boundNotFinite => "Range bounds must be finite."
  | .boundsReversed kind lower upper => s!"{kind} lower bound {lower} exceeds upper bound {upper}."
  | .cannotConstrain constraint schema => s!"{constraint} cannot constrain a {schema} schema."
  | .fractionalRange lower upper =>
    s!"Integer ranges require integral bounds, got {lower}..{upper}."
  | .constrainedUnion name =>
    "Constraints cannot be applied to union " ++ quotedString name
      ++ "; constrain the alternatives instead."
  | .constrainedReference name =>
    "Constraints cannot be applied to recursive reference " ++ quotedString name ++ "."
  | .duplicateProperties name => "Object " ++ quotedString name ++ " declares duplicate properties."
  | .constrainedUnionType =>
    "Constraints cannot be applied to a union; constrain the cases instead."
  | .constrainedClass name =>
    s!"Constraints cannot be applied to {name}; only primitive and array types accept them."
  | .taggedNonUnion type => s!"TaggedUnion metadata requires a union of dataclasses, got {type}."
  | .literalNotText type => s!"Only string literals are supported, got {type}."
  | .unsupportedType type => s!"Unsupported type for structured generation: {type}"
  | .emptyEnum name => s!"Enum {name} has no members."
  | .sharedWireValue name => s!"Enum {name} has members sharing a wire value."
  | .mixedTuple type => s!"Only homogeneous tuples (tuple[T, ...]) are supported, got {type}."
  | .missingItemType type => s!"Array type {type} needs an element type."
  | .optionalItems type => s!"Arrays of optional elements are not supported: {type}."
  | .caseNotRecord type => s!"Tagged union cases must be dataclasses, got {type}."
  | .reservedField record =>
    s!"Union case {record} declares the reserved " ++ quotedString discriminatorKey ++ " field."
  | .sharedCase cases =>
    "Tagged union cases must have distinct names, got " ++ quotedList cases ++ "."
  | .undefinedName record name =>
    s!"Cannot resolve annotations of {record}: name " ++ quotedString name ++ " is not defined"
  | .inField record field cause => s!"{record}.{field}: " ++ cause.message
  | .sharedKey record keys =>
    s!"{record} maps several fields to the same key: " ++ ", ".intercalate keys ++ "."
  | .optionalRoot type => s!"Optional types cannot be generated at the top level: {type}."
  | .nestedOptional => "Optional values are only supported as record fields."
  | .slotsOfNonRecord type => s!"Partials are derived from dataclasses, got {type}."

/-- Why a type has no shape. -/
inductive TypeFault where
  | definition (cause : DefinitionError)
  /-- The bare name of the optional form stands where a type is needed. -/
  | bareOptional
  /-- A literal whose value can change cannot be compared as a key. -/
  | changeableLiteral (typeName : String)
  /-- An alias leads back to itself. -/
  | endless
  deriving DecidableEq

/-- What a fault says; the endless type has no words. -/
def TypeFault.message? : TypeFault → Option String
  | .definition cause => some cause.message
  | .bareOptional => some "Plain typing.Optional is not valid as type argument"
  | .changeableLiteral typeName => some ("unhashable type: '" ++ typeName ++ "'")
  | .endless => none

end StructuredOutput

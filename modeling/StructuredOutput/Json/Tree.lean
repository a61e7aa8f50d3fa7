import StructuredOutput.Number.Double

/-!
JSON data with ordered object entries. A number is an integer of any size or a double.
-/

namespace StructuredOutput

/-- A JSON value. -/
inductive Json where
  | null
  | bool (value : Bool)
  | integer (value : Int)
  | real (value : Floating)
  | string (value : String)
  | array (items : List Json)
  | object (entries : List (String × Json))
  deriving Inhabited

end StructuredOutput

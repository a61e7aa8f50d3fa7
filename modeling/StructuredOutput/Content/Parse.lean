import StructuredOutput.Content
import StructuredOutput.Json.Encoding
import StructuredOutput.Json.Reader

/-!
Content trees from JSON text or bytes.
-/

namespace StructuredOutput

/-- Why a text has no content tree. -/
inductive ParseFault where
  | stated (text : String)
  | malformed (text : List Char) (failure : Json.Failure)
  | encoding (fault : Json.EncodingFault)
  | number (fault : NumberFault)
  | noPayload

/-- What is said of a text without a content tree; excessive nesting has no words. -/
def ParseFault.message? : ParseFault → Option String
  | .stated text => some text
  | .malformed text failure => (failure.message? text).map ("Invalid JSON: " ++ ·)
  | .encoding fault => some ("Invalid JSON: " ++ fault.message)
  | .number fault => some ("Invalid JSON: " ++ fault.message)
  | .noPayload => some "No JSON object or array found in model output."

namespace Content

/-- The tree of the JSON data that has been read from a text. -/
def ofReading (text : List Char) (result : Except Json.Failure Json) : Except ParseFault Content :=
  match result with
  | .error failure => .error (.malformed text failure)
  | .ok j =>
    match ofJson j with
    | .error fault => .error (.number fault)
    | .ok c => .ok c

/-- The tree of a JSON text. -/
def parse (text : List Char) : Except ParseFault Content := ofReading text (Json.read text)

/-- The tree of a JSON text in any of the encodings of JSON. -/
def parseBytes (bytes : List UInt8) : Except ParseFault Content :=
  match Json.decodeBytes bytes with
  | .error fault => .error (.encoding fault)
  | .ok text => ofReading text (Json.readWhole text)

end Content

end StructuredOutput

import StructuredOutput.Content.Parse
import StructuredOutput.Text.Blank
import StructuredOutput.Text.Case

/-!
The JSON payload inside free text: that of the first block between code fences, or else the whole
text, or else the first object or array that can be read.
-/

namespace StructuredOutput

open Text

/-- Three backticks. -/
def fence : List Char := List.replicate 3 (Char.ofNat 0x60)

/-- Whether a character is a given small letter or its capital; the long s is an s, too. -/
def isLetter (letter c : Char) : Bool :=
  lowerAscii c = letter || (letter = 's' && c.toNat = 0x17f)

/-- What follows the given characters at the front of a text, where letters may be of either
case. -/
def afterIgnoringCase? : List Char → List Char → Option (List Char)
  | [], cs => some cs
  | _ :: _, [] => none
  | p :: ps, c :: cs => if isLetter p c then afterIgnoringCase? ps cs else none

/-- The text up to a closing fence. -/
def untilFence? : List Char → Option (List Char)
  | [] => none
  | c :: cs => if fence.isPrefixOf (c :: cs) then some [] else (untilFence? cs).map (c :: ·)

/-- The places after each line break among the blanks at the front of a text, the last one first. -/
def afterLineBreaks : List Char → List (List Char)
  | [] => []
  | c :: cs =>
    if c = '\n' then afterLineBreaks cs ++ [cs]
    else if isBlank c then afterLineBreaks cs
    else []

/-- The inside of the block that opens at the front of a text. -/
def blockAt? (cs : List Char) : Option (List Char) := do
  let afterFence ← afterIgnoringCase? (fence ++ "json".toList) cs
  (afterLineBreaks afterFence).findSome? untilFence?

/-- The inside of the first block of JSON between fences. -/
def firstBlock? : List Char → Option (List Char)
  | [] => none
  | c :: cs =>
    match blockAt? (c :: cs) with
    | some block => some block
    | none => firstBlock? cs

/-- The content read from the front of a text. -/
def payloadAt? (cs : List Char) : Option Content :=
  match Json.readPrefix cs with
  | .error _ => none
  | .ok (j, _) =>
    match Content.ofJson j with
    | .error _ => none
    | .ok c => some c

/-- The first object or array in a text. -/
def firstPayload? : List Char → Option Content
  | [] => none
  | c :: cs =>
    if c = '\x7b' ∨ c = '[' then
      match payloadAt? (c :: cs) with
      | some content => some content
      | none => firstPayload? cs
    else firstPayload? cs

namespace Content

/-- The payload of a text. -/
def extract (text : List Char) : Except ParseFault Content :=
  match firstBlock? text with
  | some block => parse (trim block)
  | none =>
    match parse (trim text) with
    | .ok c => .ok c
    | .error _ =>
      match firstPayload? text with
      | some c => .ok c
      | none => .error .noPayload

end Content

end StructuredOutput

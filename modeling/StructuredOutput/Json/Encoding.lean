import StructuredOutput.Text.Digit

/-!
The text of JSON bytes. A byte order mark tells the encoding, or else the place of the zero bytes
among the first four, as a JSON text begins with two ASCII characters. Encoded surrogates are let
through; each stands for the replacement character.
-/

namespace StructuredOutput.Json

open Text

/-- The encodings that JSON bytes may have. -/
inductive Encoding where
  | utf8
  | utf16 (bigEndian : Bool)
  | utf32 (bigEndian : Bool)
  deriving DecidableEq

/-- Bytes that the encoding does not allow: those from `first` to before `last`. -/
structure EncodingFault where
  encoding : Encoding
  first : Nat
  last : Nat
  /-- The byte at `first`. -/
  byte : UInt8
  reason : String

def Encoding.name : Encoding → String
  | .utf8 => "utf-8"
  | .utf16 true => "utf-16-be"
  | .utf16 false => "utf-16-le"
  | .utf32 true => "utf-32-be"
  | .utf32 false => "utf-32-le"

/-- The message of an encoding fault, by the single byte or the range of bytes. -/
def EncodingFault.message (f : EncodingFault) : String :=
  let place :=
    if f.last = f.first + 1 then
      "byte 0x" ++ String.ofList (hexDigits f.byte.toNat 2) ++ s!" in position {f.first}"
    else s!"bytes in position {f.first}-{f.last - 1}"
  s!"'{f.encoding.name}' codec can't decode {place}: {f.reason}"

/-- The encoding of JSON bytes, the length of the byte order mark to skip, and the offset of the
byte positions in messages. -/
def detectEncoding : List UInt8 → Encoding × Nat × Nat
  | 0 :: 0 :: 0xfe :: 0xff :: _ => (.utf32 true, 4, 4)
  | 0xff :: 0xfe :: 0 :: 0 :: _ => (.utf32 false, 4, 4)
  | 0xfe :: 0xff :: _ => (.utf16 true, 2, 2)
  | 0xff :: 0xfe :: _ => (.utf16 false, 2, 2)
  | 0xef :: 0xbb :: 0xbf :: _ => (.utf8, 3, 0)
  | a :: b :: c :: d :: _ =>
    if a = 0 then (if b = 0 then .utf32 true else .utf16 true, 0, 0)
    else if b = 0 then (if c = 0 ∧ d = 0 then .utf32 false else .utf16 false, 0, 0)
    else (.utf8, 0, 0)
  | [a, b] =>
    if a = 0 then (.utf16 true, 0, 0)
    else if b = 0 then (.utf16 false, 0, 0)
    else (.utf8, 0, 0)
  | _ => (.utf8, 0, 0)

/-- The character of a code point; a surrogate is replaced. -/
def codePoint (n : Nat) : Char :=
  if 0xd800 ≤ n ∧ n < 0xe000 then Char.ofNat 0xfffd else Char.ofNat n

/-- Whether a byte continues a UTF-8 sequence. -/
def isContinuation (b : UInt8) : Bool := 0x80 ≤ b && b < 0xc0

/-- What stands at the front of UTF-8 bytes: a character and the number of its bytes, or the length
and reason of a fault; without a length the fault lasts to the end. -/
def utf8Step (a : UInt8) (rest : List UInt8) : Except (Option Nat × String) (Char × Nat) :=
  let bits (b : UInt8) : Nat := b.toNat % 64
  let ended : Except (Option Nat × String) (Char × Nat) := .error (none, "unexpected end of data")
  let broken (n : Nat) : Except (Option Nat × String) (Char × Nat) :=
    .error (some n, "invalid continuation byte")
  if a < 0x80 then .ok (Char.ofNat a.toNat, 1)
  else if a < 0xc2 then .error (some 1, "invalid start byte")
  else if a < 0xe0 then
    match rest with
    | [] => ended
    | b :: _ =>
      if isContinuation b then .ok (Char.ofNat (a.toNat % 32 * 64 + bits b), 2) else broken 1
  else if a < 0xf0 then
    match rest with
    | [] => ended
    | b :: more =>
      let surrogate := a = 0xed ∧ 0xa0 ≤ b
      if !isContinuation b ∨ (a = 0xe0 ∧ b < 0xa0) then broken 1
      else
        match more with
        | [] => if surrogate then broken 1 else ended
        | c :: _ =>
          if isContinuation c then .ok (codePoint (a.toNat % 16 * 4096 + bits b * 64 + bits c), 3)
          else if surrogate then broken 1 else broken 2
  else if a < 0xf5 then
    match rest with
    | [] => ended
    | b :: more =>
      if !isContinuation b ∨ (a = 0xf0 ∧ b < 0x90) ∨ (a = 0xf4 ∧ 0x90 ≤ b) then broken 1
      else
        match more with
        | [] => ended
        | c :: more =>
          if !isContinuation c then broken 2
          else
            match more with
            | [] => ended
            | d :: _ =>
              if isContinuation d then
                .ok (Char.ofNat (a.toNat % 8 * 262144 + bits b * 4096 + bits c * 64 + bits d), 4)
              else broken 3
  else .error (some 1, "invalid start byte")

/-- Decodes UTF-8 bytes, the first of which has the given position. -/
def decodeUtf8 (position : Nat) : (fuel : Nat) → List UInt8 → Except EncodingFault (List Char)
  | 0, _ => .ok []
  | _ + 1, [] => .ok []
  | fuel + 1, a :: rest =>
    match utf8Step a rest with
    | .ok (c, n) => (decodeUtf8 (position + n) fuel (rest.drop (n - 1))).map (c :: ·)
    | .error (length, reason) =>
      .error ⟨.utf8, position, position + length.getD (rest.length + 1), a, reason⟩

/-- The number of two bytes. -/
def unit16 (bigEndian : Bool) (a b : UInt8) : Nat :=
  if bigEndian then a.toNat * 256 + b.toNat else b.toNat * 256 + a.toNat

/-- The character at the front of UTF-16 bytes and the number of its bytes; a surrogate that is not
the first of a pair stands alone. -/
def utf16Step (bigEndian : Bool) (a b : UInt8) (rest : List UInt8) : Char × Nat :=
  let n := unit16 bigEndian a b
  match rest with
  | c :: d :: _ =>
    let m := unit16 bigEndian c d
    if 0xd800 ≤ n ∧ n < 0xdc00 ∧ 0xdc00 ≤ m ∧ m < 0xe000 then
      (Char.ofNat (0x10000 + (n - 0xd800) * 0x400 + (m - 0xdc00)), 4)
    else (codePoint n, 2)
  | _ => (codePoint n, 2)

/-- Decodes UTF-16 bytes. -/
def decodeUtf16 (bigEndian : Bool) (position : Nat) :
    (fuel : Nat) → List UInt8 → Except EncodingFault (List Char)
  | 0, _ => .ok []
  | _ + 1, [] => .ok []
  | _ + 1, [a] => .error ⟨.utf16 bigEndian, position, position + 1, a, "truncated data"⟩
  | fuel + 1, a :: b :: rest =>
    let (c, n) := utf16Step bigEndian a b rest
    (decodeUtf16 bigEndian (position + n) fuel (rest.drop (n - 2))).map (c :: ·)

/-- Decodes UTF-32 bytes. -/
def decodeUtf32 (bigEndian : Bool) (position : Nat) :
    (fuel : Nat) → List UInt8 → Except EncodingFault (List Char)
  | 0, _ => .ok []
  | _ + 1, [] => .ok []
  | fuel + 1, a :: b :: c :: d :: rest =>
    let n :=
      if bigEndian then unit16 true a b * 65536 + unit16 true c d
      else unit16 false c d * 65536 + unit16 false a b
    if n < 0x110000 then
      (decodeUtf32 bigEndian (position + 4) fuel rest).map (codePoint n :: ·)
    else
      .error ⟨.utf32 bigEndian, position, position + 4, a, "code point not in range(0x110000)"⟩
  | _ + 1, a :: rest =>
    .error ⟨.utf32 bigEndian, position, position + rest.length + 1, a, "truncated data"⟩

/-- The text of JSON bytes. -/
def decodeBytes (bytes : List UInt8) : Except EncodingFault (List Char) :=
  let (encoding, skipped, position) := detectEncoding bytes
  let body := bytes.drop skipped
  match encoding with
  | .utf8 => decodeUtf8 position body.length body
  | .utf16 bigEndian => decodeUtf16 bigEndian position body.length body
  | .utf32 bigEndian => decodeUtf32 bigEndian position body.length body

end StructuredOutput.Json

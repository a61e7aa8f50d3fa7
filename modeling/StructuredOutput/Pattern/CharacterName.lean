import StructuredOutput.Entries
import StructuredOutput.Text.Case

/-!
Characters by name, for the names in common use: letters, digits, punctuation and Greek.
-/

namespace StructuredOutput.Pattern

open Text

/-- Names of characters that are not letters. -/
def signNames : List (String × Nat) := [
  ("SPACE", 0x20), ("EXCLAMATION MARK", 0x21), ("QUOTATION MARK", 0x22), ("NUMBER SIGN", 0x23),
  ("DOLLAR SIGN", 0x24), ("PERCENT SIGN", 0x25), ("AMPERSAND", 0x26), ("APOSTROPHE", 0x27),
  ("LEFT PARENTHESIS", 0x28), ("RIGHT PARENTHESIS", 0x29), ("ASTERISK", 0x2a),
  ("PLUS SIGN", 0x2b), ("COMMA", 0x2c), ("HYPHEN-MINUS", 0x2d), ("FULL STOP", 0x2e),
  ("SOLIDUS", 0x2f), ("DIGIT ZERO", 0x30), ("DIGIT ONE", 0x31), ("DIGIT TWO", 0x32),
  ("DIGIT THREE", 0x33), ("DIGIT FOUR", 0x34), ("DIGIT FIVE", 0x35), ("DIGIT SIX", 0x36),
  ("DIGIT SEVEN", 0x37), ("DIGIT EIGHT", 0x38), ("DIGIT NINE", 0x39), ("COLON", 0x3a),
  ("SEMICOLON", 0x3b), ("LESS-THAN SIGN", 0x3c), ("EQUALS SIGN", 0x3d),
  ("GREATER-THAN SIGN", 0x3e), ("QUESTION MARK", 0x3f), ("COMMERCIAL AT", 0x40),
  ("LEFT SQUARE BRACKET", 0x5b), ("REVERSE SOLIDUS", 0x5c), ("RIGHT SQUARE BRACKET", 0x5d),
  ("CIRCUMFLEX ACCENT", 0x5e), ("LOW LINE", 0x5f), ("GRAVE ACCENT", 0x60),
  ("LEFT CURLY BRACKET", 0x7b), ("VERTICAL LINE", 0x7c), ("RIGHT CURLY BRACKET", 0x7d),
  ("TILDE", 0x7e), ("NO-BREAK SPACE", 0xa0), ("INVERTED EXCLAMATION MARK", 0xa1),
  ("CENT SIGN", 0xa2), ("POUND SIGN", 0xa3), ("CURRENCY SIGN", 0xa4), ("YEN SIGN", 0xa5),
  ("BROKEN BAR", 0xa6), ("SECTION SIGN", 0xa7), ("DIAERESIS", 0xa8), ("COPYRIGHT SIGN", 0xa9),
  ("FEMININE ORDINAL INDICATOR", 0xaa), ("LEFT-POINTING DOUBLE ANGLE QUOTATION MARK", 0xab),
  ("NOT SIGN", 0xac), ("SOFT HYPHEN", 0xad), ("REGISTERED SIGN", 0xae), ("MACRON", 0xaf),
  ("DEGREE SIGN", 0xb0), ("PLUS-MINUS SIGN", 0xb1), ("SUPERSCRIPT TWO", 0xb2),
  ("SUPERSCRIPT THREE", 0xb3), ("ACUTE ACCENT", 0xb4), ("MICRO SIGN", 0xb5),
  ("PILCROW SIGN", 0xb6), ("MIDDLE DOT", 0xb7), ("CEDILLA", 0xb8), ("SUPERSCRIPT ONE", 0xb9),
  ("MASCULINE ORDINAL INDICATOR", 0xba), ("RIGHT-POINTING DOUBLE ANGLE QUOTATION MARK", 0xbb),
  ("VULGAR FRACTION ONE QUARTER", 0xbc), ("VULGAR FRACTION ONE HALF", 0xbd),
  ("VULGAR FRACTION THREE QUARTERS", 0xbe), ("INVERTED QUESTION MARK", 0xbf),
  ("MULTIPLICATION SIGN", 0xd7), ("LATIN SMALL LETTER SHARP S", 0xdf),
  ("LATIN SMALL LETTER E WITH ACUTE", 0xe9), ("LATIN SMALL LETTER E WITH GRAVE", 0xe8),
  ("LATIN SMALL LETTER A WITH DIAERESIS", 0xe4), ("LATIN SMALL LETTER O WITH DIAERESIS", 0xf6),
  ("LATIN SMALL LETTER U WITH DIAERESIS", 0xfc), ("LATIN SMALL LETTER N WITH TILDE", 0xf1),
  ("LATIN SMALL LETTER C WITH CEDILLA", 0xe7), ("DIVISION SIGN", 0xf7),
  ("ZERO WIDTH SPACE", 0x200b), ("ZERO WIDTH NON-JOINER", 0x200c), ("ZERO WIDTH JOINER", 0x200d),
  ("HYPHEN", 0x2010), ("EN DASH", 0x2013), ("EM DASH", 0x2014), ("HORIZONTAL BAR", 0x2015),
  ("LEFT SINGLE QUOTATION MARK", 0x2018), ("RIGHT SINGLE QUOTATION MARK", 0x2019),
  ("LEFT DOUBLE QUOTATION MARK", 0x201c), ("RIGHT DOUBLE QUOTATION MARK", 0x201d),
  ("DAGGER", 0x2020), ("DOUBLE DAGGER", 0x2021), ("BULLET", 0x2022),
  ("HORIZONTAL ELLIPSIS", 0x2026), ("PER MILLE SIGN", 0x2030), ("EURO SIGN", 0x20ac),
  ("TRADE MARK SIGN", 0x2122), ("LEFTWARDS ARROW", 0x2190), ("UPWARDS ARROW", 0x2191),
  ("RIGHTWARDS ARROW", 0x2192), ("DOWNWARDS ARROW", 0x2193), ("INFINITY", 0x221e),
  ("MINUS SIGN", 0x2212), ("SNOWMAN", 0x2603), ("BLACK STAR", 0x2605), ("WHITE STAR", 0x2606),
  ("CHECK MARK", 0x2713), ("HEAVY BLACK HEART", 0x2764), ("BYTE ORDER MARK", 0xfeff),
  ("ZERO WIDTH NO-BREAK SPACE", 0xfeff), ("REPLACEMENT CHARACTER", 0xfffd),
  ("GRINNING FACE", 0x1f600), ("PILE OF POO", 0x1f4a9)]

/-- The names of the Greek letters from alpha on; the place of the final sigma has its own name. -/
def greekNames : List String := [
  "ALPHA", "BETA", "GAMMA", "DELTA", "EPSILON", "ZETA", "ETA", "THETA", "IOTA", "KAPPA", "LAMDA",
  "MU", "NU", "XI", "OMICRON", "PI", "RHO", "FINAL SIGMA", "SIGMA", "TAU", "UPSILON", "PHI", "CHI",
  "PSI", "OMEGA"]

/-- The names of the letters of an alphabet, the first of which has a given code. -/
def letterNames (heading : String) (first : Nat) (letters : List String) : List (String × Nat) :=
  letters.zipIdx.map fun (letter, i) => (heading ++ " LETTER " ++ letter, first + i)

/-- The ASCII letters as names. -/
def latinNames : List String :=
  (List.range 26).map fun i => String.ofList [Char.ofNat (0x41 + i)]

/-- The code of a named character; the case of a name does not matter. -/
def codeOfName? (name : List Char) : Option Nat :=
  let known :=
    signNames ++ letterNames "LATIN CAPITAL" 0x41 latinNames
      ++ letterNames "LATIN SMALL" 0x61 latinNames
      ++ (letterNames "GREEK CAPITAL" 0x391 greekNames).filter (·.2 != 0x3a2)
      ++ letterNames "GREEK SMALL" 0x3b1 greekNames
  Entries.get? (known.map fun (n, code) => (n.toList.map lowerAscii, code)) (name.map lowerAscii)

end StructuredOutput.Pattern

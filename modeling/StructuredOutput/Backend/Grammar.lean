import StructuredOutput.Text.Digit

/-!
Grammars in Backus–Naur form with repetition, and their written form. Parts of a sequence are
separated by blanks, alternatives by bars, and a group stands in parentheses.
-/

namespace StructuredOutput.Grammar

open Text

/-- What a rule derives. -/
inductive Expr where
  /-- A text as it is. -/
  | terminal (text : List Char)
  /-- One character in, or with `negated` outside of, the ranges. -/
  | chars (negated : Bool) (ranges : List (Char × Char))
  | rule (name : String)
  | seq (parts : List Expr)
  | alt (parts : List Expr)
  | group (inner : Expr)
  | opt (inner : Expr)
  | star (inner : Expr)
  | plus (inner : Expr)
  /-- From `least` to `greatest` times, without a limit if there is no greatest. -/
  | times (inner : Expr) (least : Nat) (greatest : Option Nat)

/-- A rule. -/
structure Rule where
  name : String
  body : Expr

/-- A character of a terminal. -/
def terminalChar (c : Char) : List Char := if c = '"' ∨ c = '\\' then ['\\', c] else [c]

/-- A terminal in quotation marks. -/
def terminalText (cs : List Char) : List Char := '"' :: cs.flatMap terminalChar ++ ['"']

/-- A character of a class. -/
def classChar (c : Char) : List Char :=
  if c = '\t' then ['\\', 't']
  else if c = '\n' then ['\\', 'n']
  else if c = '\\' then ['\\', '\\']
  else if c.toNat < 0x20 ∨ c.toNat = 0x7f then
    '\\' :: 'x' :: (hexDigits c.toNat 2).map Char.toUpper
  else [c]

/-- A range of a class. -/
def rangeText (r : Char × Char) : List Char :=
  if r.1 = r.2 then classChar r.1 else classChar r.1 ++ '-' :: classChar r.2

/-- The numbers of a repetition between braces. -/
def timesText (least : Nat) (greatest : Option Nat) : List Char :=
  '\x7b' :: decimal least ++ ',' :: (greatest.map decimal).getD [] ++ ['\x7d']

mutual

/-- The written form of an expression. -/
def Expr.text : Expr → List Char
  | .terminal cs => terminalText cs
  | .chars negated ranges =>
    '[' :: (if negated then ['^'] else []) ++ ranges.flatMap rangeText ++ [']']
  | .rule name => name.toList
  | .seq parts => List.intercalate [' '] (texts parts)
  | .alt parts => List.intercalate [' ', '|', ' '] (texts parts)
  | .group inner => '(' :: ' ' :: inner.text ++ [' ', ')']
  | .opt inner => inner.text ++ ['?']
  | .star inner => inner.text ++ ['*']
  | .plus inner => inner.text ++ ['+']
  | .times inner least greatest => inner.text ++ timesText least greatest

/-- The written forms of parts. -/
def texts : List Expr → List (List Char)
  | [] => []
  | e :: es => e.text :: texts es

end

/-- The line of a rule. -/
def Rule.line (r : Rule) : List Char := r.name.toList ++ " ::= ".toList ++ r.body.text ++ ['\n']

/-- The text of a grammar. -/
def text (rules : List Rule) : String := String.ofList (rules.flatMap Rule.line)

end StructuredOutput.Grammar

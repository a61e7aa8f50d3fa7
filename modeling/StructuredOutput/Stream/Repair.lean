import StructuredOutput.Text.Blank

/-!
Completion of unfinished JSON text. An open string is closed; any other unfinished value is cut off
back to the last comma of its container, or the container is dropped, and the containers that
remain are closed.
-/

namespace StructuredOutput.Repair

open Text

/-- An open container: the number of characters before its bracket, its last comma and its last
colon. -/
structure Opened where
  isObject : Bool
  start : Nat
  comma : Option Nat
  colon : Option Nat

/-- What is known after a part of a text. -/
structure Scan where
  /-- The number of characters read. -/
  length : Nat
  inString : Bool
  /-- Whether the last character is a backslash that begins an escape. -/
  escaping : Bool
  /-- The open containers, the innermost first. -/
  opened : List Opened

/-- Changes the innermost container. -/
def changeInner (opened : List Opened) (f : Opened → Opened) : List Opened :=
  match opened with
  | [] => []
  | o :: os => f o :: os

/-- Reads one more character. -/
def Scan.step (s : Scan) (c : Char) : Scan :=
  let s' := { s with length := s.length + 1 }
  if s.inString then
    if s.escaping then { s' with escaping := false }
    else if c = '\\' then { s' with escaping := true }
    else if c = '"' then { s' with inString := false }
    else s'
  else
    match c with
    | '"' => { s' with inString := true }
    | '\x7b' => { s' with opened := ⟨true, s.length, none, none⟩ :: s.opened }
    | '[' => { s' with opened := ⟨false, s.length, none, none⟩ :: s.opened }
    | '\x7d' | ']' => { s' with opened := s.opened.tail }
    | ',' => { s' with opened := changeInner s.opened fun o => { o with comma := some s.length } }
    | ':' => { s' with opened := changeInner s.opened fun o => { o with colon := some s.length } }
    | _ => s'

/-- Reads a text. -/
def scan (cs : List Char) : Scan := cs.foldl Scan.step ⟨0, false, false, []⟩

/-- The text with an open string closed; a backslash that begins an escape is dropped. -/
def closeString (s : Scan) (cs : List Char) : List Char :=
  if s.inString then (if s.escaping then cs.dropLast else cs) ++ ['"'] else cs

/-- Whether a value is the next thing that a container may hold. -/
def Opened.expectsValue (o : Opened) : Bool :=
  !o.isObject ||
    match o.colon with
    | none => false
    | some colon => o.comma.getD o.start < colon

/-- Words that end a value. -/
def words : List (List Char) := ["true".toList, "false".toList, "null".toList]

/-- Whether a text, read backwards, ends in a value that nothing can change. -/
def endsInValue (reversed : List Char) : Bool :=
  match reversed with
  | [] => false
  | c :: _ => c = '"' || c = '\x7d' || c = ']' || words.any fun w => w.reverse.isPrefixOf reversed

/-- Whether the last value in a container is complete. -/
def isComplete (o : Opened) (cs : List Char) : Bool :=
  o.expectsValue && endsInValue (cs.reverse.dropWhile isBlank)

/-- Cuts off an incomplete value: back to the last comma of the innermost container that has one.
Containers without a comma are dropped. -/
def cutBack (cs : List Char) : List Opened → List Char × List Opened
  | [] => (cs, [])
  | o :: os =>
    match o.comma with
    | some i => (cs.take i, o :: os)
    | none => cutBack (cs.take o.start) os

/-- The brackets that close containers. -/
def closers (opened : List Opened) : List Char :=
  opened.map fun o => if o.isObject then '\x7d' else ']'

/-- The longest beginning of a JSON text that can be closed, closed. A text of which nothing can be
kept becomes an empty container like its outermost one. -/
def repair (cs : List Char) : List Char :=
  let s := scan cs
  let closed := closeString s cs
  match s.opened, s.opened.getLast? with
  | o :: os, some outermost =>
    let (kept, remaining) :=
      if isComplete o closed then (closed, o :: os) else cutBack closed (o :: os)
    match trim (kept ++ closers remaining) with
    | [] => if outermost.isObject then ['\x7b', '\x7d'] else ['[', ']']
    | result => result
  | _, _ => trim closed

end StructuredOutput.Repair

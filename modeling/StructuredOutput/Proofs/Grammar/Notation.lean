import StructuredOutput.Json.Reader
import StructuredOutput.Proofs.Grammar.Derives
import StructuredOutput.Proofs.Json.NumberText

/-!
The notation of grammars: its tokens, and how tokens are put together. A mark of repetition belongs
to the item before it, items that follow one another are a sequence, and bars separate sequences. A
rule ends with its line, unless a parenthesis is open.
-/

namespace StructuredOutput.Grammar

open Text

/-! ### Tokens -/

inductive Token where
  | literal (text : List Char)
  | chars (negated : Bool) (ranges : List (Char × Char))
  | name (text : List Char)
  | opens
  | closes
  | bar
  | opt
  | star
  | plus
  | times (least : Nat) (greatest : Option Nat)
  | defines
  | newline

/-- A character of a name. -/
def isNameChar (c : Char) : Bool := c.isAlphanum || c = '-'

/-- A text that can name a rule. -/
def IsName (cs : List Char) : Prop := cs ≠ [] ∧ ∀ c ∈ cs, isNameChar c = true

/-- The characters that a quoted text stands for, each with whether it is escaped. -/
def symbols : List Char → Option (List (Char × Bool))
  | [] => some []
  | '\\' :: 'x' :: a :: b :: cs => do
    let high ← hexDigit? a
    let low ← hexDigit? b
    (symbols cs).map ((Char.ofNat (high * 16 + low), true) :: ·)
  | ['\\'] => none
  | '\\' :: c :: cs =>
    match c with
    | 'n' => (symbols cs).map (('\n', true) :: ·)
    | 'r' => (symbols cs).map (('\r', true) :: ·)
    | 't' => (symbols cs).map (('\t', true) :: ·)
    | '"' | '\\' | '[' | ']' => (symbols cs).map ((c, true) :: ·)
    | _ => none
  | c :: cs => (symbols cs).map ((c, false) :: ·)

/-- The ranges that the characters of a class stand for. -/
def rangesOf : List (Char × Bool) → List (Char × Char)
  | [] => []
  | (a, _) :: ('-', false) :: (b, _) :: more => (a, b) :: rangesOf more
  | (a, _) :: more => (a, a) :: rangesOf more

/-- The numbers of a repetition. -/
def timesOf (cs : List Char) : Option (Nat × Option Nat) :=
  let number (ds : List Char) : Nat := ofDigits (ds.filterMap asciiDigit?)
  let first := cs.takeWhile Char.isDigit
  if first = [] then none
  else
    match cs.dropWhile Char.isDigit with
    | [] => some (number first, some (number first))
    | [','] => some (number first, none)
    | ',' :: ds => if ds.all Char.isDigit then some (number first, some (number ds)) else none
    | _ => none

/-- What stands between marks of its own. -/
inductive Quote where
  | literal | chars | times
  deriving DecidableEq

namespace Quote

def close : Quote → Char
  | literal => '"'
  | chars => ']'
  | times => '\x7d'

/-- The token of what stands between the marks. -/
def token? : Quote → List Char → Option Token
  | literal, cs => (symbols cs).map fun given => .literal (given.map (·.1))
  | chars, '^' :: cs => (symbols cs).map fun given => .chars true (rangesOf given)
  | chars, cs => (symbols cs).map fun given => .chars false (rangesOf given)
  | times, cs => (timesOf cs).map fun (least, greatest) => .times least greatest

end Quote

/-- Where in the text of a grammar a scan is. -/
inductive Place where
  | start
  | name (read : List Char)
  /-- Between marks, after the given characters, the last of which escapes the next one or not. -/
  | quoted (quote : Quote) (read : List Char) (escaping : Bool)
  /-- Inside the mark of a definition. -/
  | colon
  | colons

namespace Place

/-- The tokens that a character is, and the place after it, where no token is open. -/
def begin (c : Char) : Option (List Token × Place) :=
  match c with
  | ' ' | '\t' => some ([], start)
  | '\n' => some ([.newline], start)
  | '(' => some ([.opens], start)
  | ')' => some ([.closes], start)
  | '|' => some ([.bar], start)
  | '?' => some ([.opt], start)
  | '*' => some ([.star], start)
  | '+' => some ([.plus], start)
  | '"' => some ([], quoted .literal [] false)
  | '[' => some ([], quoted .chars [] false)
  | '\x7b' => some ([], quoted .times [] false)
  | ':' => some ([], colon)
  | c => if isNameChar c then some ([], name [c]) else none

/-- The tokens that a character completes, and the place after it. -/
def next : Place → Char → Option (List Token × Place)
  | start, c => begin c
  | name read, c =>
    if isNameChar c then some ([], name (read ++ [c]))
    else (begin c).map fun (ts, place) => (.name read :: ts, place)
  | quoted quote read escaping, c =>
    if escaping then some ([], quoted quote (read ++ [c]) false)
    else if c = quote.close then (quote.token? read).map fun t => ([t], start)
    else some ([], quoted quote (read ++ [c]) (c = '\\'))
  | colon, c => if c = ':' then some ([], colons) else none
  | colons, c => if c = '=' then some ([.defines], start) else none

/-- The tokens that the end of the text completes. -/
def finish : Place → Option (List Token)
  | start => some []
  | name read => some [.name read]
  | _ => none

end Place

/-- The tokens of a text from a place on. -/
def tokensFrom : Place → List Char → Option (List Token)
  | place, [] => place.finish
  | place, c :: cs => do
    let (ts, after) ← place.next c
    (tokensFrom after cs).map (ts ++ ·)

/-! ### Rules -/

/-- The sequences before the last bar and the items after it. -/
structure Frame where
  done : List (List Expr)
  items : List Expr

/-- One of several sequences. -/
def choice (sequences : List (List Expr)) : Expr := .alt (sequences.map .seq)

namespace Frame

def empty : Frame := ⟨[], []⟩

def push (f : Frame) (e : Expr) : Frame := { f with items := f.items ++ [e] }

def split (f : Frame) : Frame := ⟨f.done ++ [f.items], []⟩

/-- Repeats the last item. -/
def again (f : Frame) (wrap : Expr → Expr) : Option Frame :=
  f.items.getLast?.map fun e => { f with items := f.items.dropLast ++ [wrap e] }

def expr (f : Frame) : Expr := choice (f.done ++ [f.items])

end Frame

/-- What of a rule has been read. -/
inductive Stage where
  | between
  | named (name : String)
  /-- After some of the body; each open parenthesis has a frame for what is before it. -/
  | body (name : String) (top : Frame) (outer : List Frame)

namespace Stage

/-- The rules that a token completes, and the stage after it. -/
def next : Stage → Token → Option (List Rule × Stage)
  | between, .newline => some ([], between)
  | between, .name text => some ([], named (String.ofList text))
  | named name, .defines => some ([], body name .empty [])
  | body name top outer, t =>
    match t with
    | .newline =>
      if outer.isEmpty then some ([⟨name, top.expr⟩], between) else some ([], body name top outer)
    | .literal text => some ([], body name (top.push (.terminal text)) outer)
    | .chars negated ranges => some ([], body name (top.push (.chars negated ranges)) outer)
    | .name text => some ([], body name (top.push (.rule (String.ofList text))) outer)
    | .bar => some ([], body name top.split outer)
    | .opens => some ([], body name .empty (top :: outer))
    | .closes =>
      match outer with
      | [] => none
      | frame :: outer => some ([], body name (frame.push (.group top.expr)) outer)
    | .opt => (top.again .opt).map fun top => ([], body name top outer)
    | .star => (top.again .star).map fun top => ([], body name top outer)
    | .plus => (top.again .plus).map fun top => ([], body name top outer)
    | .times least greatest =>
      (top.again fun e => .times e least greatest).map fun top => ([], body name top outer)
    | .defines => none
  | _, _ => none

/-- The rule that the end of the text completes. -/
def finish : Stage → Option (List Rule)
  | between => some []
  | body name top [] => some [⟨name, top.expr⟩]
  | _ => none

end Stage

/-- The rules of some tokens from a stage on. -/
def rulesFrom : Stage → List Token → Option (List Rule)
  | stage, [] => stage.finish
  | stage, t :: ts => do
    let (rules, after) ← stage.next t
    (rulesFrom after ts).map (rules ++ ·)

/-- The rules that a text in the notation gives, from a stage on. -/
def readFrom (stage : Stage) (cs : List Char) : Option (List Rule) :=
  (tokensFrom .start cs).bind (rulesFrom stage)

/-- The rules that a text in the notation gives. -/
def read (cs : List Char) : Option (List Rule) := readFrom .between cs

/-- A grammar that is given as a text generates a text. -/
def Admits (grammar : String) (cs : List Char) : Prop :=
  ∃ rules, read grammar.toList = some rules ∧ Generates rules cs

end StructuredOutput.Grammar

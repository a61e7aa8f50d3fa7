import StructuredOutput.Pattern.CharacterName
import StructuredOutput.Pattern.Fault
import StructuredOutput.Text.Identifier

/-!
Whether a text is a regular expression. Of the expression only what decides that is kept: the
widths of groups, for references inside look-behinds, and the kind of the item that a repetition
follows. A text is read token by token, a token being a character or a backslash with the character
after it; a backslash without one is refused as soon as it comes next.
-/

namespace StructuredOutput.Pattern

open Text

/-- The least and the greatest number of characters that an expression matches. -/
structure Width where
  least : Nat
  greatest : Nat

/-- Widths are not counted beyond this. -/
def widthLimit : Nat := 0x10000000000000000

/-- Repetition counts are below this. -/
def repeatLimit : Nat := 0xffffffff

namespace Width

def zero : Width := ⟨0, 0⟩

def one : Width := ⟨1, 1⟩

def add (a b : Width) : Width := ⟨a.least + b.least, a.greatest + b.greatest⟩

def either (a b : Width) : Width := ⟨min a.least b.least, max a.greatest b.greatest⟩

def capped (a : Width) : Width := ⟨min a.least widthLimit, min a.greatest widthLimit⟩

/-- The width of a repetition; without an upper count it has no limit. -/
def times (a : Width) (least : Nat) : Option Nat → Width
  | some greatest => ⟨a.least * least, a.greatest * greatest⟩
  | none => ⟨a.least * least, if a.greatest = 0 then 0 else widthLimit⟩

end Width

/-- What a repetition may follow. -/
inductive ItemKind where
  | anchor
  | repeated
  | other
  deriving DecidableEq

/-- An item of a sequence. -/
structure Item where
  kind : ItemKind
  width : Width

/-- What remains of an expression, and what has been learned from the part before it. -/
structure Source where
  size : Nat
  rest : List Char
  /-- The widths of the groups by number, none for an open group; number zero is no group. -/
  groups : List (Option Width)
  names : List (List Char × Nat)
  /-- How many groups there were before the outermost look-behind, inside one. -/
  lookbehind : Option Nat
  /-- Groups that conditions ask for, with their places. -/
  references : List (Nat × Nat)
  /-- Whether blanks and comments are skipped. -/
  verbose : Bool
  /-- Whether a look-behind had no fixed width. -/
  ragged : Bool

/-- Reading a part of an expression. -/
abbrev Reader := StateT Source (Except Failure)

/-- A character, or a backslash and the character after it. -/
abbrev Token := List Char

/-- The token at the front of a text. -/
def token? : List Char → Option Token
  | '\\' :: c :: _ => some ['\\', c]
  | c :: _ => some [c]
  | [] => none

/-- The place of the next token. -/
def here : Reader Nat := fun s => .ok (s.size - s.rest.length, s)

/-- Refuses the expression at a number of characters before the next token. -/
def refuseBack {α : Type} (fault : Fault) (back : Nat) : Reader α :=
  fun s => .error ⟨fault, some (s.size - s.rest.length - back)⟩

/-- Refuses the expression at the next token. -/
def refuse {α : Type} (fault : Fault) : Reader α := refuseBack fault 0

/-- Refuses the expression at a given place. -/
def refuseAt {α : Type} (fault : Fault) (place : Nat) : Reader α :=
  fun _ => .error ⟨fault, some place⟩

/-- The next token. -/
def peek : Reader (Option Token) := fun s => .ok (token? s.rest, s)

/-- Goes on to a later place. -/
def moveTo (rest : List Char) : Reader Unit := fun s =>
  if rest = ['\\'] then .error ⟨.escapeAtEnd, some (s.size - 1)⟩ else .ok ((), { s with rest })

/-- Takes the next token. -/
def next : Reader (Option Token) := do
  let s ← get
  match token? s.rest with
  | none => pure none
  | some t => do
    moveTo (s.rest.drop t.length)
    pure (some t)

/-- Takes the next token if it is the given character. -/
def accept (c : Char) : Reader Bool := do
  if (← peek) = some [c] then do
    let _ ← next
    pure true
  else pure false

/-- Takes up to `n` characters of a class. -/
def takeClass (isMember : Char → Bool) : (n : Nat) → Reader (List Char)
  | 0 => pure []
  | n + 1 => do
    match ← peek with
    | some [c] =>
      if isMember c then do
        let _ ← next
        let more ← takeClass isMember n
        pure (c :: more)
      else pure []
    | _ => pure []

/-- Takes the characters up to a closing one; there must be some. -/
def takeUntil (closing : Char) (what : String) (found : List Char) :
    (fuel : Nat) → Reader (List Char)
  | 0 => refuse .unexpectedEnd
  | fuel + 1 => do
    match ← next with
    | none =>
      if found = [] then refuse (.missing what)
      else refuseBack (.unterminatedName closing) found.length
    | some t =>
      if t = [closing] then
        if found = [] then refuseBack (.missing what) 1 else pure found
      else takeUntil closing what (found ++ t) fuel

/-- Takes a name up to a closing character. -/
def takeName (closing : Char) (what : String) : Reader (List Char) := do
  let s ← get
  takeUntil closing what [] (s.rest.length + 1)

def isOctal (c : Char) : Bool := '0' ≤ c && c ≤ '7'

def isHex (c : Char) : Bool := (hexDigit? c).isSome

/-- The number of digits to a base. -/
def digitsValue (base : Nat) (ds : List Char) : Nat :=
  ds.foldl (fun n d => base * n + (hexDigit? d).getD 0) 0

/-- Codes of the control characters that have an escape letter. -/
def controlCode? (c : Char) : Option Nat :=
  match c with
  | 'a' => some 7
  | 'b' => some 8
  | 'f' => some 12
  | 'n' => some 10
  | 'r' => some 13
  | 't' => some 9
  | 'v' => some 11
  | '\\' => some 92
  | _ => none

/-- Escape letters of character classes. -/
def isClassLetter (c : Char) : Bool := ['d', 'D', 's', 'S', 'w', 'W'].contains c

/-- The character of an escape with a fixed number of hexadecimal digits. -/
def hexEscape (letter : Char) (count : Nat) : Reader Nat := do
  let ds ← takeClass isHex count
  let text := '\\' :: letter :: ds
  if ds.length ≠ count then refuseBack (.incompleteEscape text) text.length
  else
    let n := digitsValue 16 ds
    if n < 0x110000 then pure n else refuseBack (.badEscape text) text.length

/-- The character of an escape by name. -/
def namedEscape : Reader Nat := do
  if ← accept '\x7b' then do
    let name ← takeName '\x7d' "character name"
    match codeOfName? name with
    | some code => pure code
    | none => refuseBack (.undefinedCharacter name) (name.length + 4)
  else refuse (.missing "\x7b")

/-- The character of an escape that means the same inside and outside of a set. -/
def commonEscape (c : Char) : Reader Nat :=
  if c = 'x' then hexEscape c 2
  else if c = 'u' then hexEscape c 4
  else if c = 'U' then hexEscape c 8
  else if c = 'N' then namedEscape
  else if c.isAlpha || c.isDigit then refuseBack (.badEscape ['\\', c]) 2
  else pure c.toNat

/-- The octal escape of the digits `ds`, which have been taken. -/
def octalEscape (ds : List Char) : Reader Nat :=
  let n := digitsValue 8 ds
  if n < 0o400 then pure n else refuseBack (.octalEscape ('\\' :: ds)) (ds.length + 1)

/-- The character of an escape inside a set; none for a class of characters. -/
def setEscape (c : Char) : Reader (Option Nat) :=
  match controlCode? c with
  | some code => pure (some code)
  | none =>
    if isClassLetter c then pure none
    else if isOctal c then do
      let more ← takeClass isOctal 2
      some <$> octalEscape (c :: more)
    else some <$> commonEscape c

/-- Whether a group is closed. -/
def isClosed (s : Source) (group : Nat) : Bool := (s.groups[group]?.bind id).isSome

/-- Inside a look-behind, only groups closed before it may be referred to. -/
def checkLookbehind (group : Nat) : Reader Unit := do
  let s ← get
  match s.lookbehind with
  | none => pure ()
  | some limit =>
    if !isClosed s group then refuse .openReference
    else if limit ≤ group then refuse .lookbehindReference
    else pure ()

/-- The width of a group that is referred to; `length` is that of the reference. -/
def groupReference (group length : Nat) : Reader Item := do
  let s ← get
  match s.groups[group]?.bind id with
  | none => refuseBack .openReference length
  | some width => do
    checkLookbehind group
    pure ⟨.other, width⟩

/-- A numbered reference or an octal escape, after its first digit, which is not zero. -/
def numberEscape (first : Char) : Reader Item := do
  let second ← takeClass Char.isDigit 1
  let third ←
    if isOctal first && second.all isOctal && second ≠ [] then takeClass isOctal 1 else pure []
  if third ≠ [] then do
    let _ ← octalEscape (first :: second ++ third)
    pure ⟨.other, .one⟩
  else do
    let digits := first :: second
    let group := digitsValue 10 digits
    let s ← get
    if group < s.groups.length then groupReference group (digits.length + 1)
    else refuseBack (.invalidReference group) digits.length

/-- An escape outside of a set. -/
def escape (c : Char) : Reader Item :=
  if ['A', 'b', 'B', 'Z'].contains c then pure ⟨.anchor, .zero⟩
  else if isClassLetter c || (controlCode? c).isSome then pure ⟨.other, .one⟩
  else if c = '0' then do
    let _ ← takeClass isOctal 2
    pure ⟨.other, .one⟩
  else if c.isDigit then numberEscape c
  else do
    let _ ← commonEscape c
    pure ⟨.other, .one⟩

/-- A member of a set: the code of its character, or none for a class. -/
def setMember (t : Token) : Reader (Option Nat) :=
  match t with
  | ['\\', c] => setEscape c
  | c :: _ => pure (some c.toNat)
  | [] => pure none

/-- Reads a set after its opening bracket, which is at `start`. -/
def readSet (start : Nat) (isEmpty : Bool) : (fuel : Nat) → Reader Unit
  | 0 => refuse .unexpectedEnd
  | fuel + 1 => do
    match ← next with
    | none => refuseAt .unterminatedSet start
    | some first =>
      if first = [']'] && !isEmpty then pure ()
      else do
        let low ← setMember first
        if ← accept '-' then do
          match ← next with
          | none => refuseAt .unterminatedSet start
          | some last =>
            if last = [']'] then pure ()
            else do
              let high ← setMember last
              let bad := match low, high with
                | some l, some h => decide (h < l)
                | _, _ => true
              if bad then refuseBack (.badRange first last) (first.length + 1 + last.length)
              else readSet start false fuel
        else readSet start false fuel

/-- The counts of a repetition, or none if a brace does not begin one. -/
def readCounts (sign : Char) (place : Nat) : Reader (Option (Nat × Option Nat)) := do
  if sign = '?' then pure (some (0, some 1))
  else if sign = '*' then pure (some (0, none))
  else if sign = '+' then pure (some (1, none))
  else if (← peek) = some ['\x7d'] then pure none
  else do
    let s ← get
    let low ← takeClass Char.isDigit s.rest.length
    let high ← if ← accept ',' then takeClass Char.isDigit s.rest.length else pure low
    if ← accept '\x7d' then do
      let least := digitsValue 10 low
      let greatest := if high = [] then none else some (digitsValue 10 high)
      if repeatLimit ≤ least || greatest.any (repeatLimit ≤ ·) then refuse .repeatTooLarge
      else if greatest.any (· < least) then refuseAt .repeatOrder place
      else pure (some (least, greatest))
    else do
      moveTo s.rest
      pure none

/-- A repetition of the last of the items read so far, the last one first. -/
def repeatLast (place : Nat) (counts : Nat × Option Nat) :
    List Item → Reader (List Item)
  | [] => refuseAt .nothingToRepeat (place - 1)
  | item :: before =>
    match item.kind with
    | .anchor => refuseAt .nothingToRepeat (place - 1)
    | .repeated => refuseAt .multipleRepeat (place - 1)
    | .other => do
      if !(← accept '?') then
        let _ ← accept '+'
      pure (⟨.repeated, item.width.times counts.1 counts.2⟩ :: before)

/-- Flags that may be set inside an expression; the last four cannot be turned off. -/
def flagLetters : List Char := ['i', 'm', 's', 'x', 't', 'a', 'u', 'L']

/-- Flags of the kind of text. -/
def textFlags : List Char := ['a', 'u', 'L']

/-- What a letter that is no flag is told. -/
def refuseFlag {α : Type} (t : Token) (what : String) : Reader α :=
  let isLetter := match t with
    | [c] => c.isAlpha || (0x80 ≤ c.toNat && isIdentifierStart c)
    | _ => false
  refuseBack (if isLetter then .unknownFlag else .missing what) t.length

/-- Reads flags to turn on, of which `flag` is the first, up to the character that ends them. -/
def flagsOn (set : List Char) (flag : Char) : (fuel : Nat) → Reader (List Char × Char)
  | 0 => refuse .unexpectedEnd
  | fuel + 1 => do
    if flag = 'L' then refuse (.badFlags "cannot use 'L' flag with a str pattern")
    else if textFlags.contains flag && set.any fun f => textFlags.contains f && f ≠ flag then
      refuse (.badFlags "flags 'a', 'u' and 'L' are incompatible")
    else
      match ← next with
      | none => refuse (.missing "-, : or )")
      | some [c] =>
        if [')', '-', ':'].contains c then pure (flag :: set, c)
        else if flagLetters.contains c then flagsOn (flag :: set) c fuel
        else refuseFlag [c] "-, : or )"
      | some t => refuseFlag t "-, : or )"

/-- Reads flags to turn off, of which `flag` is the first, up to a colon. -/
def flagsOff (cleared : List Char) (flag : Char) : (fuel : Nat) → Reader (List Char)
  | 0 => refuse .unexpectedEnd
  | fuel + 1 => do
    if textFlags.contains flag then refuse (.badFlags "cannot turn off flags 'a', 'u' and 'L'")
    else
      match ← next with
      | none => refuse (.missing ":")
      | some [c] =>
        if c = ':' then pure (flag :: cleared)
        else if flagLetters.contains c then flagsOff (flag :: cleared) c fuel
        else refuseFlag [c] ":"
      | some t => refuseFlag t ":"

/-- The flags that a group turns on and off. -/
structure GroupFlags where
  on : List Char
  off : List Char

/-- Reads the flags of a group after a question mark; none if they hold for the whole expression. -/
def readFlags (c : Char) : Reader (Option GroupFlags) := do
  let fuel := (← get).rest.length + 1
  let (on, ending) ← if c = '-' then pure ([], '-') else flagsOn [] c fuel
  if ending = ')' then do
    modify fun s => { s with verbose := s.verbose || on.contains 'x' }
    pure none
  else if on.contains 't' then refuseBack (.badFlags "cannot turn on global flag") 1
  else do
    let off ←
      if ending = '-' then
        match ← next with
        | none => refuse (.missing "flag")
        | some [f] =>
          if flagLetters.contains f then flagsOff [] f fuel else refuseFlag [f] "flag"
        | some t => refuseFlag t "flag"
      else pure []
    if off.contains 't' then refuseBack (.badFlags "cannot turn off global flag") 1
    else if on.any off.contains then refuseBack (.badFlags "flag turned on and off") 1
    else pure (some ⟨on, off⟩)

/-- A group name must be an identifier; it and its closing character have been taken. -/
def checkName (name : List Char) : Reader Unit :=
  if isIdentifier name then pure () else refuseBack (.badGroupName name) (name.length + 1)

/-- The number of a named group. -/
def namedGroup (name : List Char) : Reader Nat := do
  match (← get).names.find? (·.1 == name) with
  | some (_, group) => pure group
  | none => refuseBack (.unknownGroupName name) (name.length + 1)

/-- The group that a condition asks for, by name or number. -/
def readCondition : Reader Nat := do
  let name ← takeName ')' "group name"
  if isIdentifier name then namedGroup name
  else if !name.all Char.isDigit then refuseBack (.badGroupName name) (name.length + 1)
  else do
    let group := digitsValue 10 name
    if group = 0 then refuseBack .badGroupNumber (name.length + 1)
    else if 1073741823 ≤ group then refuseBack (.invalidReference group) (name.length + 1)
    else do
      let place ← here
      modify fun s =>
        if s.references.any (·.1 == group) then s
        else { s with references := s.references ++ [(group, place - name.length - 1)] }
      pure group

/-- Opens a group and yields its number. -/
def openGroup (name : Option (List Char)) : Reader Nat := do
  let s ← get
  let group := s.groups.length
  match name with
  | none => do
    set { s with groups := s.groups ++ [none] }
    pure group
  | some n =>
    match s.names.find? (·.1 == n) with
    | some (_, former) => refuseBack (.groupRedefinition n group former) (n.length + 1)
    | none => do
      set { s with groups := s.groups ++ [none], names := s.names ++ [(n, group)] }
      pure group

def closeGroup (group : Nat) (width : Width) : Reader Unit :=
  modify fun s => { s with groups := s.groups.set group (some width) }

/-- Skips a comment that began at `start`. -/
def skipComment (start : Nat) : (fuel : Nat) → Reader Unit
  | 0 => refuse .unexpectedEnd
  | fuel + 1 => do
    match ← next with
    | none => refuseAt .unterminatedComment start
    | some t => if t = [')'] then pure () else skipComment start fuel

/-- Skips the rest of a line. -/
def skipLine : (fuel : Nat) → Reader Unit
  | 0 => pure ()
  | fuel + 1 => do
    match ← next with
    | none => pure ()
    | some t => if t = ['\n'] then pure () else skipLine fuel

/-- Blanks that a verbose expression skips. -/
def isSkipped (c : Char) : Bool := c = ' ' || (9 ≤ c.toNat && c.toNat ≤ 13)

/-- The group that began at `start` must be closed. -/
def closing (start : Nat) : Reader Unit := do
  if ← accept ')' then pure () else refuseAt .unterminatedGroup start

/-- The total width of items. -/
def total (items : List Item) : Width :=
  (items.foldl (fun w i => w.add i.width) Width.zero).capped

/-- The kinds of a parenthesis. -/
inductive Opening where
  | capturing (name : Option (List Char))
  | plain (flags : GroupFlags)
  | lookahead
  | lookbehind
  | condition (group : Nat)
  /-- Nothing that stands for an item. -/
  | nothing
  /-- An item without an expression of its own. -/
  | item (i : Item)

/-- Reads what follows an opening parenthesis at `start`, up to the expression inside. `isFirst`
tells that nothing stands before it. -/
def readOpening (start : Nat) (isFirst : Bool) : Reader Opening := do
  if !(← accept '?') then pure (.capturing none)
  else
    match ← next with
    | none => refuse .unexpectedEnd
    | some ['P'] =>
      if ← accept '<' then do
        let name ← takeName '>' "group name"
        checkName name
        pure (.capturing (some name))
      else if ← accept '=' then do
        let name ← takeName ')' "group name"
        checkName name
        let group ← namedGroup name
        .item <$> groupReference group (name.length + 1)
      else
        match ← next with
        | none => refuse .unexpectedEnd
        | some t => refuseBack (.unknownExtension ('P' :: t)) (t.length + 2)
    | some [':'] => pure (.plain ⟨[], []⟩)
    | some ['>'] => pure (.plain ⟨[], []⟩)
    | some ['#'] => do
      skipComment start ((← get).rest.length + 1)
      pure .nothing
    | some ['='] => pure .lookahead
    | some ['!'] => pure .lookahead
    | some ['<'] =>
      match ← next with
      | none => refuse .unexpectedEnd
      | some t =>
        if t = ['='] || t = ['!'] then pure .lookbehind
        else refuseBack (.unknownExtension ('<' :: t)) (t.length + 2)
    | some ['('] => do
      let group ← readCondition
      checkLookbehind group
      pure (.condition group)
    | some t =>
      match t with
      | [c] =>
        if flagLetters.contains c || c = '-' then do
          match ← readFlags c with
          | some flags => pure (.plain flags)
          | none => if isFirst then pure .nothing else refuseAt .misplacedFlags start
        else refuseBack (.unknownExtension t) (t.length + 1)
      | _ => refuseBack (.unknownExtension t) (t.length + 1)

mutual

/-- Reads alternatives. `isTop` tells that they are those of the whole expression, `isFirst` that no
alternative has been read yet. -/
def readAlternatives (verbose isTop isFirst : Bool) : (fuel : Nat) → Reader Width
  | 0 => refuse .unexpectedEnd
  | fuel + 1 => do
    let width := total (← readSequence verbose (isTop && isFirst) [] fuel)
    if ← accept '|' then do
      let s ← get
      let more ← readAlternatives (if isTop then s.verbose else verbose) isTop false fuel
      pure (width.either more)
    else pure width

/-- Reads a sequence after the given items, the last one first. -/
def readSequence (verbose isFirst : Bool) (items : List Item) : (fuel : Nat) → Reader (List Item)
  | 0 => refuse .unexpectedEnd
  | fuel + 1 => do
    match ← peek with
    | none => pure items
    | some t =>
      if t = ['|'] || t = [')'] then pure items
      else do
        let start ← here
        let _ ← next
        match t with
        | ['\\', c] => readSequence verbose isFirst ((← escape c) :: items) fuel
        | [c] =>
          if verbose && isSkipped c then readSequence verbose isFirst items fuel
          else if verbose && c = '#' then do
            skipLine ((← get).rest.length + 1)
            readSequence verbose isFirst items fuel
          else if c = '[' then do
            let _ ← accept '^'
            readSet start true ((← get).rest.length + 1)
            readSequence verbose isFirst (⟨.other, .one⟩ :: items) fuel
          else if ['?', '*', '+', '\x7b'].contains c then do
            match ← readCounts c (start + 1) with
            | none => readSequence verbose isFirst (⟨.other, .one⟩ :: items) fuel
            | some counts => do
              readSequence verbose isFirst (← repeatLast (start + 1) counts items) fuel
          else if c = '(' then do
            let (added, verbose) ← readGroup verbose (isFirst && items.isEmpty) start fuel
            readSequence verbose isFirst (added ++ items) fuel
          else if c = '^' || c = '$' then
            readSequence verbose isFirst (⟨.anchor, .zero⟩ :: items) fuel
          else readSequence verbose isFirst (⟨.other, .one⟩ :: items) fuel
        | _ => readSequence verbose isFirst items fuel

/-- Reads a group after its parenthesis, which is at `start`: the item it is, if any, and whether
blanks are skipped after it. -/
def readGroup (verbose isFirst : Bool) (start : Nat) : (fuel : Nat) → Reader (List Item × Bool)
  | 0 => refuse .unexpectedEnd
  | fuel + 1 => do
    match ← readOpening start isFirst with
    | .nothing => do
      let s ← get
      pure ([], if isFirst then s.verbose || verbose else verbose)
    | .item i => pure ([i], verbose)
    | .lookahead => do
      let _ ← readAlternatives verbose false true fuel
      closing start
      pure ([⟨.other, .zero⟩], verbose)
    | .lookbehind => do
      let before := (← get).lookbehind
      modify fun s => { s with lookbehind := some (before.getD s.groups.length) }
      let width ← readAlternatives verbose false true fuel
      modify fun s => { s with
        lookbehind := before
        ragged := s.ragged || width.least != width.greatest }
      closing start
      pure ([⟨.other, .zero⟩], verbose)
    | .condition _ => do
      let yes := total (← readSequence verbose false [] fuel)
      let width ←
        if ← accept '|' then do
          let no := total (← readSequence verbose false [] fuel)
          if (← peek) = some ['|'] then refuse .conditionBranches else pure (yes.either no)
        else pure (⟨0, yes.greatest⟩ : Width)
      closing start
      pure ([⟨.other, width⟩], verbose)
    | .capturing name => do
      let group ← openGroup name
      let width ← readAlternatives verbose false true fuel
      closing start
      closeGroup group width
      pure ([⟨.other, width⟩], verbose)
    | .plain flags => do
      let inside := (verbose || flags.on.contains 'x') && !flags.off.contains 'x'
      let width ← readAlternatives inside false true fuel
      closing start
      pure ([⟨.other, width⟩], verbose)

end

/-- Reads a whole expression. -/
def readAll : Reader Unit := do
  moveTo (← get).rest
  let _ ← readAlternatives false true true (3 * (← get).size + 3)
  if (← peek).isSome then refuse .unbalanced
  else do
    let s ← get
    match s.references.find? fun r => s.groups.length ≤ r.1 with
    | some (group, place) => refuseAt (.invalidReference group) place
    | none => if s.ragged then (fun _ => .error ⟨.variableLookbehind, none⟩) else pure ()

/-- What is wrong with a regular expression, if anything is. -/
def failure? (text : List Char) : Option Failure :=
  match readAll ⟨text.length, text, [none], [], none, [], false, false⟩ with
  | .ok _ => none
  | .error f => some f

end StructuredOutput.Pattern

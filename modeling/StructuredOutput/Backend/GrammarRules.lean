import StructuredOutput.Backend.Grammar
import StructuredOutput.Backend.NamedSchemas
import StructuredOutput.Json.Writer
import StructuredOutput.Text.Case

/-!
The grammar of the JSON texts of a schema. Every object and union is a rule, so that a schema that
refers to itself becomes a recursive rule; objects have all their properties in order, and an
optional one may be null.
-/

namespace StructuredOutput.Grammar

open Text

/-- A terminal given as a string. -/
def word (s : String) : Expr := .terminal s.toList

/-- The rules for JSON's own parts. -/
def primitiveRules : List Rule := [
  ⟨"ws", .star (.chars false [(' ', ' '), ('\t', '\t'), ('\n', '\n')])⟩,
  ⟨"string", .seq [word "\"", .star (.rule "char"), word "\""]⟩,
  ⟨"char", .alt [
    .chars true [('"', '"'), ('\\', '\\'), (Char.ofNat 0x7f, Char.ofNat 0x7f),
      (Char.ofNat 0, Char.ofNat 0x1f)],
    .seq [word "\\", .rule "escape"]]⟩,
  ⟨"escape", .alt [
    .chars false ((['"', '\\', '/', 'b', 'f', 'n', 'r', 't'] : List Char).map fun c => (c, c)),
    .seq [word "u", .rule "hex", .rule "hex", .rule "hex", .rule "hex"]]⟩,
  ⟨"hex", .chars false [('0', '9'), ('a', 'f'), ('A', 'F')]⟩,
  ⟨"integer", .seq [
    .opt (word "-"),
    .group (.alt [word "0", .seq [.chars false [('1', '9')], .star (.chars false [('0', '9')])]])]⟩,
  ⟨"number", .seq [
    .rule "integer",
    .opt (.group (.seq [word ".", .plus (.chars false [('0', '9')])])),
    .opt (.group (.seq [
      .chars false [('e', 'e'), ('E', 'E')],
      .opt (.chars false [('-', '-'), ('+', '+')]),
      .plus (.chars false [('0', '9')])]))]⟩,
  ⟨"boolean", .alt [word "true", word "false"]⟩,
  ⟨"null", word "null"⟩]

/-- Names that no schema's rule may have. -/
def reserved : List String := "root" :: primitiveRules.map (·.name)

/-- The rules made so far. -/
structure Builder where
  rules : List Rule
  /-- The rules of schemas by the names of the schemas. -/
  ruleNames : List (String × String)
  /-- The rules that are being made. -/
  pending : List String

/-- A step in making a grammar. -/
abbrev Build := StateT Builder (Except ProjectionFault)

def isRuleChar (c : Char) : Bool := c.isAlphanum

/-- Puts one dash for every run of characters that a rule name cannot have, and makes the others
small. `dashed` tells that a dash was just put. -/
def dashes (dashed : Bool) : List Char → List Char
  | [] => []
  | c :: cs =>
    if isRuleChar c then lowerAscii c :: dashes false cs
    else if dashed then dashes true cs
    else '-' :: dashes true cs

/-- The text without the given character at its ends. -/
def stripped (mark : Char) (cs : List Char) : List Char :=
  ((cs.dropWhile (· == mark)).reverse.dropWhile (· == mark)).reverse

/-- The rule name that a schema name suggests. -/
def baseName (name : String) : String :=
  match stripped '-' (dashes false name.toList) with
  | [] => "schema"
  | cs => String.ofList cs

/-- The first of a rule name and its numbered forms that is not taken. -/
def freshRule (taken : List String) (base : String) : String :=
  let numbered := (List.range (taken.length + 1)).map fun i => s!"{base}-{i + 2}"
  ((base :: numbered).find? fun n => !taken.contains n).getD base

/-- The rule name of a schema, which it keeps once it has one. -/
def ruleName (name : String) : Build String := do
  let b ← get
  match Entries.get? b.ruleNames name with
  | some rule => pure rule
  | none => do
    let rule := freshRule (reserved ++ b.ruleNames.map (·.2)) (baseName name)
    set { b with ruleNames := b.ruleNames ++ [(name, rule)] }
    pure rule

/-- The rule of a named schema, made when it is needed for the first time. -/
def namedRule (name : String) (body : Build Expr) : Build Expr := do
  let rule ← ruleName name
  let b ← get
  if b.rules.any (·.name == rule) || b.pending.contains rule then pure (.rule rule)
  else do
    set { b with pending := rule :: b.pending }
    let e ← body
    modify fun b => { b with
      pending := b.pending.filter (· != rule)
      rules := b.rules ++ [⟨rule, e⟩] }
    pure (.rule rule)

/-- The JSON text of a string as a terminal. -/
def quotedTerminal (s : String) : Expr := .terminal (Json.stringText false s.toList)

/-- What the rules of a text come to: the options, if any, and the last bounds of its length. -/
structure TextBounds where
  options : Option (List String)
  lower : Option Nat
  upper : Option Nat

/-- Adds a rule; a pattern has no place in a grammar. -/
def TextBounds.add (b : TextBounds) : TextRule → Except ProjectionFault TextBounds
  | .pattern regex => .error (.pattern regex)
  | .constant value => .ok { b with options := some [value] }
  | .oneOf values => .ok { b with options := some values }
  | .length span => .ok { b with lower := span.lower.or b.lower, upper := span.upper.or b.upper }

/-- The expression of texts with the given refinements. -/
def textExpr (rules : List TextRule) : Except ProjectionFault Expr := do
  let b ← rules.foldlM TextBounds.add ⟨none, none, none⟩
  match b.options with
  | some options => .ok (.group (.alt (options.map quotedTerminal)))
  | none =>
    match b.lower, b.upper with
    | none, none => .ok (.rule "string")
    | some lo, some hi =>
      if hi < lo then .error (.reversedLength lo hi) else .ok (limited lo (some hi))
    | lo, hi => .ok (limited (lo.getD 0) hi)
where
  limited (least : Nat) (greatest : Option Nat) : Expr :=
    .seq [word "\"", .times (.rule "char") least greatest, word "\""]

def ws : Expr := .rule "ws"

/-- The expression of arrays with the given numbers of items. -/
def arrayExpr (item : Expr) (counts : List Span) : Except ProjectionFault Expr :=
  let lower := counts.foldl (fun acc s => s.lower.or acc) none
  let upper := counts.foldl (fun acc s => s.upper.or acc) none
  let more := Expr.group (.seq [word ",", ws, item, ws])
  match lower, upper with
  | some lo, some hi =>
    if hi < lo then .error (.reversedCount lo hi) else .ok (bounded more lo (some hi))
  | lo, hi => .ok (bounded more (lo.getD 0) hi)
where
  bounded (more : Expr) (least : Nat) (greatest : Option Nat) : Expr :=
    if greatest = some 0 then .seq [word "[", ws, word "]"]
    else if least = 0 then
      let rest := match greatest with
        | none => Expr.star more
        | some n => .times more 0 (some (n - 1))
      .seq [word "[", ws, .opt (.group (.seq [item, ws, rest])), word "]"]
    else
      .seq [word "[", ws, item, ws, .times more (least - 1) (greatest.map (· - 1)), word "]"]

/-- The parts of an object between commas. -/
def separated : List Expr → List Expr
  | [] => []
  | [m] => [m]
  | m :: ms => m :: ws :: word "," :: ws :: separated ms

/-- The expression of an object with the given members. -/
def objectExpr (members : List Expr) : Expr :=
  match members with
  | [] => .seq [word "\x7b", ws, word "\x7d"]
  | ms => .seq ([word "\x7b", ws] ++ separated ms ++ [ws, word "\x7d"])

/-- A member of an object: its key and its value, which may be null if it is optional. -/
def memberExpr (key : String) (optional : Bool) (value : Expr) : Expr :=
  .seq [quotedTerminal key, ws, word ":", ws,
    if optional then .group (.alt [value, .rule "null"]) else value]

mutual

/-- The expression of a schema; `follow` makes that of the node a reference stands for. -/
def expr (follow : String → Build Expr) : Schema → Build Expr
  | .string rules => liftM (textExpr rules)
  | .integer ranges => if ranges.isEmpty then pure (.rule "integer") else throw .numericRange
  | .number ranges => if ranges.isEmpty then pure (.rule "number") else throw .numericRange
  | .boolean => pure (.rule "boolean")
  | .array item counts => do
    let e ← expr follow item
    liftM (arrayExpr e counts)
  | .object name _ properties =>
    namedRule name do
      let ms ← members follow properties
      pure (objectExpr ms)
  | .union name _ alternatives =>
    namedRule name
      (if alternatives.isEmpty then throw (.emptyUnion name)
      else do
        let es ← exprs follow alternatives
        pure (.alt es))
  | .ref name => follow name

/-- The members of an object. -/
def members (follow : String → Build Expr) : List (Property Schema) → Build (List Expr)
  | [] => pure []
  | ⟨key, s, _, optional⟩ :: ps => do
    let e ← expr follow s
    let es ← members follow ps
    pure (memberExpr key optional e :: es)

/-- The expressions of alternatives. -/
def exprs (follow : String → Build Expr) : List Schema → Build (List Expr)
  | [] => pure []
  | s :: ss => do
    let e ← expr follow s
    let es ← exprs follow ss
    pure (e :: es)

end

/-- The rule of the node that a reference stands for, where `fuel` more references may be followed
one inside the other. -/
def follow (g : SchemaGraph) (named : NamedSchemas) : (fuel : Nat) → String → Build Expr
  | 0, name => throw (.dangling name)
  | fuel + 1, name =>
    match (Entries.get? named.schemas name).or (g.resolve? name) with
    | some node => expr (follow g named fuel) node
    | none => throw (.dangling name)

/-- The rules of a schema: that of the root, those of its named schemas, and JSON's own. -/
def rulesOf (g : SchemaGraph) (named : NamedSchemas) : Except ProjectionFault (List Rule) := do
  let fuel := named.schemas.length + g.table.length + 1
  let (start, b) ← (expr (follow g named fuel) g.root).run ⟨[], [], []⟩
  .ok (⟨"root", start⟩ :: b.rules ++ primitiveRules)

end StructuredOutput.Grammar

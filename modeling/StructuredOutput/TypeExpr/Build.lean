import StructuredOutput.DefinitionError
import StructuredOutput.TypeExpr.Shown

/-!
Equality of type expressions and their normal forms: unions are flat, without repetition and have
two members at least, and nothing is attached to an annotated type but through itself.
-/

namespace StructuredOutput

namespace Value

/-- Whether two values are of one type. -/
def sameClass : Value → Value → Bool
  | null, null | bool _, bool _ | integer _, integer _ | real _, real _ | text _, text _
  | bytes _, bytes _ | list _, list _ | tuple _, tuple _ | set _, set _ | dict _, dict _
  | unknown, unknown | object, object | type _, type _ => true
  | member a _ _ _, member b _ _ _ => a == b
  | record a _, record b _ => a == b
  | slots a _, slots b _ => a == b
  | _, _ => false

/-- Whether two values are the same as literals: equal and of one type. -/
def sameLiteral (a b : Value) : Bool := a.sameClass b && a.same b

end Value

/-- Whether two lists are equal item by item. -/
def allSame {α : Type} (same : α → α → Bool) : List α → List α → Bool
  | [], [] => true
  | x :: xs, y :: ys => same x y && allSame same xs ys
  | _, _ => false

/-- Equality of attachments. -/
def Note.same : Note → Note → Bool
  | .guide c d, .guide c' d' => allSame Constraint.same c c' && d == d'
  | .tagged n d, .tagged n' d' => n == n' && d == d'
  | .remark s, .remark t => s == t
  | _, _ => false

namespace TypeExpr

mutual

/-- Equality of types; the order of union members and of literal values does not count. -/
def same : TypeExpr → TypeExpr → Bool
  | atom a, atom b => a == b
  | named a, named b => a == b
  | list a, list b => same a b
  | sequence a, sequence b => same a b
  | set a, set b => same a b
  | dict k v, dict k' v' => same k k' && same v v'
  | tuple xs, tuple ys => sameAll xs ys
  | variadic xs, variadic ys => sameAll xs ys
  | literal xs, literal ys =>
    xs.length == ys.length && xs.all fun x => ys.any (Value.sameLiteral x)
  | union xs, union ys => xs.length == ys.length && within xs ys
  | annotated t notes, annotated u notes' => same t u && allSame Note.same notes notes'
  | undefined a, undefined b => a == b
  | _, _ => false

def sameAll : List TypeExpr → List TypeExpr → Bool
  | [], [] => true
  | x :: xs, y :: ys => same x y && sameAll xs ys
  | _, _ => false

/-- Whether every type of the first list occurs in the second. -/
def within : List TypeExpr → List TypeExpr → Bool
  | [], _ => true
  | x :: xs, ys => ys.any (same x) && within xs ys

end

mutual

/-- The type name of a literal value in a type that can be changed in place. -/
def changeable? : TypeExpr → Option String
  | list t | sequence t | set t | annotated t _ => changeable? t
  | dict k v => (changeable? k).or (changeable? v)
  | tuple ts | variadic ts | union ts => changeableIn? ts
  | literal values => values.findSome? Value.changeable?
  | atom _ | named _ | undefined _ => none

def changeableIn? : List TypeExpr → Option String
  | [] => none
  | t :: ts => (changeable? t).or (changeableIn? ts)

end

/-- The members of a union; any other type is its own only member. -/
def alternatives : TypeExpr → List TypeExpr
  | union members => members
  | t => [t]

/-- Each type once, at its first place. -/
def distinct (ts : List TypeExpr) : List TypeExpr :=
  ts.foldl (fun seen t => if seen.any (·.same t) then seen else seen ++ [t]) []

/-- The literal type of values, each once. -/
def ofValues (values : List Value) : TypeExpr :=
  if values.any fun v => v.changeable?.isSome then literal values
  else
    literal
      (values.foldl (fun seen v => if seen.any (·.sameLiteral v) then seen else seen ++ [v]) [])

/-- The union of types: nested unions are flattened, repetitions dropped, and one type is itself. -/
def unionOf (ds : Declarations) (ts : List TypeExpr) : Except TypeFault TypeExpr :=
  let members := ts.flatMap alternatives
  match members with
  | [t] => .ok t
  | _ =>
    if members.any (· matches atom .optional) then .error .bareOptional
    else if members.all (isBarred ds) then .ok (joined (distinct members))
    else
      match changeableIn? members with
      | some name => .error (.changeableLiteral name)
      | none => .ok (joined (distinct members))
where
  joined : List TypeExpr → TypeExpr
    | [t] => t
    | ts => union ts

/-- A type or nothing. -/
def optional (ds : Declarations) (t : TypeExpr) : Except TypeFault TypeExpr :=
  unionOf ds [t, atom .none]

/-- Attaches notes to a type; they come after those attached before. -/
def annotate (t : TypeExpr) (notes : List Note) : Except TypeFault TypeExpr :=
  match t with
  | atom .optional => .error .bareOptional
  | annotated t inner => .ok (annotated t (inner ++ notes))
  | t => .ok (annotated t notes)

end TypeExpr

end StructuredOutput

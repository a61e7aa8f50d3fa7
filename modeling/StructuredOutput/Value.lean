import StructuredOutput.Number.Double
import StructuredOutput.Entries

/-!
Typed values: what decoding yields, what encoding accepts and what occurs in declarations.
-/

namespace StructuredOutput

/-- A typed value. Classes are named by their declared identifiers. -/
inductive Value where
  | null
  | bool (value : Bool)
  | integer (value : Int)
  | real (value : Floating)
  | text (value : String)
  | bytes (value : List UInt8)
  | list (items : List Value)
  | tuple (items : List Value)
  | set (items : List Value)
  | dict (entries : List (Value × Value))
  /-- A slot that has not been observed. -/
  | unknown
  /-- A value without any properties. -/
  | object
  /-- A declared class itself. -/
  | type (id : String)
  /-- A member of an enumeration with its value; a `mixed` one is a text or an integer itself. -/
  | member (enum name : String) (value : Value) (mixed : Bool)
  /-- An instance of a record with all its attributes. -/
  | record (id : String) (fields : List (String × Value))
  /-- A snapshot of a record in the making: one slot per decoded field. -/
  | slots (id : String) (fields : List (String × Value))

namespace Value

/-- The text, integer or other value that a value is an instance of: the value of a mixed member,
and else the value itself. -/
def base : Value → Value
  | member _ _ value true => value
  | v => v

/-- The text that a value is. -/
def asText? (v : Value) : Option String :=
  match v.base with
  | text s => some s
  | _ => none

/-- The integer that a value is; a truth value is not meant here. -/
def asInteger? (v : Value) : Option Int :=
  match v.base with
  | integer n => some n
  | _ => none

/-- The number that a value is, truth values included, as an exact fraction of units. -/
def asNumber? (v : Value) : Option (Int ⊕ Floating) :=
  match v.base with
  | bool b => some (.inl (if b then 1 else 0))
  | integer n => some (.inl n)
  | real x => some (.inr x)
  | _ => none

/-- Whether two numbers have the same value. -/
def sameNumber : Int ⊕ Floating → Int ⊕ Floating → Bool
  | .inl m, .inl n => m == n
  | .inl m, .inr (.finite x) => m * unitsPerOne == x.signedUnits
  | .inr (.finite x), .inl m => m * unitsPerOne == x.signedUnits
  | .inr x, .inr y => x.sameValue y
  | _, _ => false

mutual

/-- Equality of values: numbers by value, truth values counting as one and zero, mixed members like
their texts and integers, sets and dictionaries without regard to order. -/
def same (a b : Value) : Bool :=
  match a, b with
  | member e n v m, _ => sameMember e n v m b
  | list xs, list ys => sameAll xs ys
  | tuple xs, tuple ys => sameAll xs ys
  | set xs, set ys => xs.length == ys.length && within xs ys
  | dict xs, dict ys => xs.length == ys.length && entriesWithin xs ys
  | record c xs, record d ys => c == d && sameFields xs ys
  | slots c xs, slots d ys => c == d && sameFields xs ys
  | null, null => true
  | unknown, unknown => true
  | text s, _ => b.asText? == some s
  | bytes s, bytes t => s == t
  | type c, type d => c == d
  | _, _ =>
    match a.asNumber?, b.asNumber? with
    | some x, some y => sameNumber x y
    | _, _ => false

/-- Equality of a member with another value. -/
def sameMember (e n : String) (v : Value) (mixed : Bool) (b : Value) : Bool :=
  if mixed then same v b.base
  else
    match b with
    | member e' n' _ _ => e == e' && n == n'
    | _ => false

/-- Equality of lists item by item. -/
def sameAll (xs ys : List Value) : Bool :=
  match xs, ys with
  | [], [] => true
  | x :: xs, y :: ys => same x y && sameAll xs ys
  | _, _ => false

/-- Whether every item of the first list occurs in the second. -/
def within (xs ys : List Value) : Bool :=
  match xs with
  | [] => true
  | x :: xs => ys.any (same x) && within xs ys

/-- Whether every entry of the first dictionary occurs in the second. -/
def entriesWithin (xs ys : List (Value × Value)) : Bool :=
  match xs with
  | [] => true
  | (k, v) :: xs => ys.any (fun e => same k e.1 && same v e.2) && entriesWithin xs ys

/-- Equality of attributes, name by name. -/
def sameFields (xs ys : List (String × Value)) : Bool :=
  match xs, ys with
  | [], [] => true
  | (m, x) :: xs, (n, y) :: ys => m == n && same x y && sameFields xs ys
  | _, _ => false

end

/-- A set of the given items, each once. -/
def setOf (items : List Value) : Value :=
  set (items.foldl (fun seen x => if seen.any (·.same x) then seen else seen ++ [x]) [])

/-- Sets the value of a key: an equal key keeps its place. -/
def putEntry (entries : List (Value × Value)) (key value : Value) : List (Value × Value) :=
  match entries with
  | [] => [(key, value)]
  | (k, v) :: rest =>
    if k.same key then (k, value) :: rest else (k, v) :: putEntry rest key value

/-- A dictionary with the given entries; of equal keys the last value counts. -/
def dictOf (entries : List (Value × Value)) : Value :=
  dict (entries.foldl (fun acc e => putEntry acc e.1 e.2) [])

/-- Whether a value counts as false: nothing, zero, and whatever is empty. -/
def isFalsy (v : Value) : Bool :=
  match v.base with
  | null | unknown => true
  | bool b => !b
  | integer n => n == 0
  | real (.finite x) => x.units == 0
  | text s => s.isEmpty
  | bytes b => b.isEmpty
  | list xs | tuple xs | set xs => xs.isEmpty
  | dict es => es.isEmpty
  | _ => false

end Value

end StructuredOutput

import StructuredOutput.Constraint
import StructuredOutput.DefinitionError
import StructuredOutput.Pattern.Reader
import StructuredOutput.Value.Shown

/-!
Refinements from the values that a declaration gives. A refinement that makes no sense is refused
where it is written.
-/

namespace StructuredOutput

open Text

/-- Why there is no refinement with the given values. -/
inductive ConstraintFault where
  | definition (cause : DefinitionError)
  /-- A number beyond what can be compared with a double or counted. -/
  | overflow
  deriving DecidableEq

namespace Constraint

/-- A regular expression that texts must match. -/
def ofPattern (regex : String) : Except ConstraintFault Constraint :=
  match Pattern.failure? regex.toList with
  | none => .ok (.text (.pattern regex))
  | some ⟨.repeatTooLarge, _⟩ => .error .overflow
  | some failure => .error (.definition (.invalidPattern regex failure))

/-- The text that texts must equal. -/
def ofConstant (v : Value) : Except ConstraintFault Constraint :=
  match v.asText? with
  | some s => .ok (.text (.constant s))
  | none => .error (.definition .constantNotText)

/-- The texts of which texts must be one. -/
def ofOptions (vs : List Value) : Except ConstraintFault Constraint :=
  if vs.isEmpty then .error (.definition .noOptions)
  else
    match vs.mapM Value.asText? with
    | some values => .ok (.text (.oneOf values))
    | none => .error (.definition .optionNotText)

/-- A bound of a number of things; `kind` names what is bounded. -/
def countBound (ds : Declarations) (kind : String) (v : Value) :
    Except DefinitionError (Option Nat) :=
  match v, v.asInteger? with
  | .null, _ => .ok none
  | _, some n => if n < 0 then .error (.spanNegative kind) else .ok (some n.toNat)
  | _, none => .error (.spanNotInteger kind (v.shown ds))

/-- Two bounds of a number of things, the lower one first. -/
def spanOf (ds : Declarations) (kind : String) (lower upper : Value) :
    Except DefinitionError Span := do
  let lo ← countBound ds kind lower
  let hi ← countBound ds kind upper
  if h : inOrder (· ≤ ·) lo hi = true then .ok ⟨lo, hi, h⟩
  else .error (.boundsReversed kind (lower.plain ds) (upper.plain ds))

/-- The numbers of characters that texts may have. -/
def ofLength (ds : Declarations) (lower upper : Value) : Except ConstraintFault Constraint :=
  match spanOf ds "Length" lower upper with
  | .ok span => .ok (.text (.length span))
  | .error cause => .error (.definition cause)

/-- The numbers of items that arrays may have. -/
def ofCount (ds : Declarations) (lower upper : Value) : Except ConstraintFault Constraint :=
  match spanOf ds "Count" lower upper with
  | .ok span => .ok (.count span)
  | .error cause => .error (.definition cause)

/-- A numeric bound. An integer must not be too large for comparison with a double. -/
def bound (ds : Declarations) (v : Value) : Except ConstraintFault (Option Bound) :=
  match v.base with
  | .null => .ok none
  | .integer n =>
    match Floating.ofInt n with
    | .finite _ => .ok (some (.whole n))
    | _ => .error .overflow
  | .real (.finite x) => .ok (some (.real x))
  | .real _ => .error (.definition .boundNotFinite)
  | _ => .error (.definition (.boundNotNumber (v.shown ds)))

/-- The values that numbers may have. -/
def ofRange (ds : Declarations) (lower upper : Value) : Except ConstraintFault Constraint := do
  let lo ← bound ds lower
  let hi ← bound ds upper
  if h : inOrder (fun a b => decide (a.units ≤ b.units)) lo hi = true then .ok (.range ⟨lo, hi, h⟩)
  else .error (.definition (.boundsReversed "Range" (lower.plain ds) (upper.plain ds)))

end Constraint

end StructuredOutput

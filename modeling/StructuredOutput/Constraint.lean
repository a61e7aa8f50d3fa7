import StructuredOutput.Number.Layout

/-!
Refinements of primitive and array types. Bounds are ordered by construction.
-/

namespace StructuredOutput

open Text

/-- A numeric bound: an integer of any size or a finite double. -/
inductive Bound where
  | whole (value : Int)
  | real (value : Double)
  deriving DecidableEq

namespace Bound

/-- The value in units of `2 ^ -1074`. -/
def units : Bound → Int
  | whole n => n * unitsPerOne
  | real x => x.signedUnits

/-- Whether the value is a whole number. -/
def isIntegral : Bound → Bool
  | whole _ => true
  | real x => x.isIntegral

/-- The whole number of the value, its fraction cut off toward zero. -/
def truncate : Bound → Int
  | whole n => n
  | real x => x.truncate

theorem units_truncate {b : Bound} (h : b.isIntegral = true) :
    (whole b.truncate).units = b.units := by
  cases b with
  | whole n => rfl
  | real x =>
    have hdiv : x.units / unitsPerOne * unitsPerOne = x.units :=
      Nat.div_mul_cancel (Nat.dvd_of_mod_eq_zero (by simpa [isIntegral, Double.isIntegral] using h))
    have hcast : ((x.units / unitsPerOne : Nat) : Int) * (unitsPerOne : Int) = (x.units : Int) := by
      rw [← Int.natCast_mul, hdiv]
    simp only [units, truncate, Double.truncate, Double.signedUnits]
    split
    · rw [Int.neg_mul, hcast]
    · exact hcast

/-- Equality of values. -/
def same (a b : Bound) : Bool := a.units == b.units

/-- The text of the number. -/
def text : Bound → String
  | whole n => String.ofList (integerText n)
  | real x => String.ofList (plainLayout.doubleText x)

end Bound

/-- Whether a lower and an upper bound, where both are given, are in order. -/
def inOrder {α : Type} (le : α → α → Bool) : Option α → Option α → Bool
  | some a, some b => le a b
  | _, _ => true

/-- Bounds of a number of characters or elements. -/
structure Span where
  lower : Option Nat
  upper : Option Nat
  ordered : inOrder (· ≤ ·) lower upper = true
  deriving DecidableEq

/-- Bounds of a numeric value. -/
structure Range where
  lower : Option Bound
  upper : Option Bound
  ordered : inOrder (fun a b => decide (a.units ≤ b.units)) lower upper = true
  deriving DecidableEq

/-- Equality of optional bounds by value. -/
def sameBound : Option Bound → Option Bound → Bool
  | none, none => true
  | some a, some b => a.same b
  | _, _ => false

namespace Range

/-- Equality of ranges by the values of their bounds. -/
def same (r s : Range) : Bool := sameBound r.lower s.lower && sameBound r.upper s.upper

/-- Whether the bounds that are given are whole numbers. -/
def isIntegral (r : Range) : Bool := r.lower.all Bound.isIntegral && r.upper.all Bound.isIntegral

/-- A bound as an integer, its fraction cut off. -/
def wholeBound (b : Option Bound) : Option Bound := b.map fun b => .whole b.truncate

/-- A range of whole numbers with integers as its bounds. -/
def toWhole (r : Range) (h : r.isIntegral = true) : Range :=
  ⟨wholeBound r.lower, wholeBound r.upper, by
    obtain ⟨lower, upper, ordered⟩ := r
    cases lower <;> cases upper <;> try rfl
    simp only [isIntegral, Option.all_some, Bool.and_eq_true] at h
    simpa [wholeBound, inOrder, Bound.units_truncate h.1, Bound.units_truncate h.2] using ordered⟩

end Range

/-- A refinement of texts. -/
inductive TextRule where
  | pattern (regex : String)
  | constant (value : String)
  | oneOf (values : List String)
  | length (span : Span)
  deriving DecidableEq

/-- A refinement; `element` refines the items of an array. -/
inductive Constraint where
  | text (rule : TextRule)
  | range (range : Range)
  | count (span : Span)
  | element (inner : Constraint)
  deriving DecidableEq

namespace Constraint

/-- The word for the kind of a refinement. -/
def kind : Constraint → String
  | text (.pattern _) => "Pattern"
  | text (.constant _) => "Constant"
  | text (.oneOf _) => "OneOf"
  | text (.length _) => "Length"
  | range _ => "Range"
  | count _ => "Count"
  | element _ => "Element"

/-- Equality of refinements, bounds by value. -/
def same : Constraint → Constraint → Bool
  | text a, text b => a == b
  | range r, range s => r.same s
  | count a, count b => a == b
  | element a, element b => same a b
  | _, _ => false

end Constraint

end StructuredOutput

import StructuredOutput.Constraint.Checked
import StructuredOutput.Proofs.Number.Overflow
import StructuredOutput.Schema

/-!
Numbers as bounds. What bounds are said to be is a matter of rational numbers, whether they are given
as integers of any size or as doubles, and refinement keeps their values. The one exception are
integers beyond the doubles: they cannot be compared with an infinity, and instead of a range or a
refusal there is an overflow.
-/

namespace StructuredOutput

/-! ### Values of bounds -/

namespace Bound

variable {a b : Bound}

/-- The number that a bound is. -/
def rational : Bound → ℚ
  | whole n => n
  | real x => x.signedUnits / (unitsPerOne : ℚ)

theorem unitsPerOne_pos_rat : (0 : ℚ) < unitsPerOne := Nat.cast_pos.mpr unitsPerOne_pos

theorem rational_eq (b : Bound) : b.rational = b.units / (unitsPerOne : ℚ) := by
  cases b with
  | whole n =>
    have hne : (unitsPerOne : ℚ) ≠ 0 := unitsPerOne_pos_rat.ne'
    simp [rational, units, hne]
  | real x => rfl

theorem rational_le_iff : a.rational ≤ b.rational ↔ a.units ≤ b.units := by
  rw [rational_eq, rational_eq, div_le_div_iff_of_pos_right unitsPerOne_pos_rat, Int.cast_le]

/-- An integral bound keeps its value as an integer. -/
theorem rational_truncate (h : b.isIntegral = true) : (b.truncate : ℚ) = b.rational := by
  have hwhole : (whole b.truncate).rational = b.rational := by
    rw [rational_eq, rational_eq, units_truncate h]
  exact hwhole

theorem isIntegral_iff : b.isIntegral = true ↔ ∃ n : ℤ, b.rational = n := by
  refine ⟨fun h => ⟨b.truncate, (rational_truncate h).symm⟩, fun ⟨n, hn⟩ => ?_⟩
  cases b with
  | whole => rfl
  | real x =>
    have hunits : x.signedUnits = n * (unitsPerOne : ℤ) := by
      rw [rational, div_eq_iff unitsPerOne_pos_rat.ne'] at hn
      exact_mod_cast hn
    have hnat : x.units = n.natAbs * unitsPerOne := by
      rw [x.units_eq_natAbs, hunits, Int.natAbs_mul, Int.natAbs_natCast]
    exact decide_eq_true (by rw [hnat, Nat.mul_mod_left])

/-- An integer with the value of a bound is the bound without its fraction, which it lacks. -/
theorem map_intCast_eq_iff {b : Option Bound} {n : Option Int} :
    n.map Int.cast = b.map rational ↔ b.all isIntegral = true ∧ n = b.map truncate := by
  cases b with
  | none => simp
  | some b =>
    cases n with
    | none => simp
    | some n =>
      simp only [Option.map_some, Option.some.injEq, Option.all_some]
      constructor
      · intro hn
        have hintegral : b.isIntegral = true := isIntegral_iff.mpr ⟨n, hn.symm⟩
        exact ⟨hintegral, Int.cast_injective (hn.trans (rational_truncate hintegral).symm)⟩
      · rintro ⟨hintegral, rfl⟩
        exact rational_truncate hintegral

end Bound

namespace Value

variable {v : Value}

/-- The number that a value is, if it is a finite one. A truth value is no number here. -/
def rational? (v : Value) : Option ℚ :=
  match v.base with
  | integer n => some n
  | real (.finite x) => some (x.signedUnits / (unitsPerOne : ℚ))
  | _ => none

/-- Whether a value can be a bound: it is nothing or a finite number. -/
def IsBound (v : Value) : Prop := v.base = null ∨ v.rational?.isSome

/-- Whether two values, where both are numbers, are in order. -/
def InOrder (v w : Value) : Prop := ∀ p q, v.rational? = some p → w.rational? = some q → p ≤ q

/-- Whether a value is an integer beyond the doubles. -/
def IsOversized (v : Value) : Prop := ∃ n, v.base = integer n ∧ StructuredOutput.IsOversized n

/-- What a value is as a bound. -/
inductive Bounds (v : Value) : Option Bound → Prop
  | absent (nothing : v.base = null) : Bounds v none
  | whole {n : Int} (number : v.base = integer n) : Bounds v (some (.whole n))
  | real {x : Double} (number : v.base = real (.finite x)) : Bounds v (some (.real x))

theorem Bounds.rational?_eq {b : Option Bound} (h : v.Bounds b) :
    v.rational? = b.map Bound.rational := by
  cases h with
  | absent h | whole h | real h =>
    rw [rational?, h]
    rfl

theorem isBound_iff : v.IsBound ↔ ∃ b, v.Bounds b := by
  constructor
  · rintro (h | h)
    · exact ⟨none, .absent h⟩
    · unfold rational? at h
      split at h
      · next n hn => exact ⟨_, .whole hn⟩
      · next x hx => exact ⟨_, .real hx⟩
      · cases h
  · rintro ⟨b, h⟩
    cases h with
    | absent h => exact .inl h
    | whole h | real h =>
      right
      rw [rational?, h]
      rfl

/-- What is a number as a bound has its value. -/
theorem inOrder_iff {w : Value} {lo hi : Option Bound} (hlo : v.Bounds lo) (hhi : w.Bounds hi) :
    v.InOrder w ↔ inOrder (fun a b : Bound => decide (a.units ≤ b.units)) lo hi = true := by
  rw [InOrder, hlo.rational?_eq, hhi.rational?_eq]
  cases lo with
  | none => simp [inOrder]
  | some a =>
    cases hi with
    | none => simp [inOrder]
    | some b => simp [inOrder, Bound.rational_le_iff]

end Value

namespace Constraint

variable {ds : Declarations} {v lower upper : Value}

/-! ### One bound -/

theorem bound_of_oversized (h : v.IsOversized) : bound ds v = .error .overflow := by
  obtain ⟨n, hn, hlarge⟩ := h
  have hinfinite : ∀ x, Floating.ofInt n ≠ .finite x := fun x hx =>
    ofInt_eq_finite_iff.mp ⟨x, hx⟩ hlarge
  unfold bound
  grind

theorem bound_of_bounds {b : Option Bound} (h : v.Bounds b) (hv : ¬ v.IsOversized) :
    bound ds v = .ok b := by
  cases h with
  | absent h | real h =>
    unfold bound
    grind
  | @whole n h =>
    obtain ⟨x, hx⟩ := ofInt_eq_finite_iff.mpr fun hlarge => hv ⟨n, h, hlarge⟩
    unfold bound
    grind

/-- The error for what is no bound. -/
def boundFault (ds : Declarations) (v : Value) : DefinitionError :=
  match v.base with
  | .real _ => .boundNotFinite
  | _ => .boundNotNumber (v.shown ds)

theorem bound_of_not_isBound (h : ¬ v.IsBound) :
    bound ds v = .error (.definition (boundFault ds v)) := by
  have hnull : v.base ≠ .null := fun hv => h (Value.isBound_iff.mpr ⟨_, .absent hv⟩)
  have hinteger : ∀ n, v.base ≠ .integer n := fun n hv => h (Value.isBound_iff.mpr ⟨_, .whole hv⟩)
  have hreal : ∀ x, v.base ≠ .real (.finite x) := fun x hv =>
    h (Value.isBound_iff.mpr ⟨_, .real hv⟩)
  unfold bound boundFault
  grind

/-! ### Two bounds -/

theorem ofRange_of_bounds {lo hi : Option Bound} (hlo : lower.Bounds lo) (hhi : upper.Bounds hi)
    (hlower : ¬ lower.IsOversized) (hupper : ¬ upper.IsOversized) :
    (∃ h, ofRange ds lower upper = .ok (.range ⟨lo, hi, h⟩)) ∧ lower.InOrder upper ∨
      (∃ cause, ofRange ds lower upper = .error (.definition cause)) ∧ ¬ lower.InOrder upper := by
  have hrange : ofRange ds lower upper = (do
      let lo ← Except.ok lo
      let hi ← Except.ok hi
      if h : inOrder (fun a b : Bound => decide (a.units ≤ b.units)) lo hi = true then
        .ok (.range ⟨lo, hi, h⟩)
      else
        .error (.definition (.boundsReversed "Range" (lower.plain ds) (upper.plain ds)))) := by
    rw [ofRange, bound_of_bounds hlo hlower, bound_of_bounds hhi hupper]
  rw [Value.inOrder_iff hlo hhi]
  by_cases h : inOrder (fun a b : Bound => decide (a.units ≤ b.units)) lo hi = true
  · exact .inl ⟨⟨h, hrange.trans (dif_pos h)⟩, h⟩
  · exact .inr ⟨⟨_, hrange.trans (dif_neg h)⟩, h⟩

/-- An integer beyond the doubles overflows, unless the bound before it is refused. -/
theorem ofRange_of_oversized
    (h : lower.IsOversized ∨ lower.IsBound ∧ upper.IsOversized) :
    ofRange ds lower upper = .error .overflow := by
  by_cases hlower : lower.IsOversized
  · rw [ofRange, bound_of_oversized hlower]
    rfl
  · obtain ⟨hbound, hupper⟩ := h.resolve_left hlower
    obtain ⟨lo, hlo⟩ := Value.isBound_iff.mp hbound
    rw [ofRange, bound_of_bounds hlo hlower, bound_of_oversized hupper]
    rfl

theorem ofRange_of_not_isBound (h : ¬ (lower.IsOversized ∨ lower.IsBound ∧ upper.IsOversized))
    (hbound : ¬ (lower.IsBound ∧ upper.IsBound)) :
    ∃ cause, ofRange ds lower upper = .error (.definition cause) := by
  obtain ⟨hlower, hupper⟩ := not_or.mp h
  by_cases hlo : lower.IsBound
  · obtain ⟨lo, hlo'⟩ := Value.isBound_iff.mp hlo
    refine ⟨boundFault ds upper, ?_⟩
    rw [ofRange, bound_of_bounds hlo' hlower, bound_of_not_isBound fun hhi => hbound ⟨hlo, hhi⟩]
    rfl
  · refine ⟨boundFault ds lower, ?_⟩
    rw [ofRange, bound_of_not_isBound hlo]
    rfl

end Constraint

/-! ### Ranges on numeric schemas -/

namespace Schema

variable {ds : Declarations} {lower upper : Value} {lo hi : Option Bound}
  {h : inOrder (fun a b : Bound => decide (a.units ≤ b.units)) lo hi = true} {ranges : List Range}

/-- A schema with bounds from the values of a declaration. -/
def withBounds (ds : Declarations) (lower upper : Value) (s : Schema) :
    Except ConstraintFault Schema := do
  let c ← Constraint.ofRange ds lower upper
  (s.constrain [c]).mapError .definition

theorem withBounds_of_ok {c : Constraint} (hc : Constraint.ofRange ds lower upper = .ok c)
    (s : Schema) : s.withBounds ds lower upper = (s.refine c).mapError .definition := by
  have hone : s.constrain [c] = s.refine c := by simp [constrain]
  rw [withBounds, hc, ← hone]
  rfl

theorem withBounds_of_error {fault : ConstraintFault} {s : Schema}
    (hc : Constraint.ofRange ds lower upper = .error fault) :
    s.withBounds ds lower upper = .error fault := by
  rw [withBounds, hc]
  rfl

theorem refine_number (r : Range) :
    (number ranges).refine (.range r) = .ok (number (ranges ++ [r])) := by
  rw [refine]

/-- Integers take ranges of whole numbers, with the integers of these values as bounds. -/
theorem refine_integer_eq_ok_iff {r : Range} {s : Schema} :
    (integer ranges).refine (.range r) = .ok s ↔
      ∃ (lo hi : Option Int) (r' : Range), s = integer (ranges ++ [r']) ∧
        r'.lower = lo.map .whole ∧ r'.upper = hi.map .whole ∧
        lo.map Int.cast = r.lower.map Bound.rational ∧
        hi.map Int.cast = r.upper.map Bound.rational := by
  simp only [Bound.map_intCast_eq_iff]
  rw [refine, integerRange]
  split
  · next hr =>
    obtain ⟨hlo, hhi⟩ := Bool.and_eq_true_iff.mp hr
    constructor
    · intro hs
      refine ⟨_, _, r.toWhole hr, (Except.ok.inj hs).symm, ?_, ?_, ⟨hlo, rfl⟩, hhi, rfl⟩ <;>
        simp [Range.toWhole, Range.wholeBound, Function.comp_def]
    · rintro ⟨_, _, ⟨lo', hi', h'⟩, rfl, rfl, rfl, ⟨-, rfl⟩, -, rfl⟩
      simp [Except.map, Range.toWhole, Range.wholeBound, Function.comp_def]
  · next hr =>
    refine iff_of_false nofun ?_
    rintro ⟨_, _, _, -, -, -, ⟨hlo, -⟩, hhi, -⟩
    exact hr (Bool.and_eq_true_iff.mpr ⟨hlo, hhi⟩)

end Schema

/-- Bounds of any size are handled: with them a numeric schema is refined or there is a refusal. -/
structure BoundsHandled (ds : Declarations) (lower upper : Value) : Prop where
  /-- Whatever is not a schema with the bounds is a refusal. -/
  refused (s : Schema) (fault : ConstraintFault) :
    s.withBounds ds lower upper = .error fault → ∃ cause, fault = .definition cause
  /-- There is a range of exactly the bounds that are nothing or finite, and in order. -/
  built : (∃ c, Constraint.ofRange ds lower upper = .ok c) ↔
    lower.IsBound ∧ upper.IsBound ∧ lower.InOrder upper
  /-- A schema of numbers takes every range, with the bounds that were given. -/
  number (c : Constraint) (ranges : List Range) : Constraint.ofRange ds lower upper = .ok c →
    ∃ r : Range, (Schema.number ranges).withBounds ds lower upper =
        .ok (.number (ranges ++ [r])) ∧
      r.lower.map Bound.rational = lower.rational? ∧ r.upper.map Bound.rational = upper.rational?
  /-- A schema of integers takes a range of whole numbers, with integers for the bounds given. -/
  integer (c : Constraint) (ranges : List Range) (s : Schema) :
    Constraint.ofRange ds lower upper = .ok c →
    ((Schema.integer ranges).withBounds ds lower upper = .ok s ↔
      ∃ (lo hi : Option Int) (r : Range), s = .integer (ranges ++ [r]) ∧
        r.lower = lo.map .whole ∧ r.upper = hi.map .whole ∧
        lo.map Int.cast = lower.rational? ∧ hi.map Int.cast = upper.rational?)

namespace BoundsHandled

variable {ds : Declarations} {lower upper : Value}

theorem of_refused {cause : DefinitionError}
    (hc : Constraint.ofRange ds lower upper = .error (.definition cause))
    (hnone : ¬ (lower.IsBound ∧ upper.IsBound ∧ lower.InOrder upper)) :
    BoundsHandled ds lower upper where
  refused s fault hs := by
    rw [Schema.withBounds_of_error hc] at hs
    exact ⟨cause, (Except.error.inj hs).symm⟩
  built := by simp [hc, hnone]
  number c ranges hok := by cases hc.symm.trans hok
  integer c ranges s hok := by cases hc.symm.trans hok

theorem of_bounds {lo hi : Option Bound} (hlo : lower.Bounds lo) (hhi : upper.Bounds hi)
    {h : inOrder (fun a b : Bound => decide (a.units ≤ b.units)) lo hi = true}
    (hc : Constraint.ofRange ds lower upper = .ok (.range ⟨lo, hi, h⟩)) :
    BoundsHandled ds lower upper where
  refused s fault hs := by
    rw [Schema.withBounds_of_ok hc] at hs
    cases hr : s.refine (.range ⟨lo, hi, h⟩) with
    | ok s' => rw [hr] at hs; cases hs
    | error cause => rw [hr] at hs; exact ⟨cause, (Except.error.inj hs).symm⟩
  built :=
    iff_of_true ⟨_, hc⟩ ⟨Value.isBound_iff.mpr ⟨lo, hlo⟩, Value.isBound_iff.mpr ⟨hi, hhi⟩,
      (Value.inOrder_iff hlo hhi).mpr h⟩
  number c ranges hok := by
    refine ⟨⟨lo, hi, h⟩, ?_, hlo.rational?_eq.symm, hhi.rational?_eq.symm⟩
    rw [Schema.withBounds_of_ok hc, Schema.refine_number]
    rfl
  integer c ranges s hok := by
    rw [Schema.withBounds_of_ok hc, hlo.rational?_eq, hhi.rational?_eq]
    rw [← Schema.refine_integer_eq_ok_iff (r := ⟨lo, hi, h⟩)]
    cases (Schema.integer ranges).refine (.range ⟨lo, hi, h⟩) <;> simp [Except.mapError]

theorem not_oversized (handled : BoundsHandled ds lower upper) :
    ¬ (lower.IsOversized ∨ lower.IsBound ∧ upper.IsOversized) := by
  intro hlarge
  have hfault : (Schema.number []).withBounds ds lower upper = .error .overflow :=
    Schema.withBounds_of_error (Constraint.ofRange_of_oversized hlarge)
  obtain ⟨cause, hcause⟩ := handled.refused _ _ hfault
  cases hcause

end BoundsHandled

/-- Bounds are handled unless the first of them that is not refused is an integer beyond the
doubles. -/
theorem boundsHandled_iff (ds : Declarations) (lower upper : Value) :
    BoundsHandled ds lower upper ↔
      ¬ (lower.IsOversized ∨ lower.IsBound ∧ upper.IsOversized) := by
  refine ⟨BoundsHandled.not_oversized, fun hsmall => ?_⟩
  by_cases hbounds : lower.IsBound ∧ upper.IsBound
  · obtain ⟨hlower, hupper⟩ := not_or.mp hsmall
    obtain ⟨lo, hlo⟩ := Value.isBound_iff.mp hbounds.1
    obtain ⟨hi, hhi⟩ := Value.isBound_iff.mp hbounds.2
    have hupper : ¬ upper.IsOversized := fun h => hupper ⟨hbounds.1, h⟩
    rcases Constraint.ofRange_of_bounds hlo hhi hlower hupper with ⟨⟨h, hc⟩, -⟩ | ⟨⟨_, hc⟩, hnot⟩
    · exact .of_bounds hlo hhi hc
    · exact .of_refused hc fun h => hnot h.2.2
  · obtain ⟨cause, hc⟩ := Constraint.ofRange_of_not_isBound hsmall hbounds
    exact .of_refused hc fun h => hbounds ⟨h.1, h.2.1⟩

/-- The integer after the doubles is a finite number in order, and an overflow as a bound. -/
theorem not_boundsHandled_two_pow :
    ¬ BoundsHandled .empty (.integer ((2 ^ 1024 : Nat) : Int)) .null := by
  intro handled
  have hlarge : IsOversized ((2 ^ 1024 : Nat) : Int) := by
    rw [IsOversized, Int.natAbs_natCast]
    exact Nat.le_add_right _ _
  exact handled.not_oversized (.inl ⟨_, rfl, hlarge⟩)

end StructuredOutput

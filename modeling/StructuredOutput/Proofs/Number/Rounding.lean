import StructuredOutput.Number.Double
import Mathlib.Tactic

/-!
Rounding to the nearest double depends on the value of a fraction only, and a number that is a
double already is not changed by it.
-/

namespace StructuredOutput

theorem unitsPerOne_pos : 0 < unitsPerOne := by
  delta unitsPerOne
  generalize 1074 = n
  exact Nat.two_pow_pos n

theorem gridStep_pow_pos (units : Nat) : 0 < Nat.pow 2 (gridStep units) := Nat.two_pow_pos _

theorem roundHalfEven_mul_right (num den : Nat) {k : Nat} (hk : 0 < k) :
    roundHalfEven (num * k) (den * k) = roundHalfEven num den := by
  have hlow : 2 * (num % den * k) < den * k ↔ 2 * (num % den) < den := by
    rw [← Nat.mul_assoc]
    exact Nat.mul_lt_mul_right hk
  have hhigh : den * k < 2 * (num % den * k) ↔ den < 2 * (num % den) := by
    rw [← Nat.mul_assoc]
    exact Nat.mul_lt_mul_right hk
  simp only [roundHalfEven, Nat.mul_div_mul_right _ _ hk, Nat.mul_mod_mul_right, hlow, hhigh]

theorem roundHalfEven_mul_self (m : Nat) {den : Nat} (hden : 0 < den) :
    roundHalfEven (m * den) den = m := by
  have hdiv : m * den / den = m := Nat.mul_div_cancel m hden
  have hmod : m * den % den = 0 := Nat.mul_mod_left m den
  simp [roundHalfEven, hdiv, hmod, hden]

theorem roundUnits_mul_right (num den : Nat) {k : Nat} (hk : 0 < k) :
    roundUnits (num * k) (den * k) = roundUnits num den := by
  simp only [roundUnits, Nat.mul_div_mul_right _ _ hk]
  rw [Nat.mul_right_comm den k, roundHalfEven_mul_right _ _ hk]

/-- Equal fractions are rounded alike. -/
theorem roundUnits_eq_of_mul_eq {a b c d : Nat} (hb : 0 < b) (hd : 0 < d)
    (h : a * d = c * b) : roundUnits a b = roundUnits c d := by
  rw [← roundUnits_mul_right a b hd, h, ← roundUnits_mul_right c d hb, Nat.mul_comm d b]

/-- A number on the grid of 53-bit numbers is rounded to itself. -/
theorem roundUnits_of_onGrid {m : Nat} (h : m % Nat.pow 2 (gridStep m) = 0) :
    roundUnits m 1 = m := by
  have hstep := gridStep_pow_pos m
  obtain ⟨q, hq⟩ := Nat.dvd_of_mod_eq_zero h
  simp only [roundUnits, Nat.div_one, Nat.one_mul]
  generalize Nat.pow 2 (gridStep m) = step at hstep hq
  rw [hq, Nat.mul_comm step q, roundHalfEven_mul_self q hstep]

namespace Double

theorem units_eq_natAbs (x : Double) : x.units = x.signedUnits.natAbs := by
  unfold signedUnits
  split <;> simp

/-- The double of a whole number of units, up to the sign of zero. -/
theorem ofUnits_of_units {x : Double} (negative : Bool) {m : Nat} (h : x.units = m) :
    Floating.ofUnits negative m 1 = .finite { x with negative := negative } := by
  subst h
  have hround := roundUnits_of_onGrid x.onGrid
  have hlt : roundUnits x.units 1 < unitsLimit := lt_of_eq_of_lt hround x.bounded
  rw [Floating.ofUnits, dif_pos hlt]
  congr 1
  exact Double.mk.injEq .. ▸ ⟨rfl, hround⟩

theorem mul_two_pow_lt {m a b : Nat} (hm : m ≤ Nat.pow 2 53) (h : 53 + a < b) :
    m * Nat.pow 2 a < Nat.pow 2 b :=
  calc m * Nat.pow 2 a
      ≤ 2 ^ 53 * 2 ^ a := Nat.mul_le_mul_right _ hm
    _ = 2 ^ (53 + a) := (Nat.pow_add 2 53 a).symm
    _ < 2 ^ b := Nat.pow_lt_pow_right (by decide) h

/-- Every integer of at most 53 bits is a double. -/
theorem exists_signedUnits {n : Int} (h : n.natAbs ≤ Nat.pow 2 53) :
    ∃ x : Double, x.signedUnits = n * (unitsPerOne : Int) := by
  have hgrid : n.natAbs * unitsPerOne % Nat.pow 2 (gridStep (n.natAbs * unitsPerOne)) = 0 := by
    delta unitsPerOne
    exact onGrid_mul _ _ h
  have hbounded : n.natAbs * unitsPerOne < unitsLimit := by
    delta unitsPerOne unitsLimit
    exact mul_two_pow_lt h (by decide)
  refine ⟨⟨decide (n < 0), n.natAbs * unitsPerOne, hgrid, hbounded⟩, ?_⟩
  rw [signedUnits]
  split
  · next hneg =>
    have hn : n < 0 := of_decide_eq_true hneg
    rw [Nat.cast_mul, Int.natCast_natAbs, abs_of_neg hn, neg_mul, neg_neg]
  · next hpos =>
    have hn : 0 ≤ n := by simpa using hpos
    rw [Nat.cast_mul, Int.natCast_natAbs, abs_of_nonneg hn]

/-- An integer that a double represents is not changed by conversion to a double and back. -/
theorem exists_ofInt_of_signedUnits {x : Double} {n : Int}
    (h : x.signedUnits = n * (unitsPerOne : Int)) :
    ∃ y : Double, Floating.ofInt n = .finite y ∧ y.toInt? = some n := by
  have hunits : x.units = n.natAbs * unitsPerOne := by
    rw [units_eq_natAbs, h, Int.natAbs_mul, Int.natAbs_natCast]
  refine ⟨{ x with negative := decide (n < 0) }, ofUnits_of_units _ hunits, ?_⟩
  have hintegral : x.units % unitsPerOne = 0 := by rw [hunits, Nat.mul_mod_left]
  have htrunc : x.units / unitsPerOne = n.natAbs := by
    rw [hunits, Nat.mul_div_cancel _ unitsPerOne_pos]
  simp only [toInt?, isIntegral, hintegral, truncate, htrunc, decide_true, ↓reduceIte,
    decide_eq_true_eq, Option.some.injEq]
  split <;> omega

end Double

end StructuredOutput

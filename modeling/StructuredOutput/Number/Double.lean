/-!
Double-precision numbers, exactly: a finite one is a sign and a whole number of units of
`2 ^ -1074`, the least positive double. Rounding a fraction to the nearest double, ties to even,
is integer arithmetic on units, and so are comparison, the test for a whole number and the
conversion from and to integers. No machine arithmetic is involved.
-/

namespace StructuredOutput

/-- The number of units in one. -/
@[irreducible] def unitsPerOne : Nat := Nat.pow 2 1074

/-- Every finite magnitude is below this many units. -/
@[irreducible] def unitsLimit : Nat := Nat.pow 2 2098

theorem unitsLimit_pos : 0 < unitsLimit := by
  delta unitsLimit
  generalize 2098 = n
  exact Nat.two_pow_pos n

/-- The step, as a power of two, of the grid of 53-bit numbers at a magnitude of `units`. -/
def gridStep (units : Nat) : Nat := units.log2 - 52

/-- A finite double: `± units · 2 ^ -1074`, where `units` has at most 53 significant bits. -/
structure Double where
  negative : Bool
  units : Nat
  onGrid : units % Nat.pow 2 (gridStep units) = 0
  bounded : units < unitsLimit
  deriving DecidableEq

/-- A double as arithmetic yields it, overflow and the undefined number included. -/
inductive Floating where
  | finite (x : Double)
  | infinite (negative : Bool)
  | nan
  deriving DecidableEq

/-- `num / den` rounded to the nearest whole number, a half to the even neighbour. -/
def roundHalfEven (num den : Nat) : Nat :=
  let q := num / den
  let r := num % den
  if 2 * r < den then q
  else if den < 2 * r then q + 1
  else if q % 2 = 0 then q
  else q + 1

/-- `num / den` units rounded to 53 significant bits. -/
def roundUnits (num den : Nat) : Nat :=
  let step := Nat.pow 2 (gridStep (num / den))
  roundHalfEven num (den * step) * step

theorem roundHalfEven_le (num den : Nat) : roundHalfEven num den ≤ num / den + 1 := by
  unfold roundHalfEven
  dsimp only
  repeat' split
  all_goals omega

/-- A whole number of steps, at most `2 ^ 53` of them, lies on the grid of 53-bit numbers. -/
theorem onGrid_mul (m s : Nat) (h : m ≤ Nat.pow 2 53) :
    m * Nat.pow 2 s % Nat.pow 2 (gridStep (m * Nat.pow 2 s)) = 0 := by
  simp only [Nat.pow_eq] at h ⊢
  rcases Nat.eq_zero_or_pos m with rfl | hm
  · simp
  rcases Nat.lt_or_eq_of_le h with hlt | rfl
  · have hpos : m * 2 ^ s ≠ 0 :=
      Nat.mul_ne_zero (by omega) (Nat.pos_iff_ne_zero.1 (Nat.two_pow_pos s))
    have hlog : (m * 2 ^ s).log2 < 53 + s := by
      rw [Nat.log2_lt hpos, Nat.pow_add]
      exact Nat.mul_lt_mul_of_pos_right hlt (Nat.two_pow_pos s)
    have hstep : gridStep (m * 2 ^ s) ≤ s := by unfold gridStep; omega
    exact Nat.mod_eq_zero_of_dvd (Nat.dvd_trans (Nat.pow_dvd_pow 2 hstep) (Nat.dvd_mul_left _ _))
  · rw [← Nat.pow_add]
    have hstep : gridStep (2 ^ (53 + s)) ≤ 53 + s := by
      unfold gridStep
      rw [Nat.log2_two_pow]
      omega
    exact Nat.mod_eq_zero_of_dvd (Nat.pow_dvd_pow 2 hstep)

/-- Rounding keeps at most 53 significant bits. -/
theorem roundUnits_onGrid (num den : Nat) :
    roundUnits num den % Nat.pow 2 (gridStep (roundUnits num den)) = 0 := by
  refine onGrid_mul _ _ ?_
  refine Nat.le_trans (roundHalfEven_le _ _) ?_
  rw [← Nat.div_div_eq_div_mul]
  simp only [Nat.pow_eq]
  have h : num / den / 2 ^ gridStep (num / den) < 2 ^ 53 := by
    rw [Nat.div_lt_iff_lt_mul (Nat.two_pow_pos _), ← Nat.pow_add]
    refine Nat.lt_of_lt_of_le Nat.lt_log2_self (Nat.pow_le_pow_right (by decide) ?_)
    unfold gridStep
    omega
  omega

namespace Double

/-- Positive zero. -/
def zero : Double := ⟨false, 0, rfl, unitsLimit_pos⟩

/-- The value in units, with its sign. -/
def signedUnits (x : Double) : Int := if x.negative then -(x.units : Int) else x.units

/-- Equality of values: the two zeros are equal. -/
def sameValue (x y : Double) : Bool := x.signedUnits == y.signedUnits

/-- Whether the value is a whole number. -/
def isIntegral (x : Double) : Bool := x.units % unitsPerOne = 0

/-- The whole number of the value, its fraction cut off toward zero. -/
def truncate (x : Double) : Int :=
  let n : Int := (x.units / unitsPerOne : Nat)
  if x.negative then -n else n

/-- The value as an integer, if it is one. -/
def toInt? (x : Double) : Option Int := if x.isIntegral then some x.truncate else none

/-- Whether the magnitude is below `n`. -/
def magnitudeBelow (x : Double) (n : Nat) : Bool := x.units < n * unitsPerOne

end Double

namespace Floating

/-- The double nearest to `± num / den` units; beyond the greatest one, an infinity. -/
def ofUnits (negative : Bool) (num den : Nat) : Floating :=
  if h : roundUnits num den < unitsLimit then
    .finite ⟨negative, roundUnits num den, roundUnits_onGrid num den, h⟩
  else
    .infinite negative

/-- The double nearest to an integer. -/
def ofInt (n : Int) : Floating := ofUnits (n < 0) (n.natAbs * unitsPerOne) 1

/-- The finite value, if there is one. -/
def toDouble? : Floating → Option Double
  | .finite x => some x
  | _ => none

/-- Equality of values: the two zeros are equal, and the undefined number differs from itself. -/
def sameValue : Floating → Floating → Bool
  | .finite x, .finite y => x.sameValue y
  | .infinite a, .infinite b => a == b
  | _, _ => false

end Floating

end StructuredOutput

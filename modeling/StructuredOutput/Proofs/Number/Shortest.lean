import Mathlib.Tactic
import StructuredOutput.Number.Decimal
import StructuredOutput.Proofs.Number.Rounding

/-!
The shortest numeral of a double reads back as it, and so does every other numeral of the same
value.
-/

namespace StructuredOutput

namespace Decimal

/-- The number that a numeral stands for. -/
def value (d : Decimal) : ℚ := d.digits * (10 : ℚ) ^ d.exponent

theorem unitFraction_snd_pos (d : Decimal) : 0 < d.unitFraction.2 := Nat.pow_pos (by decide)

theorem unitFraction_fst (d : Decimal) :
    (d.unitFraction.1 : ℚ) = d.value * unitsPerOne * d.unitFraction.2 := by
  have hten : (10 : ℚ) ^ d.exponent.toNat =
      (10 : ℚ) ^ d.exponent * (10 : ℚ) ^ (-d.exponent).toNat := by
    rw [← zpow_natCast, ← zpow_natCast, ← zpow_add₀ (by norm_num)]
    congr 1
    omega
  simp only [unitFraction, value, Nat.pow_eq, Nat.cast_mul, Nat.cast_pow, Nat.cast_ofNat, hten]
  ring

/-- Numerals of the same value are rounded alike. -/
theorem roundUnits_of_value_eq {d e : Decimal} (h : d.value = e.value) :
    roundUnits d.unitFraction.1 d.unitFraction.2 = roundUnits e.unitFraction.1 e.unitFraction.2 := by
  refine roundUnits_eq_of_mul_eq d.unitFraction_snd_pos e.unitFraction_snd_pos ?_
  have hq : (d.unitFraction.1 * e.unitFraction.2 : ℚ) = e.unitFraction.1 * d.unitFraction.2 := by
    rw [unitFraction_fst, unitFraction_fst, h]
    ring
  exact_mod_cast hq

theorem readsBack_iff {d : Decimal} {units : Nat} :
    d.readsBack units = true ↔ roundUnits d.unitFraction.1 d.unitFraction.2 = units := by
  simp [readsBack]

end Decimal

/-! ### Numerals beyond the doubles -/

theorem le_roundHalfEven (num den : Nat) : num / den ≤ roundHalfEven num den := by
  unfold roundHalfEven
  dsimp only
  repeat' split
  all_goals omega

theorem two_pow_log2_le_roundUnits {num den : Nat} (h : num / den ≠ 0) :
    2 ^ (num / den).log2 ≤ roundUnits num den := by
  have hstep : gridStep (num / den) ≤ (num / den).log2 := Nat.sub_le _ _
  have hlog : 2 ^ (num / den).log2 ≤ num / den := Nat.log2_self_le h
  simp only [roundUnits, Nat.pow_eq]
  refine le_trans ?_ (Nat.mul_le_mul_right _ (le_roundHalfEven _ _))
  rw [← Nat.div_div_eq_div_mul]
  calc 2 ^ (num / den).log2
      = 2 ^ ((num / den).log2 - gridStep (num / den)) * 2 ^ gridStep (num / den) := by
        rw [← Nat.pow_add, Nat.sub_add_cancel hstep]
    _ ≤ num / den / 2 ^ gridStep (num / den) * 2 ^ gridStep (num / den) := by
        refine Nat.mul_le_mul_right _ ?_
        rw [Nat.le_div_iff_mul_le (Nat.two_pow_pos _), ← Nat.pow_add, Nat.sub_add_cancel hstep]
        exact hlog

/-- What has too many units is rounded to too many. -/
theorem unitsLimit_le_roundUnits {num den : Nat} (hden : 0 < den) (h : unitsLimit * den ≤ num) :
    unitsLimit ≤ roundUnits num den := by
  have hle : unitsLimit ≤ num / den := (Nat.le_div_iff_mul_le hden).mpr h
  have hne : num / den ≠ 0 := Nat.ne_of_gt (Nat.lt_of_lt_of_le unitsLimit_pos hle)
  refine le_trans ?_ (two_pow_log2_le_roundUnits hne)
  revert hle
  delta unitsLimit
  generalize 2098 = n
  exact fun hle => Nat.pow_le_pow_right (by decide) ((Nat.le_log2 hne).mpr hle)

/-- What is less than half a unit is rounded to zero. -/
theorem roundUnits_eq_zero {num den : Nat} (h : 2 * num < den) : roundUnits num den = 0 := by
  have hdiv : num / den = 0 := Nat.div_eq_of_lt (by omega)
  have hstep : gridStep 0 = 0 := rfl
  have hmod : num % den = num := Nat.mod_eq_of_lt (by omega)
  simp [roundUnits, roundHalfEven, hdiv, hstep, hmod, h]

namespace Decimal

theorem digitCount_le {n k : Nat} (h : n ≠ 0) (hk : 0 < k) : digitCount n ≤ k ↔ n < 10 ^ k := by
  rw [digitCount, if_neg h]
  exact Nat.length_toDigits_le_iff (by decide) hk

theorem lt_pow_digitCount {n : Nat} (h : n ≠ 0) : n < 10 ^ digitCount n := by
  have hpos : 0 < digitCount n := by
    rw [digitCount, if_neg h]
    exact Nat.length_toDigits_pos
  exact (digitCount_le h hpos).mp (Nat.le_refl _)

theorem pow_le_of_digitCount {n k : Nat} (h : n ≠ 0) (hk : k < digitCount n) : 10 ^ k ≤ n := by
  rcases Nat.eq_zero_or_pos k with rfl | hpos
  · exact Nat.one_le_iff_ne_zero.mpr h
  · exact Nat.not_lt.mp fun hlt => absurd ((digitCount_le h hpos).mpr hlt) (Nat.not_le.mpr hk)

/-- A numeral whose point is beyond `400` has more units than any double. -/
theorem unitsLimit_mul_le {d : Decimal} (hd : d.digits ≠ 0)
    (h : 400 < d.exponent + digitCount d.digits) :
    unitsLimit * d.unitFraction.2 ≤ d.unitFraction.1 := by
  obtain ⟨bound, hbound, hlimit⟩ : ∃ n, n = 400 ∧ unitsLimit ≤ 10 ^ n * unitsPerOne := by
    delta unitsLimit unitsPerOne
    exact ⟨400, rfl, by decide +kernel⟩
  have hpos : 0 < digitCount d.digits := by
    rw [digitCount, if_neg hd]
    exact Nat.length_toDigits_pos
  have hpow := pow_le_of_digitCount hd (Nat.sub_lt hpos Nat.one_pos)
  have hexponent : bound + (-d.exponent).toNat ≤ digitCount d.digits - 1 + d.exponent.toNat := by
    omega
  simp only [unitFraction, Nat.pow_eq]
  calc unitsLimit * 10 ^ (-d.exponent).toNat
      ≤ 10 ^ bound * unitsPerOne * 10 ^ (-d.exponent).toNat := Nat.mul_le_mul_right _ hlimit
    _ = 10 ^ (bound + (-d.exponent).toNat) * unitsPerOne := by rw [Nat.pow_add]; ring
    _ ≤ 10 ^ (digitCount d.digits - 1 + d.exponent.toNat) * unitsPerOne :=
        Nat.mul_le_mul_right _ (Nat.pow_le_pow_right (by decide) hexponent)
    _ = 10 ^ (digitCount d.digits - 1) * 10 ^ d.exponent.toNat * unitsPerOne := by
        rw [Nat.pow_add]
    _ ≤ d.digits * 10 ^ d.exponent.toNat * unitsPerOne :=
        Nat.mul_le_mul_right _ (Nat.mul_le_mul_right _ hpow)

/-- A numeral whose point is before `-400` is less than half a unit. -/
theorem two_mul_lt {d : Decimal} (hd : d.digits ≠ 0)
    (h : d.exponent + digitCount d.digits < -400) :
    2 * d.unitFraction.1 < d.unitFraction.2 := by
  obtain ⟨bound, hbound, hunits⟩ : ∃ n, n = 400 ∧ 2 * unitsPerOne ≤ 10 ^ n := by
    delta unitsPerOne
    exact ⟨400, rfl, by decide +kernel⟩
  have hexponent : digitCount d.digits + bound ≤ (-d.exponent).toNat := by omega
  have hzero : d.exponent.toNat = 0 := by omega
  simp only [unitFraction, Nat.pow_eq, hzero, Nat.pow_zero, Nat.mul_one]
  calc 2 * (d.digits * unitsPerOne)
      = d.digits * (2 * unitsPerOne) := by ring
    _ < 10 ^ digitCount d.digits * (2 * unitsPerOne) :=
        Nat.mul_lt_mul_of_pos_right (lt_pow_digitCount hd) (Nat.mul_pos (by decide) unitsPerOne_pos)
    _ ≤ 10 ^ digitCount d.digits * 10 ^ bound := Nat.mul_le_mul_left _ hunits
    _ = 10 ^ (digitCount d.digits + bound) := (Nat.pow_add ..).symm
    _ ≤ 10 ^ (-d.exponent).toNat := Nat.pow_le_pow_right (by decide) hexponent

/-- A numeral that reads back as a double is read as it, with the sign in front. -/
theorem toFloating_of_readsBack {d : Decimal} {x : Double} (h : d.readsBack x.units = true)
    (negative : Bool) : d.toFloating negative = .finite { x with negative := negative } := by
  rw [readsBack_iff] at h
  have hzero (hx : x.units = 0) :
      Floating.finite { Double.zero with negative := negative } =
        .finite { x with negative := negative } := by
    congr 1
    exact Double.mk.injEq .. ▸ ⟨rfl, hx.symm⟩
  rw [toFloating]
  dsimp only
  by_cases hdigits : d.digits = 0
  · rw [if_pos (.inl hdigits)]
    refine hzero (h.symm.trans (roundUnits_eq_zero ?_))
    have hfst : d.unitFraction.1 = 0 := by simp [unitFraction, hdigits]
    rw [hfst]
    exact d.unitFraction_snd_pos
  by_cases hsmall : d.exponent + digitCount d.digits < -400
  · rw [if_pos (.inr hsmall)]
    exact hzero (h.symm.trans (roundUnits_eq_zero (two_mul_lt hdigits hsmall)))
  rw [if_neg (not_or.mpr ⟨hdigits, hsmall⟩)]
  by_cases hlarge : 400 < d.exponent + digitCount d.digits
  · have hle := unitsLimit_le_roundUnits d.unitFraction_snd_pos (unitsLimit_mul_le hdigits hlarge)
    rw [h] at hle
    exact absurd x.bounded (Nat.not_lt.mpr hle)
  · rw [if_neg hlarge]
    have hlt : roundUnits d.unitFraction.1 d.unitFraction.2 < unitsLimit := h ▸ x.bounded
    rw [Floating.ofUnits, dif_pos hlt]
    congr 1
    exact Double.mk.injEq .. ▸ ⟨rfl, h⟩

end Decimal

namespace Double

theorem exists_unitsPerOne_eq : ∃ n, n = 1074 ∧ unitsPerOne = Nat.pow 2 n := by
  delta unitsPerOne
  exact ⟨_, rfl, rfl⟩

theorem exactDecimal_readsBack (x : Double) : (exactDecimal x.units).readsBack x.units = true := by
  obtain ⟨n, hn, hunits⟩ := exists_unitsPerOne_eq
  have hexact : exactDecimal x.units = ⟨x.units * Nat.pow 5 n, -n⟩ := by
    rw [hn]
    rfl
  have hten : 0 < 10 ^ n := Nat.pow_pos (by decide)
  have hpow : 5 ^ n * 2 ^ n = 10 ^ n := (Nat.mul_pow 5 2 n).symm
  have hround := roundUnits_mul_right x.units 1 hten
  rw [Nat.one_mul, roundUnits_of_onGrid x.onGrid] at hround
  rw [Decimal.readsBack_iff, hexact]
  simpa [Decimal.unitFraction, hunits, Nat.mul_assoc, hpow] using hround

theorem readsBack_of_fewestDigits {units : Nat} {leading : Int} {d : Decimal}
    (h : fewestDigits? units leading = some d) : d.readsBack units = true := by
  obtain ⟨n, -, hn⟩ := List.exists_of_findSome?_eq_some h
  exact List.find?_some (p := fun e : Decimal => e.readsBack units) hn

/-- The shortest numeral of a double reads back as it. -/
theorem shortest_readsBack (x : Double) : x.shortest.readsBack x.units = true := by
  rw [shortest]
  split
  · next hzero =>
    have hfst : (Decimal.mk 0 0).unitFraction.1 = 0 := by simp [Decimal.unitFraction]
    rw [hzero, Decimal.readsBack_iff, hfst]
    exact roundUnits_eq_zero (Decimal.unitFraction_snd_pos _)
  · cases hfewest : fewestDigits? x.units (leadingExponent x.units) with
    | some d => exact readsBack_of_fewestDigits hfewest
    | none => exact x.exactDecimal_readsBack

end Double

end StructuredOutput

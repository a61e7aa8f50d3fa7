import StructuredOutput.Proofs.Number.Shortest

/-!
Integers beyond the doubles. The greatest double is `2 ^ 1024 - 2 ^ 971`, and half a step above it,
where a tie goes to the even neighbour, rounding to the nearest double leaves the range.
-/

namespace StructuredOutput

/-- Rounding goes no further than an odd number as long as the fraction is less than half above it. -/
theorem roundHalfEven_le_iff {num den q : Nat} (hden : 0 < den) (hq : q % 2 = 1) :
    roundHalfEven num den ≤ q ↔ 2 * num < (2 * q + 1) * den := by
  have hnum : den * (num / den) + num % den = num := Nat.div_add_mod num den
  have hrest : num % den < den := Nat.mod_lt num hden
  unfold roundHalfEven
  dsimp only
  generalize num / den = k at *
  generalize num % den = r at *
  subst hnum
  rcases Nat.lt_trichotomy k q with hlt | rfl | hgt
  · have hmul : den * (k + 1) ≤ den * q := Nat.mul_le_mul_left den hlt
    have hsmall : 2 * (den * k + r) < (2 * q + 1) * den := by nlinarith
    simp only [hsmall, iff_true]
    split_ifs <;> omega
  · have hhalf : 2 * (den * k + r) < (2 * k + 1) * den ↔ 2 * r < den := by
      constructor <;> intro h <;> nlinarith
    rw [hhalf]
    split_ifs <;> omega
  · have hmul : den * (q + 1) ≤ den * k := Nat.mul_le_mul_left den hgt
    have hlarge : ¬ 2 * (den * k + r) < (2 * q + 1) * den := by nlinarith
    simp only [hlarge, iff_false]
    split_ifs <;> omega

/-- Rounding to 53 bits goes no further than the next power of two. -/
theorem roundUnits_le_two_pow {m k : Nat} (h : m < 2 ^ (53 + k)) : roundUnits m 1 ≤ 2 ^ (53 + k) := by
  have hstep : gridStep m ≤ k := by
    rcases Nat.eq_zero_or_pos m with rfl | hpos
    · exact Nat.zero_le k
    · have hlog : m.log2 < 53 + k := (Nat.log2_lt (Nat.ne_of_gt hpos)).mpr h
      unfold gridStep
      omega
  have hquotient : m / 2 ^ gridStep m < 2 ^ 53 := by
    rw [Nat.div_lt_iff_lt_mul (Nat.two_pow_pos _), ← Nat.pow_add]
    refine Nat.lt_of_lt_of_le Nat.lt_log2_self (Nat.pow_le_pow_right (by decide) ?_)
    unfold gridStep
    omega
  simp only [roundUnits, Nat.div_one, Nat.one_mul, Nat.pow_eq]
  calc roundHalfEven m (2 ^ gridStep m) * 2 ^ gridStep m
      ≤ 2 ^ 53 * 2 ^ gridStep m :=
        Nat.mul_le_mul_right _ (Nat.le_trans (roundHalfEven_le _ _) hquotient)
    _ ≤ 2 ^ 53 * 2 ^ k := Nat.mul_le_mul_left _ (Nat.pow_le_pow_right (by decide) hstep)
    _ = 2 ^ (53 + k) := (Nat.pow_add 2 53 k).symm

theorem log2_mul_two_pow {m : Nat} (hm : m ≠ 0) (a : Nat) : (m * 2 ^ a).log2 = m.log2 + a := by
  have hne : m * 2 ^ a ≠ 0 := Nat.mul_ne_zero hm (Nat.ne_of_gt (Nat.two_pow_pos a))
  obtain ⟨hle, hlt⟩ := (Nat.log2_eq_iff hm).mp rfl
  rw [Nat.log2_eq_iff hne, Nat.pow_add, Nat.add_right_comm, Nat.pow_add 2 (m.log2 + 1) a]
  exact ⟨Nat.mul_le_mul_right _ hle, Nat.mul_lt_mul_of_pos_right hlt (Nat.two_pow_pos a)⟩

/-- Rounding to 53 bits does not depend on the scale. -/
theorem roundUnits_mul_two_pow (m a : Nat) :
    roundUnits (m * 2 ^ a) 1 = roundUnits m 1 * 2 ^ a := by
  by_cases hm : m ≤ Nat.pow 2 53
  · have hgrid : m * 2 ^ a % Nat.pow 2 (gridStep (m * 2 ^ a)) = 0 := onGrid_mul m a hm
    have hself : m % Nat.pow 2 (gridStep m) = 0 := by simpa using onGrid_mul m 0 hm
    rw [roundUnits_of_onGrid hgrid, roundUnits_of_onGrid hself]
  · have hpos : 0 < Nat.pow 2 53 := Nat.two_pow_pos 53
    have hne : m ≠ 0 := by omega
    have hlog : 53 ≤ m.log2 := (Nat.le_log2 hne).mpr (Nat.le_of_not_le hm)
    have hstep : gridStep (m * 2 ^ a) = gridStep m + a := by
      unfold gridStep
      rw [log2_mul_two_pow hne]
      omega
    simp only [roundUnits, Nat.div_one, Nat.one_mul, Nat.pow_eq, hstep]
    rw [Nat.pow_add 2 (gridStep m) a, roundHalfEven_mul_right _ _ (Nat.two_pow_pos a),
      Nat.mul_assoc]

/-- Rounding to 53 bits stays below a power of two as long as the number is more than half a step
below it. -/
theorem roundUnits_lt_iff (m j : Nat) :
    roundUnits m 1 < 2 ^ (54 + j) ↔ m + 2 ^ j < 2 ^ (54 + j) := by
  have hpow : 2 ^ (54 + j) = 2 ^ 53 * 2 ^ (j + 1) := by
    rw [← Nat.pow_add]
    congr 1
    omega
  have hdouble : 2 ^ (j + 1) = 2 * 2 ^ j := Nat.pow_succ'
  rcases Nat.lt_or_ge m (2 ^ (53 + j)) with hsmall | hlow
  · have hround : roundUnits m 1 < 2 ^ (54 + j) :=
      Nat.lt_of_le_of_lt (roundUnits_le_two_pow hsmall)
        (Nat.pow_lt_pow_right (by decide) (by omega))
    have hhalf : 2 ^ (53 + j) = 2 ^ 53 * 2 ^ j := Nat.pow_add 2 53 j
    have hpos : 0 < 2 ^ j := Nat.two_pow_pos j
    simp only [hround, true_iff]
    omega
  have hne : m ≠ 0 := Nat.ne_of_gt (Nat.lt_of_lt_of_le (Nat.two_pow_pos _) hlow)
  rcases Nat.lt_or_ge m (2 ^ (54 + j)) with hhigh | hlarge
  · -- The step is `2 ^ (j + 1)`, and the last number of steps below the power is odd.
    have hlog : m.log2 = 53 + j := (Nat.log2_eq_iff hne).mpr ⟨hlow, by
      rwa [Nat.add_right_comm]⟩
    have hround : roundUnits m 1 = roundHalfEven m (2 ^ (j + 1)) * 2 ^ (j + 1) := by
      have hstep : gridStep m = j + 1 := by
        unfold gridStep
        omega
      simp only [roundUnits, Nat.div_one, Nat.one_mul, Nat.pow_eq, hstep]
    have hlast : roundHalfEven m (2 ^ (j + 1)) ≤ 2 ^ 53 - 1 ↔
        2 * m < (2 * (2 ^ 53 - 1) + 1) * 2 ^ (j + 1) :=
      roundHalfEven_le_iff (Nat.two_pow_pos (j + 1)) (by decide)
    rw [hround, hpow, Nat.mul_lt_mul_right (Nat.two_pow_pos _), ← Nat.le_sub_one_iff_lt (by decide),
      hlast]
    omega
  · have hlog : 54 + j ≤ m.log2 := (Nat.le_log2 hne).mpr hlarge
    have hquotient : m / 1 ≠ 0 := by rwa [Nat.div_one]
    have hround : 2 ^ (m / 1).log2 ≤ roundUnits m 1 := two_pow_log2_le_roundUnits hquotient
    rw [Nat.div_one] at hround
    have hle : 2 ^ (54 + j) ≤ roundUnits m 1 :=
      Nat.le_trans (Nat.pow_le_pow_right (by decide) hlog) hround
    omega

/-! ### Integers -/

/-- Whether an integer is beyond the doubles: it is at least half a step above the greatest one. -/
def IsOversized (n : Int) : Prop := 2 ^ 1024 ≤ n.natAbs + 2 ^ 970

theorem exists_unitsLimit_eq : ∃ n, n = 2098 ∧ unitsLimit = Nat.pow 2 n := by
  delta unitsLimit
  exact ⟨_, rfl, rfl⟩

theorem roundUnits_lt_unitsLimit_iff (m : Nat) :
    roundUnits (m * unitsPerOne) 1 < unitsLimit ↔ m + 2 ^ 970 < 2 ^ 1024 := by
  obtain ⟨a, ha, hunits⟩ := Double.exists_unitsPerOne_eq
  obtain ⟨limit, hlimit, hpow⟩ := exists_unitsLimit_eq
  obtain ⟨j, hj⟩ : ∃ j, j = 970 := ⟨_, rfl⟩
  have hbits : 1024 = 54 + j := by omega
  have hexponent : limit = 54 + j + a := by omega
  rw [← hj, hbits, ← roundUnits_lt_iff, hunits, hpow, hexponent]
  simp only [Nat.pow_eq]
  rw [roundUnits_mul_two_pow, Nat.pow_add 2 (54 + j) a, Nat.mul_lt_mul_right (Nat.two_pow_pos a)]

/-- There is a finite double nearest to an integer just if the integer is not beyond the doubles. -/
theorem ofInt_eq_finite_iff {n : Int} :
    (∃ x, Floating.ofInt n = .finite x) ↔ ¬ IsOversized n := by
  rw [IsOversized, Nat.not_le, ← roundUnits_lt_unitsLimit_iff]
  unfold Floating.ofInt Floating.ofUnits
  split
  · next hlt => simp [hlt]
  · next hge => simp [hge]

end StructuredOutput

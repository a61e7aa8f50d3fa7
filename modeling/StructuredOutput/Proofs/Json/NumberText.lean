import Mathlib.Tactic
import StructuredOutput.Number.Layout
import StructuredOutput.Proofs.Json.Written
import StructuredOutput.Proofs.Number.Shortest

/-!
The text of a double is that of a numeral, and the numeral reads back as the double.
-/

namespace StructuredOutput

open Text

/-! ### Digits -/

theorem foldl_asciiDigits {ds : List Char} (h : ∀ c ∈ ds, c.isDigit = true) (init : Nat) :
    (ds.filterMap asciiDigit?).foldl (fun n d => 10 * n + d) init = Nat.ofDigitChars 10 ds init := by
  induction ds generalizing init with
  | nil => simp
  | cons c ds ih =>
    have hc : asciiDigit? c = some (c.toNat - '0'.toNat) := by
      have hdigit : '0' ≤ c ∧ c ≤ '9' := by
        have hc := h c List.mem_cons_self
        simp only [Char.isDigit, Bool.and_eq_true, decide_eq_true_eq] at hc
        exact hc
      rw [asciiDigit?, if_pos hdigit]
      rfl
    rw [List.filterMap_cons_some hc, List.foldl_cons, Nat.ofDigitChars_cons]
    exact ih (fun d hd => h d (List.mem_cons_of_mem c hd)) _

theorem ofDigits_asciiDigits {ds : List Char} (h : ∀ c ∈ ds, c.isDigit = true) :
    ofDigits (ds.filterMap asciiDigit?) = Nat.ofDigitChars 10 ds 0 :=
  foldl_asciiDigits h 0

theorem isDigit_of_mem_decimal {n : Nat} {c : Char} (h : c ∈ decimal n) : c.isDigit = true :=
  Nat.isDigit_of_mem_toDigits (by decide) (by decide) h

theorem isDigit_of_mem_zeros {n : Nat} {c : Char} (h : c ∈ List.replicate n '0') :
    c.isDigit = true := by
  rw [List.eq_of_mem_replicate h]
  rfl

theorem isDigit_of_mem_append {ds es : List Char} (hds : ∀ c ∈ ds, c.isDigit = true)
    (hes : ∀ c ∈ es, c.isDigit = true) : ∀ c ∈ ds ++ es, c.isDigit = true := by
  intro c hc
  rcases List.mem_append.mp hc with hc | hc
  · exact hds c hc
  · exact hes c hc

/-- The digits of a number do not begin with a zero unless it is zero. -/
theorem head?_decimal {n : Nat} (h : n ≠ 0) : (decimal n).head? ≠ some '0' := by
  induction n using Nat.strong_induction_on with
  | _ n ih =>
    rw [decimal, Nat.toDigits_eq_if (by decide)]
    split
    · next hlt =>
      have hall : ∀ m < 10, m ≠ 0 → [Nat.digitChar m].head? ≠ some '0' := by decide
      exact hall n hlt h
    · next hle =>
      have hdiv : n / 10 < n := Nat.div_lt_self (by omega) (by decide)
      have hne : Nat.toDigits 10 (n / 10) ≠ [] := Nat.toDigits_ne_nil
      rw [List.head?_append_of_ne_nil _ hne]
      exact ih (n / 10) hdiv (by omega)

theorem isDigit_of_mem_zeroPadded {width n : Nat} {c : Char} (h : c ∈ zeroPadded width n) :
    c.isDigit = true :=
  isDigit_of_mem_append (fun _ => isDigit_of_mem_zeros) (fun _ => isDigit_of_mem_decimal) c h

theorem ofDigitChars_decimal (n : Nat) : Nat.ofDigitChars 10 (decimal n) 0 = n :=
  Nat.ofDigitChars_ten_toDigits

theorem ofDigitChars_zeroPadded (width n : Nat) :
    Nat.ofDigitChars 10 (zeroPadded width n) 0 = n := by
  rw [zeroPadded, Nat.ofDigitChars_append, Nat.ofDigitChars_replicate_zero, Nat.mul_zero]
  exact ofDigitChars_decimal n

namespace Decimal

/-- Zeros at the end of the digits count as powers of ten. -/
theorem value_mul_pow (m k : Nat) (e : Int) :
    (Decimal.mk (m * 10 ^ k) e).value = (Decimal.mk m (e + k)).value := by
  rw [value, value, zpow_add₀ (by norm_num), zpow_natCast, Nat.cast_mul, Nat.cast_pow,
    Nat.cast_ofNat]
  ring

end Decimal

namespace Json

/-! ### Numerals -/

/-- The digits of a numeral before and after its point. -/
def Numeral.digits (n : Numeral) : List Char := n.whole ++ n.fraction

/-- The number of a numeral with a fraction or a power of ten. -/
theorem Numeral.json_real {n : Numeral} (h : n.fraction ≠ [] ∨ n.power ≠ none) :
    n.json = .real (Decimal.toFloating ⟨Nat.ofDigitChars 10 n.digits 0,
      (n.power.map Power.value).getD 0 - n.fraction.length⟩ n.negative) := by
  have hdigits : ofDigits ((n.whole ++ n.fraction).filterMap asciiDigit?) =
      Nat.ofDigitChars 10 n.digits 0 :=
    ofDigits_asciiDigits (isDigit_of_mem_append n.whole_digits n.fraction_digits)
  unfold Numeral.json
  split
  · next hfraction hpower => exact absurd h (by simp [hfraction, hpower])
  · dsimp only
    rw [hdigits]

/-- The power of ten that a layout writes. -/
def powerOf (e : Int) : Power where
  mark := 'e'
  sign := some (decide (e < 0))
  digits := zeroPadded 2 e.natAbs
  mark_ok := .inl rfl
  digits_ne := by
    rw [zeroPadded]
    exact List.append_ne_nil_of_right_ne_nil _ Nat.toDigits_ne_nil
  digits_ok := fun _ => isDigit_of_mem_zeroPadded

theorem text_powerOf (e : Int) : (powerOf e).text = plainLayout.power 'e' e := by
  rw [Power.text, powerOf, NumberLayout.power]
  by_cases h : e < 0 <;> simp [h, Power.signText, plainLayout]

theorem value_powerOf (e : Int) : (powerOf e).value = e := by
  have hdigits : ofDigits ((zeroPadded 2 e.natAbs).filterMap asciiDigit?) = e.natAbs := by
    rw [ofDigits_asciiDigits fun _ => isDigit_of_mem_zeroPadded, ofDigitChars_zeroPadded]
  rw [Power.value]
  simp only [powerOf, hdigits, Option.some.injEq, decide_eq_true_eq]
  split <;> omega

/-- A numeral is written as digits at a place, and has their value. -/
structure Placed (negative : Bool) (ds : List Char) (e : Int) (n : Numeral) : Prop where
  text : n.text = (if negative then ['-'] else []) ++ plainLayout.place ds e
  json : ∃ d : Decimal, n.json = .real (d.toFloating negative) ∧
    d.value = (Decimal.mk (Nat.ofDigitChars 10 ds 0) (e + 1 - ds.length)).value

variable {ds : List Char} {e : Int}

/-- Digits after the point, with zeros between. -/
theorem exists_placed_fraction (negative : Bool) (hdigits : ∀ c ∈ ds, c.isDigit = true)
    (hne : ds ≠ []) (hfrom : -4 ≤ e) (hneg : e < 0) : ∃ n, Placed negative ds e n := by
  obtain ⟨k, hk⟩ : ∃ k : Nat, e = -1 - k := ⟨(-e).toNat - 1, by omega⟩
  have hzeros : (-e).toNat - 1 = k := by omega
  let n : Numeral := {
    negative
    whole := ['0']
    fraction := List.replicate k '0' ++ ds
    power := none
    whole_ok := .inl rfl
    whole_digits := fun c => isDigit_of_mem_zeros (n := 1)
    fraction_digits := isDigit_of_mem_append (fun _ => isDigit_of_mem_zeros) hdigits
    short := fun h => absurd h (List.append_ne_nil_of_right_ne_nil _ hne) }
  have hfraction : n.fraction ≠ [] := List.append_ne_nil_of_right_ne_nil _ hne
  refine ⟨n, ?_, _, n.json_real (.inl hfraction), ?_⟩
  · obtain ⟨c, cs, hcons⟩ := List.exists_cons_of_ne_nil hfraction
    have hplace : plainLayout.place ds e = '0' :: '.' :: List.replicate k '0' ++ ds := by
      rw [NumberLayout.place.eq_def, if_pos ⟨hfrom, Int.lt_trans hneg (by decide)⟩, if_pos hneg,
        hzeros]
    rw [Numeral.text, Numeral.fractionText, hcons, hplace]
    dsimp only
    rw [← hcons]
    simp [n, Numeral.powerText]
  · have hvalue : Nat.ofDigitChars 10 n.digits 0 = Nat.ofDigitChars 10 ds 0 := by
      simp [n, Numeral.digits, Nat.ofDigitChars_cons, Nat.ofDigitChars_append]
    have hlength : (n.fraction.length : Int) = k + ds.length := by simp [n]
    rw [hvalue, hlength]
    congr 2
    simp only [n, Option.map_none, Option.getD_none]
    omega

/-- Digits of a whole number, filled up with zeros. -/
theorem exists_placed_whole (negative : Bool) (hdigits : ∀ c ∈ ds, c.isDigit = true)
    (hne : ds ≠ []) (hhead : ds = ['0'] ∧ e = 0 ∨ ds.head? ≠ some '0') (hpos : 0 ≤ e)
    (hbelow : e < 16) (hlength : ds.length ≤ e.toNat + 1) : ∃ n, Placed negative ds e n := by
  obtain ⟨k, hk⟩ : ∃ k, e.toNat + 1 = ds.length + k := ⟨e.toNat + 1 - ds.length, by omega⟩
  have hzeros : e.toNat + 1 - ds.length = k := by omega
  let n : Numeral := {
    negative
    whole := ds ++ List.replicate k '0'
    fraction := ['0']
    power := none
    whole_ok := by
      rcases hhead with ⟨rfl, rfl⟩ | hhead
      · obtain rfl : k = 0 := by simpa using hk
        exact .inl rfl
      · rw [List.head?_append_of_ne_nil _ hne]
        exact .inr ⟨hhead, List.append_ne_nil_of_left_ne_nil hne _⟩
    whole_digits := isDigit_of_mem_append hdigits fun _ => isDigit_of_mem_zeros
    fraction_digits := fun c => isDigit_of_mem_zeros (n := 1)
    short := fun h => absurd h (List.cons_ne_nil _ _) }
  refine ⟨n, ?_, _, n.json_real (.inl (List.cons_ne_nil _ _)), ?_⟩
  · have hplace : plainLayout.place ds e = ds ++ List.replicate k '0' ++ ['.', '0'] := by
      rw [NumberLayout.place.eq_def, if_pos ⟨Int.le_trans (by decide) hpos, hbelow⟩,
        if_neg (Int.not_lt.mpr hpos)]
      dsimp only
      rw [List.drop_of_length_le hlength, List.take_of_length_le hlength, hzeros]
      rfl
    rw [hplace]
    simp [n, Numeral.text, Numeral.fractionText, Numeral.powerText]
  · have hvalue : Nat.ofDigitChars 10 n.digits 0 = Nat.ofDigitChars 10 ds 0 * 10 ^ (k + 1) := by
      have hsplit : n.digits = ds ++ List.replicate (k + 1) '0' := by
        simp [n, Numeral.digits, List.replicate_succ']
      rw [hsplit, Nat.ofDigitChars_append, Nat.ofDigitChars_replicate_zero, Nat.mul_comm]
    rw [hvalue, Decimal.value_mul_pow]
    congr 2
    simp only [n, Option.map_none, Option.getD_none, List.length_singleton]
    omega

/-- Digits on both sides of the point. -/
theorem exists_placed_point (negative : Bool) (hdigits : ∀ c ∈ ds, c.isDigit = true)
    (hhead : ds = ['0'] ∧ e = 0 ∨ ds.head? ≠ some '0') (hpos : 0 ≤ e)
    (hbelow : e < 16) (hlength : e.toNat + 1 < ds.length) : ∃ n, Placed negative ds e n := by
  have hback : ds.drop (e.toNat + 1) ≠ [] := by
    rw [Ne, List.drop_eq_nil_iff, not_le]
    exact hlength
  let n : Numeral := {
    negative
    whole := ds.take (e.toNat + 1)
    fraction := ds.drop (e.toNat + 1)
    power := none
    whole_ok := by
      rcases hhead with ⟨rfl, rfl⟩ | hhead
      · exact absurd hlength (by decide)
      · refine .inr ⟨by rwa [List.head?_take, if_neg (Nat.succ_ne_zero _)], ?_⟩
        rw [Ne, List.take_eq_nil_iff]
        rintro (h | rfl)
        · omega
        · cases hlength
    whole_digits := fun c hc => hdigits c (List.mem_of_mem_take hc)
    fraction_digits := fun c hc => hdigits c (List.mem_of_mem_drop hc)
    short := fun h => absurd h hback }
  have hsplit : n.digits = ds := List.take_append_drop _ _
  refine ⟨n, ?_, _, n.json_real (.inl hback), ?_⟩
  · obtain ⟨c, cs, hcons⟩ := List.exists_cons_of_ne_nil hback
    have hplace : plainLayout.place ds e = ds.take (e.toNat + 1) ++ '.' :: c :: cs := by
      rw [NumberLayout.place.eq_def, if_pos ⟨Int.le_trans (by decide) hpos, hbelow⟩,
        if_neg (Int.not_lt.mpr hpos)]
      dsimp only
      rw [hcons, Nat.sub_eq_zero_of_le (Nat.le_of_lt hlength)]
      simp
    rw [hplace]
    simp [n, Numeral.text, Numeral.fractionText, Numeral.powerText, hcons]
  · rw [hsplit]
    congr 2
    simp only [n, Option.map_none, Option.getD_none, List.length_drop]
    omega

/-- Digits with a power of ten. -/
theorem exists_placed_power (negative : Bool) (hdigits : ∀ c ∈ ds, c.isDigit = true)
    (hne : ds ≠ []) (hhead : ds.head? ≠ some '0') (hfar : ¬(-4 ≤ e ∧ e < 16)) :
    ∃ n, Placed negative ds e n := by
  obtain ⟨d, more, rfl⟩ := List.exists_cons_of_ne_nil hne
  let n : Numeral := {
    negative
    whole := [d]
    fraction := more
    power := some (powerOf e)
    whole_ok := .inr ⟨hhead, List.cons_ne_nil _ _⟩
    whole_digits := fun c hc => hdigits c (List.mem_cons.mpr (.inl (List.mem_singleton.mp hc)))
    fraction_digits := fun c hc => hdigits c (List.mem_cons_of_mem d hc)
    short := fun _ h => absurd h (Option.some_ne_none _) }
  refine ⟨n, ?_, _, n.json_real (.inr (Option.some_ne_none _)), ?_⟩
  · have htext : n.text = (if negative then ['-'] else []) ++
        ([d] ++ (n.fractionText ++ plainLayout.power 'e' e)) := by
      rw [← text_powerOf]
      rfl
    have hplace : plainLayout.place (d :: more) e =
        [d] ++ (n.fractionText ++ plainLayout.power 'e' e) := by
      rw [NumberLayout.place.eq_def]
      refine (if_neg hfar).trans ?_
      cases more <;> simp [n, Numeral.fractionText]
    rw [htext, hplace]
  · congr 2
    simp only [n, Option.map_some, Option.getD_some, value_powerOf, List.length_cons]
    omega

theorem exists_placed (negative : Bool) (hdigits : ∀ c ∈ ds, c.isDigit = true) (hne : ds ≠ [])
    (hhead : ds = ['0'] ∧ e = 0 ∨ ds.head? ≠ some '0') : ∃ n, Placed negative ds e n := by
  by_cases hnear : -4 ≤ e ∧ e < 16
  · by_cases hneg : e < 0
    · exact exists_placed_fraction negative hdigits hne hnear.1 hneg
    have hpos := Int.not_lt.mp hneg
    by_cases hlength : ds.length ≤ e.toNat + 1
    · exact exists_placed_whole negative hdigits hne hhead hpos hnear.2 hlength
    · exact exists_placed_point negative hdigits hhead hpos hnear.2 (Nat.not_le.mp hlength)
  · refine exists_placed_power negative hdigits hne ?_ hnear
    rcases hhead with ⟨-, rfl⟩ | hhead
    · exact absurd ⟨by decide, by decide⟩ hnear
    · exact hhead

theorem exists_numeral_of_decimal (negative : Bool) (s : Decimal) :
    ∃ (n : Numeral) (d : Decimal),
      n.text = (if negative then ['-'] else []) ++ plainLayout.decimalText s ∧
        n.json = .real (d.toFloating negative) ∧ d.value = s.value := by
  let e : Int := if s.digits = 0 then 0 else (decimal s.digits).length - 1 + s.exponent
  have hhead : decimal s.digits = ['0'] ∧ e = 0 ∨ (decimal s.digits).head? ≠ some '0' := by
    by_cases h : s.digits = 0
    · rw [h]
      exact .inl ⟨rfl, if_pos h⟩
    · exact .inr (head?_decimal h)
  obtain ⟨n, htext, d, hjson, hvalue⟩ :=
    exists_placed negative (fun _ => isDigit_of_mem_decimal) Nat.toDigits_ne_nil hhead
  refine ⟨n, d, htext, hjson, ?_⟩
  rw [hvalue, ofDigitChars_decimal]
  unfold e
  by_cases h : s.digits = 0
  · simp [Decimal.value, h]
  · rw [if_neg h]
    congr 2
    omega

/-- The text of a double is that of a numeral that is read as the double. -/
theorem exists_numeral_of_double (x : Double) :
    ∃ n : Numeral, n.text = plainLayout.doubleText x ∧ n.json = .real (.finite x) := by
  obtain ⟨n, d, htext, hjson, hvalue⟩ := exists_numeral_of_decimal x.negative x.shortest
  refine ⟨n, htext, ?_⟩
  have hreads : d.readsBack x.units = true := by
    rw [Decimal.readsBack_iff, Decimal.roundUnits_of_value_eq hvalue, ← Decimal.readsBack_iff]
    exact x.shortest_readsBack
  rw [hjson, Decimal.toFloating_of_readsBack hreads]

/-- The text of an integer is that of a numeral without fraction and power of ten. -/
theorem exists_numeral_of_integer {m : Int} (h : m.natAbs < 10 ^ integerLimit) :
    ∃ n : Numeral, n.text = integerText m ∧ n.json = .integer m := by
  let n : Numeral := {
    negative := decide (m < 0)
    whole := decimal m.natAbs
    fraction := []
    power := none
    whole_ok := by
      by_cases hm : m.natAbs = 0
      · rw [hm]
        exact .inl rfl
      · exact .inr ⟨head?_decimal hm, Nat.toDigits_ne_nil⟩
    whole_digits := fun _ => isDigit_of_mem_decimal
    fraction_digits := fun _ h => absurd h List.not_mem_nil
    short := fun _ _ => (Nat.length_toDigits_le_iff (by decide) (by decide)).mpr h }
  have hdigits : ofDigits ((decimal m.natAbs).filterMap asciiDigit?) = m.natAbs := by
    rw [ofDigits_asciiDigits fun _ => isDigit_of_mem_decimal, ofDigitChars_decimal]
  refine ⟨n, ?_, ?_⟩
  · rw [integerText]
    by_cases hm : m < 0 <;> simp [n, hm, Numeral.text, Numeral.fractionText, Numeral.powerText]
  · simp only [Numeral.json, n, hdigits, decide_eq_true_eq]
    congr 1
    split <;> omega

end Json

end StructuredOutput

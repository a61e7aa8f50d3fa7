import StructuredOutput.Content
import StructuredOutput.Number.Numeral
import StructuredOutput.Proofs.Codec.Integers
import StructuredOutput.Proofs.Json.NumberText

/-!
Number literals of any length and the doubles that they round to. A literal that rounds to a finite
double is a numeral, and what is read from it is a number of content.
-/

namespace StructuredOutput.Json

open Text

namespace Literal

variable (l : Literal)

def decimal : Decimal :=
  ⟨ofDigits ((l.whole ++ l.fraction).filterMap asciiDigit?),
    (l.power.map Power.value).getD 0 - l.fraction.length⟩

/-- The double nearest to a literal. -/
def value : Floating := l.decimal.toFloating l.negative

end Literal

/-- The double nearest to a text, if that is a number. -/
def nearest? (cs : List Char) : Option Floating :=
  match cs with
  | '-' :: more => (unsignedNumeral? more).map (·.toFloating true)
  | _ => (unsignedNumeral? cs).map (·.toFloating false)

namespace Literal

variable (l : Literal)

theorem exists_whole_cons : ∃ c cs, l.whole = c :: cs ∧ c.isDigit = true :=
  exists_digit_cons l.whole_ok l.whole_digits

theorem exponent?_powerText : exponent? l.powerText = some ((l.power.map Power.value).getD 0) := by
  unfold powerText
  split
  · next hpower =>
    rw [hpower]
    rfl
  · next p hpower =>
    obtain ⟨mark, sign, digits, hmark, hne, hdigits⟩ := p
    obtain ⟨d, ds, rfl⟩ := List.exists_cons_of_ne_nil hne
    have hd := ne_sign_of_isDigit (hdigits d List.mem_cons_self)
    obtain ⟨hdigit, hrest⟩ := List.forall_mem_cons.mp hdigits
    rw [hpower]
    rcases sign with _ | _ | _ <;>
      simpa [exponent?, Power.text, Power.signText, Power.value, hmark, hd, hdigit] using hrest

theorem stops_powerText : Stops (fun c => c.isDigit || c = '.') l.powerText := by
  unfold powerText
  split
  · exact stops_nil _
  · next p _ =>
    have hstop := p.stops_text []
    rwa [List.append_nil] at hstop

theorem unsignedNumeral?_text :
    unsignedNumeral? (l.whole ++ (l.fractionText ++ l.powerText)) = some l.decimal := by
  obtain ⟨c, cs, hcons, -⟩ := l.exists_whole_cons
  have hne : l.whole ≠ [] := by simp [hcons]
  have hpower : Stops Char.isDigit l.powerText :=
    fun c hc => (Bool.or_eq_false_iff.mp (l.stops_powerText c hc)).1
  have hstop : Stops Char.isDigit (l.fractionText ++ l.powerText) := by
    unfold fractionText
    split
    · exact hpower
    · exact stops_cons rfl
  have htake := takeWhile_append l.whole_digits hstop
  have hdrop := dropWhile_append l.whole_digits hstop
  unfold unsignedNumeral?
  simp only [htake, hdrop]
  cases hfraction : l.fraction with
  | nil =>
    have hpoint : l.powerText.head? ≠ some '.' := by
      intro hhead
      simpa using (Bool.or_eq_false_iff.mp (l.stops_powerText '.' hhead)).2
    have htext : l.fractionText ++ l.powerText = l.powerText := by simp [fractionText, hfraction]
    rw [htext]
    split
    · next more hmore => exact absurd (hmore ▸ rfl) hpoint
    · simp [hne, l.exponent?_powerText, decimal, hfraction]
  | cons d ds =>
    have hdigits : ∀ c ∈ d :: ds, c.isDigit = true := hfraction ▸ l.fraction_digits
    have htake := takeWhile_append hdigits hpower
    have hdrop := dropWhile_append hdigits hpower
    rw [List.cons_append] at htake hdrop
    have htext : l.fractionText ++ l.powerText = '.' :: d :: (ds ++ l.powerText) := by
      simp [fractionText, hfraction]
    rw [htext]
    simp [htake, hdrop, l.exponent?_powerText, decimal, hfraction]

theorem nearest?_text : nearest? l.text = some l.value := by
  have hunsigned := l.unsignedNumeral?_text
  obtain ⟨c, cs, hcons, hc⟩ := l.exists_whole_cons
  rw [hcons, List.cons_append] at hunsigned
  unfold text value
  cases l.negative with
  | true => simp [nearest?, minusText, hcons, hunsigned]
  | false =>
    have hsign := (ne_sign_of_isDigit hc).1
    rw [hcons]
    unfold nearest?
    split
    · next heq => exact absurd (List.cons.inj heq).1 hsign
    · simp [minusText, hunsigned]

end Literal

/-! ### Finite literals -/

/-- A number without a power of ten that rounds to a finite double is small, and the integer rounds
to one, too. -/
theorem exists_ofInt_of_toFloating {m : Nat} {negative : Bool} {x : Double}
    (h : (Decimal.mk m 0).toFloating negative = .finite x) :
    Decimal.digitCount m ≤ 400 ∧
      ∃ y, Floating.ofInt (if negative then -(m : Int) else m) = .finite y := by
  by_cases hm : m = 0
  · subst hm
    obtain ⟨z, hz⟩ := Double.exists_signedUnits (n := 0) (Nat.zero_le _)
    obtain ⟨y, hy, -⟩ := Double.exists_ofInt_of_signedUnits hz
    exact ⟨by decide, y, by simpa using hy⟩
  rw [Decimal.toFloating] at h
  dsimp only at h
  rw [if_neg (not_or.mpr ⟨hm, by omega⟩)] at h
  split at h
  · cases h
  next hfew =>
  refine ⟨by omega, x, ?_⟩
  have hfraction : (Decimal.mk m 0).unitFraction = (m * unitsPerOne, 1) := by
    simp [Decimal.unitFraction]
  rw [hfraction] at h
  have hsign : decide ((if negative then -(m : Int) else m) < 0) = negative := by
    cases negative
    · simp
    · simpa using Nat.pos_of_ne_zero hm
  have habs : (if negative then -(m : Int) else m).natAbs = m := by
    cases negative <;> simp
  rw [Floating.ofInt, hsign, habs]
  exact h

theorem mul_pow_le_ofDigitChars (ds : List Char) (init : Nat) :
    init * 10 ^ ds.length ≤ Nat.ofDigitChars 10 ds init := by
  induction ds generalizing init with
  | nil => simp
  | cons c ds ih =>
    rw [Nat.ofDigitChars_cons, List.length_cons, Nat.pow_succ]
    refine Nat.le_trans ?_ (ih _)
    have hle : init * 10 ≤ 10 * init + (c.toNat - '0'.toNat) := by omega
    calc init * (10 ^ ds.length * 10)
        = init * 10 * 10 ^ ds.length := by ring
      _ ≤ _ := Nat.mul_le_mul_right _ hle

namespace Literal

variable {l : Literal} {x : Double}

/-- Digits that do not begin with a zero make a number as long as they are. -/
theorem pow_le_ofDigits (hhead : l.whole.head? ≠ some '0') :
    10 ^ (l.whole.length - 1) ≤ ofDigits (l.whole.filterMap asciiDigit?) := by
  obtain ⟨c, cs, hcons, hc⟩ := l.exists_whole_cons
  rw [ofDigits_asciiDigits l.whole_digits, hcons, Nat.ofDigitChars_cons, List.length_cons,
    Nat.add_sub_cancel]
  refine Nat.le_trans ?_ (mul_pow_le_ofDigitChars cs _)
  have hzero : c ≠ '0' := fun h => hhead (by rw [hcons, h]; rfl)
  have hpos : 1 ≤ 10 * 0 + (c.toNat - '0'.toNat) := by
    have hlow : '0'.toNat ≤ c.toNat := by
      simp only [Char.isDigit, Bool.and_eq_true, decide_eq_true_eq] at hc
      exact hc.1
    have hdiffer : c.toNat ≠ '0'.toNat := fun h => hzero (Char.toNat_inj.mp h)
    omega
  exact Nat.le_mul_of_pos_left _ hpos

theorem short_of_finite (hvalue : l.value = .finite x) (hwhole : l.IsWhole) :
    l.whole.length ≤ integerLimit := by
  rcases l.whole_ok with h | ⟨hhead, -⟩
  · rw [h]
    decide
  have hdecimal : l.decimal = ⟨ofDigits (l.whole.filterMap asciiDigit?), 0⟩ := by
    simp [decimal, hwhole.1, hwhole.2]
  rw [value, hdecimal] at hvalue
  have hlow := pow_le_ofDigits hhead
  have hpos := Nat.lt_of_lt_of_le (Nat.pow_pos (by decide)) hlow
  have hhigh := Decimal.lt_pow_digitCount (Nat.ne_of_gt hpos)
  have hlength := (Nat.pow_lt_pow_iff_right (by decide)).mp (Nat.lt_of_le_of_lt hlow hhigh)
  have hcount := (exists_ofInt_of_toFloating hvalue).1
  unfold integerLimit
  omega

/-- What is read from a literal that rounds to a finite double is a number of content. -/
theorem exists_numeral (hvalue : l.value = .finite x) : ∃ (n : Numeral) (y : Double),
    n.text = l.text ∧ Content.ofJson n.json = .ok (.number y) ∧
      (l.IsWhole → y.isIntegral = true) := by
  let n : Numeral := ⟨l.negative, l.whole, l.fraction, l.power, l.whole_ok, l.whole_digits,
    l.fraction_digits, fun hf hp => short_of_finite hvalue ⟨hf, hp⟩⟩
  by_cases hwhole : l.IsWhole
  · have hdecimal : l.decimal = ⟨ofDigits (l.whole.filterMap asciiDigit?), 0⟩ := by
      simp [decimal, hwhole.1, hwhole.2]
    rw [value, hdecimal] at hvalue
    obtain ⟨-, y, hy⟩ := exists_ofInt_of_toFloating hvalue
    have hjson : n.json = .integer (if l.negative then
        -(ofDigits (l.whole.filterMap asciiDigit?) : Int)
        else (ofDigits (l.whole.filterMap asciiDigit?) : Int)) := by
      simp [Numeral.json, n, hwhole.1, hwhole.2]
    refine ⟨n, y, rfl, ?_, fun _ => Double.isIntegral_of_ofInt hy⟩
    rw [hjson, Content.ofJson]
    exact ofInteger_eq_ok.mpr ⟨y, hy, rfl⟩
  · have hjson : n.json = .real l.value := by
      unfold Numeral.json
      split
      · next hfraction hpower => exact absurd ⟨hfraction, hpower⟩ hwhole
      · rfl
    refine ⟨n, x, rfl, ?_, fun h => absurd h hwhole⟩
    rw [hjson, hvalue]
    rfl

end Literal

end StructuredOutput.Json

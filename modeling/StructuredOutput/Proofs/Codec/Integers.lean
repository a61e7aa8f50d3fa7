import StructuredOutput.Codec.Encode
import StructuredOutput.Proofs.Codec.FromText
import StructuredOutput.Proofs.Codec.Instance
import StructuredOutput.Proofs.Content.Serialize

/-!
Integers on their way through content, where every number is a double: which integers come back, and
what the others come back as.
-/

namespace StructuredOutput

open Text

/-- Whether some double has the value of an integer. -/
def IsExact (n : Int) : Prop := ∃ x : Double, x.signedUnits = n * (unitsPerOne : Int)

theorem isExact_of_le {n : Int} (h : n.natAbs ≤ Nat.pow 2 53) : IsExact n :=
  Double.exists_signedUnits h

/-! ### The double of an integer -/

/-- Rounding an integer to 53 bits gives an integer: beyond 53 bits the steps are whole numbers. -/
theorem dvd_roundUnits (m : Nat) : unitsPerOne ∣ roundUnits (m * unitsPerOne) 1 := by
  obtain ⟨k, -, hunits⟩ := Double.exists_unitsPerOne_eq
  by_cases h : m ≤ Nat.pow 2 53
  · have hgrid : m * unitsPerOne % Nat.pow 2 (gridStep (m * unitsPerOne)) = 0 := by
      rw [hunits]
      exact onGrid_mul m k h
    rw [roundUnits_of_onGrid hgrid]
    exact Nat.dvd_mul_left _ _
  · have hstep : k ≤ gridStep (m * unitsPerOne) := by
      have hlog : 53 + k ≤ (m * unitsPerOne).log2 := by
        rw [Nat.le_log2, Nat.pow_add, hunits]
        · exact Nat.mul_le_mul_right _ (Nat.le_of_not_le h)
        · have hpos := unitsPerOne_pos
          exact Nat.mul_ne_zero (by omega) (by omega)
      unfold gridStep
      omega
    have hround : roundUnits (m * unitsPerOne) 1 =
        roundHalfEven (m * unitsPerOne) (1 * Nat.pow 2 (gridStep (m * unitsPerOne))) *
          Nat.pow 2 (gridStep (m * unitsPerOne)) := by
      rw [roundUnits, Nat.div_one]
    have hdvd : unitsPerOne ∣ Nat.pow 2 (gridStep (m * unitsPerOne)) := by
      generalize gridStep (m * unitsPerOne) = step at hstep
      rw [hunits]
      exact Nat.pow_dvd_pow 2 hstep
    rw [hround]
    exact Nat.dvd_trans hdvd (Nat.dvd_mul_left _ _)

namespace Double

variable {n : Int} {x : Double}

theorem isIntegral_of_ofInt (h : Floating.ofInt n = .finite x) : x.isIntegral = true := by
  unfold Floating.ofInt Floating.ofUnits at h
  split at h
  · cases h
    exact decide_eq_true (Nat.mod_eq_zero_of_dvd (dvd_roundUnits n.natAbs))
  · cases h

theorem signedUnits_truncate (h : x.isIntegral = true) :
    x.signedUnits = x.truncate * (unitsPerOne : Int) := by
  have hunits : x.units / unitsPerOne * unitsPerOne = x.units :=
    Nat.div_mul_cancel (Nat.dvd_of_mod_eq_zero (of_decide_eq_true h))
  unfold signedUnits truncate
  dsimp only
  split
  · rw [neg_mul, ← Nat.cast_mul, hunits]
  · rw [← Nat.cast_mul, hunits]

/-- The double of an integer is the integer itself exactly when some double is. -/
theorem truncate_eq_iff (h : Floating.ofInt n = .finite x) : x.truncate = n ↔ IsExact n := by
  have hintegral := isIntegral_of_ofInt h
  constructor
  · intro htruncate
    exact ⟨x, htruncate ▸ signedUnits_truncate hintegral⟩
  · rintro ⟨y, hy⟩
    obtain ⟨z, hz, hn⟩ := exists_ofInt_of_signedUnits hy
    rw [h] at hz
    cases hz
    exact (toInt?_eq_some.mp hn).2

end Double

/-! ### Integers in content -/

variable {ds : Declarations}

theorem shapeOf_integer : ds.shapeOf (.atom .integer) = .ok (.primitive .integer []) := by
  simp [Declarations.shapeOf, Declarations.resolve, Declarations.notUnion, Declarations.atomShape,
    Except.mapError]

theorem decode_whole {x : Double} (h : x.isIntegral = true) :
    decode ds (.number x) (.atom .integer) = .ok (.integer x.truncate) := by
  rw [decode_eq shapeOf_integer]
  exact Decoding.value_integer rfl (Double.toInt?_eq_some.mpr ⟨h, rfl⟩) .top

theorem ofInteger_eq_ok {n : Int} {c : Content} :
    Content.ofInteger n = .ok c ↔ ∃ x, Floating.ofInt n = .finite x ∧ c = .number x := by
  rw [Content.ofInteger]
  generalize Floating.ofInt n = y
  cases y <;> simp [Content.ofFinite, eq_comm]

theorem encode_integer_eq_ok {n : Int} {c : Content} :
    encode ds (.integer n) (some (.atom .integer)) = .ok c ↔ Content.ofInteger n = .ok c := by
  have hvalue : Encoding.value ds (.integer n) (.primitive .integer []) .top =
      Encoding.primitive ds .integer (.integer n) .top := by
    simp only [Encoding.value, Shape.core, Encoding.leaf]
  have hprimitive (path : Path) : Encoding.primitive ds .integer (.integer n) path =
      (Content.ofInteger n).mapError .number := rfl
  have hencode : encode ds (.integer n) (some (.atom .integer)) =
      Encoding.value ds (.integer n) (.primitive .integer []) .top := by
    simp only [encode, shapeOf_integer, Except.mapError, bind, Except.bind]
  rw [hencode, hvalue, hprimitive, Outcome.mapError_eq_ok]

/-- The text of a whole double tells the same integer. -/
theorem decodeText_serialize_whole {x : Double} (h : x.isIntegral = true) (indent : Option Nat) :
    decodeText ds (Content.serialize (.number x) indent).toList (.atom .integer) =
      .ok (.integer x.truncate) := by
  have hparse : Content.parse (Content.serialize (.number x) indent).toList =
      .ok (.number x.positiveZero) :=
    Content.parse_serialize (by rw [Content.KeysDiffer]; trivial) (Nat.zero_le _) indent
  have hsame : x.positiveZero.toInt? = some x.truncate :=
    x.toInt?_positiveZero.trans (Double.toInt?_eq_some.mpr ⟨h, rfl⟩)
  refine decodeText_eq_ok.mpr ⟨_, hparse, ?_⟩
  rw [decode_eq shapeOf_integer]
  exact Decoding.value_integer rfl hsame .top

/-! ### Decimal text of integers -/

namespace Json

theorem read_signed (negative : Bool) {c : Char} (cs : List Char) (hc : c.isDigit = true)
    {e : Failure} (h : readNumber (minusText negative ++ c :: cs) = .error e) :
    read (minusText negative ++ c :: cs) = .error e := by
  have hbegins : ∃ d ds, minusText negative ++ c :: cs = d :: ds ∧ beginsValue d = true := by
    cases negative with
    | true => exact ⟨'-', c :: cs, rfl, rfl⟩
    | false => exact ⟨c, cs, rfl, by simp [beginsValue, hc]⟩
  obtain ⟨d, ds, htext, hd⟩ := hbegins
  have hmark : (d :: ds).head? ≠ some (Char.ofNat 0xfeff) := by
    rintro ⟨⟩
    cases hd
  have hvalue : readPrefix (d :: ds) = readNumber (d :: ds) := by
    rw [readPrefix, fuelFor, ← htext]
    exact readValue_signed _ _ _ cs hc
  rw [htext] at h ⊢
  rw [read, if_neg hmark, readWhole, skipSpace_of_stops (stops_cons (isSpace_of_beginsValue hd)),
    hvalue, h]

/-- An integer of too many digits is not read. -/
theorem read_integerText_of_long {n : Int} (h : 10 ^ integerLimit ≤ n.natAbs) :
    ∃ e, read (integerText n) = .error e := by
  have hne : n.natAbs ≠ 0 := by
    have hpos : 0 < 10 ^ integerLimit := Nat.pow_pos (by decide)
    omega
  have hlength : integerLimit < (decimal n.natAbs).length := by
    rw [← Nat.not_le, decimal, Nat.length_toDigits_le_iff (by decide) (by decide), Nat.not_lt]
    exact h
  have hdigits : ∀ c ∈ decimal n.natAbs, c.isDigit = true := fun _ => isDigit_of_mem_decimal
  have hwhole : wholePart (decimal n.natAbs ++ []) = (decimal n.natAbs, []) :=
    wholePart_append (.inr ⟨head?_decimal hne, Nat.toDigits_ne_nil⟩) hdigits
      (fun c hc => (by cases hc))
  have htext : integerText n = minusText (decide (n < 0)) ++ decimal n.natAbs := by
    unfold integerText minusText
    by_cases hn : n < 0 <;> simp [hn]
  obtain ⟨c, cs, hcons⟩ := List.exists_cons_of_ne_nil (l := decimal n.natAbs) Nat.toDigits_ne_nil
  have hc : c.isDigit = true := hdigits c (hcons ▸ List.mem_cons_self)
  rw [List.append_nil] at hwhole
  rw [htext]
  rw [hcons] at hwhole hlength ⊢
  have hnumber : readNumber (minusText (decide (n < 0)) ++ c :: cs) =
      .error ⟨.longInteger (c :: cs).length, minusText (decide (n < 0)) ++ c :: cs⟩ := by
    rw [readNumber_signed _ cs hc, readMagnitude, hwhole]
    exact if_pos hlength
  exact ⟨_, read_signed _ cs hc hnumber⟩

theorem read_integerText {n : Int} (h : n.natAbs < 10 ^ integerLimit) :
    read (integerText n) = .ok (.integer n) := by
  obtain ⟨numeral, htext, hjson⟩ := exists_numeral_of_integer h
  have hwritten : text compactStyle 0 (.integer n) = integerText n := by
    rw [text]
  rw [← hwritten]
  exact read_text (rereads_numeral (htext.trans hwritten.symm) hjson)

end Json

theorem ofInteger_of_parse {n : Int} {c : Content} (h : Content.parse (integerText n) = .ok c) :
    Content.ofInteger n = .ok c := by
  by_cases hlong : n.natAbs < 10 ^ Json.integerLimit
  · rw [Content.parse, Json.read_integerText hlong, Content.ofReading, Content.ofJson] at h
    cases hn : Content.ofInteger n with
    | error fault =>
      rw [hn] at h
      cases h
    | ok b =>
      rw [hn] at h
      cases h
      rfl
  · obtain ⟨e, he⟩ := Json.read_integerText_of_long (Nat.le_of_not_lt hlong)
    rw [Content.parse, he] at h
    cases h

/-- Exactly the integers that a double represents come back as they were, from content, from its
text and from their decimal text. Every other one that is accepted comes back as another integer. -/
theorem integer_preserved_iff (ds : Declarations) (n : Int) :
    (∀ c, encode ds (.integer n) (some (.atom .integer)) = .ok c →
      ∃ m, decode ds c (.atom .integer) = .ok (.integer m) ∧
        (∀ indent, decodeText ds (c.serialize indent).toList (.atom .integer) = .ok (.integer m)) ∧
          (m = n ↔ IsExact n)) ∧
    ∀ v, decodeText ds (integerText n) (.atom .integer) = .ok v → (v = .integer n ↔ IsExact n) := by
  constructor
  · intro c hc
    obtain ⟨x, hx, rfl⟩ := ofInteger_eq_ok.mp (encode_integer_eq_ok.mp hc)
    have hwhole := Double.isIntegral_of_ofInt hx
    exact ⟨x.truncate, decode_whole hwhole, decodeText_serialize_whole hwhole,
      Double.truncate_eq_iff hx⟩
  · intro v hv
    obtain ⟨c, hparse, hdecode⟩ := decodeText_eq_ok.mp hv
    obtain ⟨x, hx, rfl⟩ := ofInteger_eq_ok.mp (ofInteger_of_parse hparse)
    rw [decode_whole (Double.isIntegral_of_ofInt hx)] at hdecode
    cases hdecode
    rw [Value.integer.injEq]
    exact Double.truncate_eq_iff hx

/-- The integer after `2 ^ 53` is accepted and comes back as `2 ^ 53`. -/
theorem integer_altered :
    ∃ c, encode ⟨"m", []⟩ (.integer 9007199254740993) (some (.atom .integer)) = .ok c ∧
      decode ⟨"m", []⟩ c (.atom .integer) = .ok (.integer 9007199254740992) ∧
      decodeText ⟨"m", []⟩ (c.serialize none).toList (.atom .integer) =
        .ok (.integer 9007199254740992) ∧
      decodeText ⟨"m", []⟩ (integerText 9007199254740993) (.atom .integer) =
        .ok (.integer 9007199254740992) := by
  let x : Double := ⟨false, 2 ^ 53 * unitsPerOne, by decide +kernel, by decide +kernel⟩
  have hx : Floating.ofInt 9007199254740993 = .finite x := by decide +kernel
  have htruncate : x.truncate = 9007199254740992 := by decide +kernel
  have hwhole : x.isIntegral = true := Double.isIntegral_of_ofInt hx
  have hcontent : Content.ofInteger 9007199254740993 = .ok (.number x) :=
    ofInteger_eq_ok.mpr ⟨x, hx, rfl⟩
  have hshort : (9007199254740993 : Int).natAbs < 10 ^ Json.integerLimit :=
    Nat.lt_of_lt_of_le (by decide : (9007199254740993 : Int).natAbs < 10 ^ 16)
      (Nat.pow_le_pow_right (by decide) (by decide))
  have hparse : Content.parse (integerText 9007199254740993) = .ok (.number x) := by
    rw [Content.parse, Json.read_integerText hshort, Content.ofReading, Content.ofJson, hcontent]
  rw [← htruncate]
  exact ⟨.number x, encode_integer_eq_ok.mpr hcontent, decode_whole hwhole,
    decodeText_serialize_whole hwhole none, decodeText_eq_ok.mpr ⟨_, hparse, decode_whole hwhole⟩⟩

end StructuredOutput

import StructuredOutput.Content.OfValue
import StructuredOutput.Content.Parse
import StructuredOutput.Proofs.Content.Members
import StructuredOutput.Proofs.Content.PositiveZeros
import StructuredOutput.Proofs.Json.NumberText
import StructuredOutput.Proofs.Json.Printed
import StructuredOutput.Proofs.Number.Rounding

/-!
The text of a tree is read back as the tree: the same kinds, keys in the same order and numbers of
the same value. Only the sign of a zero is not told.
-/

namespace StructuredOutput

/-! ### Numbers -/

namespace Double

theorem truncate_natAbs (x : Double) : x.truncate.natAbs = x.units / unitsPerOne := by
  unfold truncate
  generalize x.units / unitsPerOne = n
  dsimp only
  split <;> omega

/-- A whole number is the double of the integer that it is, but for the sign of zero. -/
theorem ofInt_truncate {x : Double} (h : x.isIntegral = true) :
    Floating.ofInt x.truncate = .finite x.positiveZero := by
  have hunits : x.units = x.truncate.natAbs * unitsPerOne := by
    rw [truncate_natAbs]
    exact (Nat.div_mul_cancel (Nat.dvd_of_mod_eq_zero (of_decide_eq_true h))).symm
  rw [Floating.ofInt, ofUnits_of_units _ hunits]
  congr 1
  unfold positiveZero
  by_cases hzero : x.units = 0
  · have htruncate : x.truncate = 0 := by
      have := x.truncate_natAbs
      rw [hzero, Nat.zero_div] at this
      omega
    simp [hzero, htruncate, zero]
  · have hne : x.truncate.natAbs ≠ 0 := by
      intro h0
      rw [h0, Nat.zero_mul] at hunits
      exact hzero hunits
    have hnegative : decide (x.truncate < 0) = x.negative := by
      rw [truncate_natAbs] at hne
      unfold truncate
      generalize x.units / unitsPerOne = n at hne ⊢
      dsimp only
      cases x.negative
      · simp only [Bool.false_eq_true, ↓reduceIte, decide_eq_false_iff_not]
        omega
      · simp only [↓reduceIte, decide_eq_true_eq]
        omega
    rw [if_neg hzero, hnegative]

theorem positiveZero_of_not_small {x : Double}
    (h : ¬ (x.isIntegral && x.magnitudeBelow Content.safeLimit) = true) : x.positiveZero = x := by
  unfold positiveZero
  rw [if_neg]
  intro hzero
  apply h
  have hpos := unitsPerOne_pos
  simp only [isIntegral, magnitudeBelow, hzero, Nat.zero_mod, Content.safeLimit, Bool.and_eq_true,
    decide_eq_true_eq, true_and]
  omega

theorem truncate_lt {x : Double} (h : x.magnitudeBelow Content.safeLimit = true) :
    x.truncate.natAbs < Content.safeLimit := by
  rw [truncate_natAbs, Nat.div_lt_iff_lt_mul unitsPerOne_pos]
  exact of_decide_eq_true h

end Double

namespace Content

open Json

theorem safeLimit_le : safeLimit ≤ 10 ^ integerLimit :=
  calc safeLimit ≤ 10 ^ 16 := by decide
    _ ≤ 10 ^ integerLimit := Nat.pow_le_pow_right (by decide) (by decide)

/-- The JSON number of a double tells the double, but for the sign of zero. -/
theorem ofJson_jsonNumber (x : Double) : ofJson (jsonNumber x) = .ok (number x.positiveZero) := by
  unfold jsonNumber
  split
  · next h =>
    rw [Bool.and_eq_true] at h
    rw [ofJson, ofInteger, Double.ofInt_truncate h.1]
    rfl
  · next h =>
    rw [Double.positiveZero_of_not_small h]
    rfl

/-- The text of a double is a numeral of its JSON number. -/
theorem exists_numeral_of_number (x : Double) {s : Style} (hs : s.Plain) (level : Nat) :
    ∃ n : Numeral, n.text = Json.text s level (jsonNumber x) ∧ n.json = jsonNumber x := by
  unfold jsonNumber
  split
  · next h =>
    rw [Bool.and_eq_true] at h
    rw [Json.text]
    exact exists_numeral_of_integer (Nat.lt_of_lt_of_le (Double.truncate_lt h.2) safeLimit_le)
  · rw [Json.text, hs.numbers]
    exact exists_numeral_of_double x

/-! ### Trees -/

/-- The text of a tree is read back as its JSON data. -/
theorem rereads_toJson {s : Style} (hs : s.Plain) (c : Content) (hkeys : c.KeysDiffer)
    (level : Nat) {limit : Nat} (hdepth : c.depth ≤ limit) : Rereads s level limit c.toJson := by
  induction c using members_induction generalizing level limit with
  | null => exact rereads_null
  | bool b => exact rereads_bool b
  | number x =>
    obtain ⟨n, htext, hjson⟩ := exists_numeral_of_number x hs level
    exact rereads_numeral htext hjson
  | string t => exact rereads_string hs t
  | array items ih =>
    obtain _ | limit := limit
    · cases hdepth
    rw [toJson, toItems_eq_map]
    refine rereads_array hs (List.forall_mem_map.mpr fun c hc => ?_)
    have hlimit := Nat.le_trans (depth_le_itemsDepth hc) (Nat.le_of_succ_le_succ hdepth)
    exact ih c hc (itemsDiffer_iff.mp hkeys c hc) (level + 1) hlimit
  | object entries ih =>
    obtain _ | limit := limit
    · cases hdepth
    rw [toJson]
    apply rereads_object hs
    · rw [names_toEntries]
      exact hkeys.1
    · rw [toEntries_eq_map]
      refine List.forall_mem_map.mpr fun e he => ?_
      have hlimit := Nat.le_trans (depth_le_entriesDepth he) (Nat.le_of_succ_le_succ hdepth)
      exact ih e he (entriesDiffer_iff.mp hkeys.2 e he) (level + 1) hlimit

theorem ofEntries_positiveZeros {entries : List (String × Content)}
    (h : (Entries.names entries).Nodup) :
    ofEntries (positiveZerosEntries entries) = .object (positiveZerosEntries entries) := by
  rw [ofEntries, Entries.ofList_of_nodup]
  rw [positiveZerosEntries_eq_map]
  simpa [Entries.names, Function.comp_def] using h

mutual

/-- The JSON data of a tree tells the tree, but for the signs of zeros. -/
theorem ofJson_toJson (c : Content) (hkeys : c.KeysDiffer) :
    ofJson c.toJson = .ok c.positiveZeros := by
  match c with
  | .null | .bool _ | .string _ => rfl
  | .number x => exact ofJson_jsonNumber x
  | .array items =>
    rw [toJson, ofJson, ofItems_toItems items hkeys]
    rfl
  | .object entries =>
    rw [toJson, ofJson, ofJsonEntries_toEntries entries hkeys.2, Except.map,
      ofEntries_positiveZeros hkeys.1]
    rfl

theorem ofItems_toItems (items : List Content) (hkeys : ItemsDiffer items) :
    ofItems (toItems items) = .ok (positiveZerosItems items) := by
  match items with
  | [] => rfl
  | c :: cs =>
    rw [toItems, ofItems, ofJson_toJson c hkeys.1, ofItems_toItems cs hkeys.2]
    rfl

theorem ofJsonEntries_toEntries (entries : List (String × Content))
    (hkeys : EntriesDiffer entries) :
    ofJsonEntries (toEntries entries) = .ok (positiveZerosEntries entries) := by
  match entries with
  | [] => rfl
  | (k, c) :: cs =>
    rw [toEntries, ofJsonEntries, ofJson_toJson c hkeys.1, ofJsonEntries_toEntries cs hkeys.2]
    rfl

end

theorem toList_serialize (c : Content) :
    (c.serialize none).toList = text compactStyle 0 c.toJson := by
  rw [serialize, write, String.toList_ofList]
  rfl

/-- No blank stands before the text of a tree. -/
theorem exists_serialize_cons {c : Content} (hkeys : c.KeysDiffer) :
    ∃ first cs, (c.serialize none).toList = first :: cs ∧ beginsValue first = true := by
  rw [toList_serialize]
  exact (rereads_toJson (plain_styleFor none) c hkeys 0 (Nat.le_refl c.depth)).begins

/-- The text of a tree holds the tree, but for the signs of zeros. -/
theorem parse_serialize {c : Content} (hkeys : c.KeysDiffer) (hdepth : c.depth ≤ nestingLimit)
    (indent : Option Nat) : parse (c.serialize indent).toList = .ok c.positiveZeros := by
  have hread := read_text (rereads_toJson (plain_styleFor indent) c hkeys 0 hdepth)
  rw [parse, serialize, write, String.toList_ofList, hread, ofReading, ofJson_toJson c hkeys]

/-! ### Plain data -/

theorem ofScalar?_plainNumber (x : Double) :
    ofScalar? (plainNumber x) = some (.ok (number x.positiveZero)) := by
  unfold plainNumber
  split
  · next h =>
    rw [Bool.and_eq_true] at h
    change some (ofInteger x.truncate) = _
    rw [ofInteger, Double.ofInt_truncate h.1]
    rfl
  · next h =>
    rw [Double.positiveZero_of_not_small h]
    rfl

variable (ds : Declarations)

mutual

/-- The plain data of a tree tells the tree, but for the signs of zeros. -/
theorem ofValue_toValue (c : Content) (hkeys : c.KeysDiffer) :
    ofValue ds c.toValue = .ok c.positiveZeros := by
  match c with
  | .null | .bool _ | .string _ => rfl
  | .number x =>
    rw [toValue, ofValue.eq_def, ofScalar?_plainNumber]
    rfl
  | .array items =>
    have hscalar : ofScalar? (.list (toValues items)) = none := rfl
    rw [toValue, ofValue, hscalar]
    dsimp only
    rw [ofValues_toValues items hkeys]
    rfl
  | .object entries =>
    have hscalar : ofScalar? (.dict (toDict entries)) = none := rfl
    rw [toValue, ofValue, hscalar]
    dsimp only
    rw [ofDict_toDict entries hkeys.2, Except.map, ofEntries_positiveZeros hkeys.1]
    rfl

theorem ofValues_toValues (items : List Content) (hkeys : ItemsDiffer items) :
    ofValues ds (toValues items) = .ok (positiveZerosItems items) := by
  match items with
  | [] => rfl
  | c :: cs =>
    rw [toValues, ofValues, ofValue_toValue c hkeys.1, ofValues_toValues cs hkeys.2]
    rfl

theorem ofDict_toDict (entries : List (String × Content)) (hkeys : EntriesDiffer entries) :
    ofDict ds (toDict entries) = .ok (positiveZerosEntries entries) := by
  match entries with
  | [] => rfl
  | (k, c) :: cs =>
    have hkey : (Value.text k).asText? = some k := rfl
    rw [toDict, ofDict, hkey]
    dsimp only
    rw [ofValue_toValue c hkeys.1, ofDict_toDict cs hkeys.2]
    rfl

end

/-! ### Equality -/

mutual

/-- A tree is equal to itself without the signs of zeros. -/
theorem same_positiveZeros (c : Content) : c.positiveZeros.same c = true := by
  match c with
  | .null => rfl
  | .bool b => simp [positiveZeros, same]
  | .number x => simp [positiveZeros, same, Double.sameValue, x.signedUnits_positiveZero]
  | .string s => simp [positiveZeros, same]
  | .array items => simpa [positiveZeros, same] using sameItems_positiveZeros items
  | .object entries => simpa [positiveZeros, same] using sameEntries_positiveZeros entries

theorem sameItems_positiveZeros (items : List Content) :
    sameItems (positiveZerosItems items) items = true := by
  match items with
  | [] => rfl
  | c :: cs => simp [positiveZerosItems, sameItems, same_positiveZeros c, sameItems_positiveZeros cs]

theorem sameEntries_positiveZeros (entries : List (String × Content)) :
    sameEntries (positiveZerosEntries entries) entries = true := by
  match entries with
  | [] => rfl
  | (k, c) :: cs =>
    simp [positiveZerosEntries, sameEntries, same_positiveZeros c, sameEntries_positiveZeros cs]

end

/-- Writing and reading a tree is exact, whatever the indentation, and so is the way through plain
data: what comes back has the same entries in the same order, and at most zeros lose their sign. -/
theorem serialize_exact {c : Content} (hkeys : c.KeysDiffer) (hdepth : c.depth ≤ nestingLimit)
    (indent : Option Nat) :
    parse (c.serialize indent).toList = .ok c.positiveZeros ∧
      ofValue ds c.toValue = .ok c.positiveZeros ∧ c.positiveZeros.same c = true :=
  ⟨parse_serialize hkeys hdepth indent, ofValue_toValue ds c hkeys, same_positiveZeros c⟩

/-- Empty containers inside others, escapes in a key and in a text, and a negative zero. -/
def mixedTree : Content :=
  .object [("\u0001\"", .array [.object [], .array [], .null]),
    ("zero", .number ⟨true, 0, Double.zero.onGrid, unitsLimit_pos⟩),
    ("text", .string "\\ \n \u001f /")]

theorem serialize_exact_mixedTree :
    mixedTree.KeysDiffer ∧ mixedTree.depth ≤ nestingLimit ∧
      parse (mixedTree.serialize (some 2)).toList = .ok mixedTree.positiveZeros ∧
        ofValue ⟨"m", []⟩ mixedTree.toValue = .ok mixedTree.positiveZeros := by
  have hkeys : mixedTree.KeysDiffer := by
    simp [mixedTree, KeysDiffer, ItemsDiffer, EntriesDiffer, Entries.names]
  have hdepth : mixedTree.depth ≤ nestingLimit := by decide
  have hexact := serialize_exact ⟨"m", []⟩ hkeys hdepth (some 2)
  exact ⟨hkeys, hdepth, hexact.1, hexact.2.1⟩

end Content

end StructuredOutput

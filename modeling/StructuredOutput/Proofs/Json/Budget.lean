import StructuredOutput.Proofs.Json.Parsing
import StructuredOutput.Proofs.Json.Printed

/-!
How many steps and levels the reader is allowed decides only whether it reads a text, never what it
reads.
-/

namespace StructuredOutput.Json

variable {rest : List Char}

/-- What is read as a value in so many steps is read with more steps and levels. -/
def ValueRemains (fuel : Nat) : Prop :=
  ∀ {depth : Nat} {cs rest : List Char} {j : Json}, readValue fuel depth cs = .ok (j, rest) →
    ∀ {more deeper : Nat}, fuel ≤ more → depth ≤ deeper →
      readValue more deeper cs = .ok (j, rest)

/-- What is read as parts in so many steps is read with more steps and levels. -/
def PartsRemain (fuel : Nat) : Prop :=
  ∀ {keyed : Bool} {depth : Nat} {cs rest : List Char} {js : List (String × Json)},
    readParts keyed fuel depth cs = .ok (js, rest) →
    ∀ {more deeper : Nat}, fuel ≤ more → depth ≤ deeper →
      readParts keyed more deeper cs = .ok (js, rest)

theorem valueRemains_succ {fuel : Nat} (hparts : PartsRemain fuel) : ValueRemains (fuel + 1) := by
  intro depth cs rest j h more deeper hmore hdeeper
  obtain ⟨more, rfl⟩ := Nat.exists_eq_add_of_le' hmore
  rw [← Nat.add_assoc, readValue_eq_ok]
  cases readValue_eq_ok.mp h with
  | empty keyed closed =>
    obtain _ | deeper := deeper
    · cases hdeeper
    exact .empty keyed closed
  | container keyed unclosed read =>
    obtain _ | deeper := deeper
    · cases hdeeper
    exact .container keyed unclosed
      (hparts read (Nat.le_add_left fuel more) (Nat.le_of_succ_le_succ hdeeper))
  | string read => exact .string read
  | scalar unquoted unopened read => exact .scalar unquoted unopened read

theorem partsRemain_succ {fuel : Nat} (hvalue : ValueRemains fuel) (hparts : PartsRemain fuel) :
    PartsRemain (fuel + 1) := by
  intro keyed depth cs rest js h more deeper hmore hdeeper
  obtain ⟨more, rfl⟩ := Nat.exists_eq_add_of_le' hmore
  have hfuel : fuel ≤ more + fuel := Nat.le_add_left fuel more
  have hafter {part : String × Json} {cs : List Char}
      (h : readAfter keyed fuel depth part cs = .ok (js, rest)) :
      readAfter keyed (more + fuel) deeper part cs = .ok (js, rest) := by
    rcases readAfter_eq_ok h with ⟨rfl, rfl⟩ | ⟨body, others, rfl, rfl, hothers⟩
    · exact readAfter_closeBracket keyed _ _ _
    · rw [readAfter_comma, hparts hothers hfuel hdeeper]
      rfl
  cases keyed with
  | false =>
    obtain ⟨value, after, hread, hrest⟩ := exists_item h
    rw [← Nat.add_assoc, readParts_item (hvalue hread hfuel hdeeper)]
    exact hafter hrest
  | true =>
    obtain ⟨key, afterKey, afterColon, value, after, hquote, hkey, hcolon, hread, hrest⟩ :=
      exists_entry h
    rw [← Nat.add_assoc, readParts_entry hquote hkey hcolon (hvalue hread hfuel hdeeper)]
    exact hafter hrest

theorem remains (fuel : Nat) : ValueRemains fuel ∧ PartsRemain fuel := by
  induction fuel with
  | zero =>
    refine ⟨fun h => (by cases h), fun {keyed} _ _ _ _ h => ?_⟩
    cases keyed <;> cases h
  | succ fuel ih => exact ⟨valueRemains_succ ih.2, partsRemain_succ ih.1 ih.2⟩

/-- More steps and levels never change what is read. -/
theorem readValue_mono {fuel depth more deeper : Nat} {cs : List Char} {j : Json}
    (h : readValue fuel depth cs = .ok (j, rest)) (hmore : fuel ≤ more) (hdeeper : depth ≤ deeper) :
    readValue more deeper cs = .ok (j, rest) :=
  (remains fuel).1 h hmore hdeeper

/-- Whatever is read at the front of the text of a value that is read back is that value. -/
theorem Rereads.eq_of_readValue {s : Style} {level limit fuel depth : Nat} {i j : Json}
    {after : List Char} (h : Rereads s level limit j) (hrest : Stops continuesNumber rest)
    (hread : readValue fuel depth (text s level j ++ rest) = .ok (i, after)) :
    i = j ∧ after = rest := by
  let enough := max fuel (2 * (text s level j).length)
  have hreread := readValue_mono (h.reads enough rest (Nat.le_max_right _ _) hrest)
    (Nat.le_refl enough) (Nat.le_max_right depth limit)
  have hgiven := readValue_mono hread (show fuel ≤ enough from Nat.le_max_left _ _)
    (Nat.le_max_left depth limit)
  rw [hreread] at hgiven
  cases hgiven
  exact ⟨rfl, rfl⟩

end StructuredOutput.Json

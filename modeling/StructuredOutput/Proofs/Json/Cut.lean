import Mathlib.Tactic.Common
import StructuredOutput.Proofs.Json.Written

/-!
What remains of a written value of which only the first characters are known. A string is closed
where it ends; a number, whose end cannot be seen, and anything else unfinished is dropped; a
container keeps its parts up to the last comma.
-/

namespace StructuredOutput.Json

/-- The pieces that lie within the first `n` characters of a string. -/
def cutPieces : List Piece → (n : Nat) → List Piece
  | [], _ => []
  | p :: ps, n => if p.text.length ≤ n then p :: cutPieces ps (n - p.text.length) else []

mutual

/-- What remains of a value of which `n` characters are known, if anything does. -/
def Written.cut : Written → (n : Nat) → Option Written
  | .null, n => if n < "null".toList.length then none else some .null
  | .bool b, n => if n < (boolText b).length then none else some (.bool b)
  | .number _, _ => none
  | .text pieces, n => if n = 0 then none else some (.text (cutPieces pieces (n - 1)))
  | .empty keyed inside, n =>
    if n < (Written.empty keyed inside).chars.length then none else some (.empty keyed inside)
  | .container keyed before parts, n =>
    (parts.cut (n - 1 - before.chars.length)).map (.container keyed before)

/-- What remains of parts of which `n` characters are known; none if no part is complete. -/
def Parts.cut {keyed : Bool} : Parts keyed → (n : Nat) → Option (Parts keyed)
  | .last label value after, n =>
    if label.text.length + value.chars.length + after.chars.length < n then
      some (.last label value after)
    else
      (value.cut (n - label.text.length)).map fun v =>
        .last label v (after.take (n - label.text.length - value.chars.length))
  | .more label value after before rest, n =>
    let comma := label.text.length + value.chars.length + after.chars.length
    if comma < n then
      match rest.cut (n - comma - 1 - before.chars.length) with
      | some r => some (.more label value after before r)
      | none => some (.last label value after)
    else
      (value.cut (n - label.text.length)).map fun v =>
        .last label v (after.take (n - label.text.length - value.chars.length))

end

variable {keyed : Bool} {n m : Nat}

/-! ### How parts are cut -/

/-- Parts of which only the beginning is known: all of them if there is one, or the first one cut. -/
theorem Parts.cut_last_eq {label : Label keyed} {v : Written} {after : Gap} {q : Parts keyed}
    (h : (Parts.last label v after).cut n = some q) :
    (label.text.length + v.chars.length + after.chars.length < n ∧ q = .last label v after) ∨
      (n ≤ label.text.length + v.chars.length + after.chars.length ∧
        ∃ w gap, v.cut (n - label.text.length) = some w ∧ q = .last label w gap) := by
  rw [Parts.cut] at h
  split at h
  · next hn =>
    cases h
    exact .inl ⟨hn, rfl⟩
  · next hn =>
    obtain ⟨w, hw, rfl⟩ := Option.map_eq_some_iff.mp h
    exact .inr ⟨Nat.not_lt.mp hn, w, _, hw, rfl⟩

/-- Several parts are cut after the comma that follows the first one, or inside the first one. -/
theorem Parts.cut_more_eq {label : Label keyed} {v : Written} {after before : Gap}
    {rest q : Parts keyed} {comma : Nat}
    (hcomma : comma = label.text.length + v.chars.length + after.chars.length)
    (h : (Parts.more label v after before rest).cut n = some q) :
    (comma < n ∧ ∃ r, rest.cut (n - comma - 1 - before.chars.length) = some r ∧
        q = .more label v after before r) ∨
      (comma < n ∧ rest.cut (n - comma - 1 - before.chars.length) = none ∧
        q = .last label v after) ∨
      (n ≤ comma ∧ ∃ w gap, v.cut (n - label.text.length) = some w ∧ q = .last label w gap) := by
  subst hcomma
  rw [Parts.cut] at h
  split at h
  · next hn =>
    split at h
    · next r hr =>
      cases h
      exact .inl ⟨hn, r, hr, rfl⟩
    · next hr =>
      cases h
      exact .inr (.inl ⟨hn, hr, rfl⟩)
  · next hn =>
    obtain ⟨w, hw, rfl⟩ := Option.map_eq_some_iff.mp h
    exact .inr (.inr ⟨Nat.not_lt.mp hn, w, _, hw, rfl⟩)

/-! ### Nothing and everything -/

mutual

theorem Written.cut_zero (v : Written) : v.cut 0 = none := by
  cases v with
  | null => rfl
  | bool b => cases b <;> rfl
  | number n => rfl
  | text pieces => rfl
  | empty keyed inside =>
    rw [Written.cut, if_pos]
    exact Nat.zero_lt_succ _
  | container keyed before parts =>
    rw [Written.cut, Nat.sub_sub, Nat.zero_sub, parts.cut_zero]
    rfl

theorem Parts.cut_zero {keyed : Bool} (p : Parts keyed) : p.cut 0 = none := by
  cases p with
  | last label v after =>
    rw [Parts.cut, if_neg (Nat.not_lt_zero _), Nat.zero_sub, v.cut_zero]
    rfl
  | more label v after before rest =>
    rw [Parts.cut]
    rw [if_neg (Nat.not_lt_zero _), Nat.zero_sub, v.cut_zero]
    rfl

end

theorem cutPieces_of_le {pieces : List Piece} (h : (innerText pieces).length ≤ n) :
    cutPieces pieces n = pieces := by
  induction pieces generalizing n with
  | nil => rfl
  | cons p ps ih =>
    have htext : innerText (p :: ps) = p.text ++ innerText ps := rfl
    rw [htext, List.length_append] at h
    rw [cutPieces, if_pos (by omega), ih (by omega)]

theorem cutPieces_prefix (pieces : List Piece) (h : n ≤ m) :
    cutPieces pieces n <+: cutPieces pieces m := by
  induction pieces generalizing n m with
  | nil => exact List.prefix_rfl
  | cons p ps ih =>
    rw [cutPieces, cutPieces]
    by_cases hn : p.text.length ≤ n
    · rw [if_pos hn, if_pos (Nat.le_trans hn h)]
      exact (List.prefix_cons_inj p).mpr (ih (Nat.sub_le_sub_right h _))
    · rw [if_neg hn]
      exact List.nil_prefix

mutual

/-- A value that is known up to its end is kept, unless it is a number. -/
theorem Written.cut_of_le (v : Written) {n : Nat} (h : v.chars.length ≤ n) :
    v.cut n = some v ∨ ∃ x, v = .number x := by
  cases v with
  | null => exact .inl (if_neg (Nat.not_lt.mpr h))
  | bool b => exact .inl (if_neg (Nat.not_lt.mpr h))
  | number x => exact .inr ⟨x, rfl⟩
  | text pieces =>
    simp only [Written.chars, quotedText, List.length_append, List.length_cons,
      List.length_nil] at h
    rw [Written.cut, if_neg (by omega), cutPieces_of_le (by omega)]
    exact .inl rfl
  | empty keyed inside => exact .inl (if_neg (Nat.not_lt.mpr h))
  | container keyed before parts =>
    simp only [Written.chars, List.length_append, List.length_cons] at h
    rw [Written.cut, parts.cut_of_le (by omega)]
    exact .inl rfl

theorem Parts.cut_of_le {keyed : Bool} (p : Parts keyed) {n : Nat} (h : p.chars.length ≤ n) :
    p.cut n = some p := by
  cases p with
  | last label v after =>
    simp only [Parts.chars, List.length_append, List.length_cons, List.length_nil] at h
    rw [Parts.cut, if_pos (by omega)]
  | more label v after before rest =>
    simp only [Parts.chars, List.length_append, List.length_cons] at h
    rw [Parts.cut]
    rw [if_pos (by omega), rest.cut_of_le (by omega)]

end

/-! ### More characters -/

mutual

/-- What remains of a value does not vanish when more of it is known. -/
theorem Written.cut_isSome (v : Written) {n m : Nat} (h : n ≤ m) (hn : (v.cut n).isSome = true) :
    (v.cut m).isSome = true := by
  cases v with
  | null =>
    rw [Written.cut] at hn ⊢
    split at hn
    · cases hn
    · next hlength => rw [if_neg (by omega)]; rfl
  | bool b =>
    rw [Written.cut] at hn ⊢
    split at hn
    · cases hn
    · next hlength => rw [if_neg (by omega)]; rfl
  | number x => cases hn
  | text pieces =>
    rw [Written.cut] at hn ⊢
    split at hn
    · cases hn
    · next hzero => rw [if_neg (by omega)]; rfl
  | empty keyed inside =>
    rw [Written.cut] at hn ⊢
    split at hn
    · cases hn
    · next hlength => rw [if_neg (by omega)]; rfl
  | container keyed before parts =>
    rw [Written.cut, Option.isSome_map] at hn ⊢
    exact parts.cut_isSome (by omega) hn

theorem Parts.cut_isSome {keyed : Bool} (p : Parts keyed) {n m : Nat} (h : n ≤ m)
    (hn : (p.cut n).isSome = true) : (p.cut m).isSome = true := by
  cases p with
  | last label v after =>
    rw [Parts.cut] at hn ⊢
    split
    · rfl
    · rw [if_neg (by omega), Option.isSome_map] at hn
      rw [Option.isSome_map]
      exact v.cut_isSome (by omega) hn
  | more label v after before rest =>
    rw [Parts.cut] at hn ⊢
    split
    · split <;> rfl
    · rw [if_neg (by omega), Option.isSome_map] at hn
      rw [Option.isSome_map]
      exact v.cut_isSome (by omega) hn

end

/-! ### Depth -/

mutual

theorem Written.depth_cut (v : Written) {n : Nat} {w : Written} (h : v.cut n = some w) :
    w.depth ≤ v.depth := by
  cases v with
  | null => cases (Option.ite_none_left_eq_some.mp h).2; exact Nat.le_refl _
  | bool b => cases (Option.ite_none_left_eq_some.mp h).2; exact Nat.le_refl _
  | number x => cases h
  | text pieces => cases (Option.ite_none_left_eq_some.mp h).2; exact Nat.le_refl _
  | empty keyed inside => cases (Option.ite_none_left_eq_some.mp h).2; exact Nat.le_refl _
  | container keyed before parts =>
    obtain ⟨q, hq, rfl⟩ := Option.map_eq_some_iff.mp h
    exact Nat.succ_le_succ (parts.depth_cut hq)

theorem Parts.depth_cut {keyed : Bool} (p : Parts keyed) {n : Nat} {q : Parts keyed}
    (h : p.cut n = some q) : q.depth ≤ p.depth := by
  cases p with
  | last label v after =>
    rcases Parts.cut_last_eq h with ⟨-, rfl⟩ | ⟨-, w, gap, hw, rfl⟩
    · exact Nat.le_refl _
    · exact v.depth_cut hw
  | more label v after before rest =>
    rcases Parts.cut_more_eq rfl h with ⟨-, r, hr, rfl⟩ | ⟨-, -, rfl⟩ | ⟨-, w, gap, hw, rfl⟩
    · exact Nat.max_le.mpr ⟨Nat.le_max_left _ _,
        Nat.le_trans (rest.depth_cut hr) (Nat.le_max_right _ _)⟩
    · exact Nat.le_max_left _ _
    · exact Nat.le_trans (v.depth_cut hw) (Nat.le_max_left _ _)

end

/-- The keys of parts are the first keys of all of them. -/
theorem Parts.names_cut (p : Parts keyed) {n : Nat} {q : Parts keyed} (h : p.cut n = some q) :
    Entries.names q.json <+: Entries.names p.json := by
  cases p with
  | last label v after =>
    rcases Parts.cut_last_eq h with ⟨-, rfl⟩ | ⟨-, w, gap, hw, rfl⟩ <;> exact List.prefix_rfl
  | more label v after before rest =>
    rcases Parts.cut_more_eq rfl h with ⟨-, r, hr, rfl⟩ | ⟨-, -, rfl⟩ | ⟨-, w, gap, hw, rfl⟩
    · exact (List.prefix_cons_inj _).mpr (rest.names_cut hr)
    · exact (List.prefix_cons_inj _).mpr List.nil_prefix
    · exact (List.prefix_cons_inj _).mpr List.nil_prefix

end StructuredOutput.Json

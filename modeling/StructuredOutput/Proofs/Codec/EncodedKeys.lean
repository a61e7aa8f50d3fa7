import StructuredOutput.Proofs.Codec.Instance
import StructuredOutput.Proofs.Content.Serialize

/-!
Encoded content repeats no key in an object, whatever keys the fields of a record have.
-/

namespace StructuredOutput

namespace Content

theorem keysDiffer_ofEntries {entries : List (String × Content)}
    (each : ∀ e ∈ entries, e.2.KeysDiffer) : (ofEntries entries).KeysDiffer := by
  have hnil : (Entries.names ([] : List (String × Content))).Nodup := List.nodup_nil
  obtain ⟨hnodup, hmem⟩ := Entries.putAll_spec hnil entries
  refine ⟨hnodup, entriesDiffer_iff.mpr fun e he => ?_⟩
  rcases hmem e he with he | he
  · cases he
  · exact each e he

end Content

namespace Encoding

open Content

variable {ds : Declarations}

theorem keysDiffer_ofFinite {fault : NumberFault} {x : Floating} {c : Content}
    (h : ofFinite fault x = .ok c) : c.KeysDiffer := by
  cases x <;> cases h
  trivial

theorem keysDiffer_leaf {shape : Shape} {v : Value} {path : Path} {c : Content}
    (h : leaf ds shape v path = .ok c) : c.KeysDiffer := by
  unfold leaf at h
  split at h
  · unfold primitive at h
    split at h
    · cases h
      trivial
    · cases h
      trivial
    · exact keysDiffer_ofFinite (Outcome.mapError_eq_ok.mp h)
    · exact keysDiffer_ofFinite (Outcome.mapError_eq_ok.mp h)
    · next x _ =>
      rw [Outcome.mapError_eq_ok] at h
      cases x <;> cases h
      trivial
    · cases h
  · split at h <;> cases h
    trivial
  · split at h
    · split at h <;> cases h
      trivial
    · cases h
  all_goals cases h

/-- The contents of the fields of a record repeat no key when those of its attributes do not. -/
theorem keysDiffer_entries {attrs : List (String × Value)} {fields : List FieldShape} {path : Path}
    {entries : List (String × Content)}
    (h : (fields.mapM fun f => (f.key, ·) <$> field ds attrs f path) = .ok entries)
    (each : ∀ e ∈ attrs, ∀ shape path c, value ds e.2 shape path = .ok c → c.KeysDiffer) :
    ∀ e ∈ entries, e.2.KeysDiffer := by
  intro e he
  obtain ⟨f, -, hf⟩ := Outcome.exists_mem_left (Outcome.mapM_eq_ok.mp h) he
  obtain ⟨c, hc, rfl⟩ := Outcome.functorMap_eq_ok.mp hf
  rw [field_eq] at hc
  cases hget : Entries.get? attrs f.attr with
  | none =>
    rw [hget] at hc
    cases hc
    trivial
  | some v =>
    rw [hget] at hc
    exact each (f.attr, v) (Entries.mem_of_get? hget) _ _ _ hc

mutual

/-- Encoded content repeats no key. -/
theorem keysDiffer_value (v : Value) {shape : Shape} {path : Path} {c : Content}
    (h : value ds v shape path = .ok c) : c.KeysDiffer := by
  match v with
  | .list items | .tuple items =>
    rw [value] at h
    cases hcore : shape.core with
    | array item container constraints =>
      rw [hcore] at h
      obtain ⟨cs, hcs, rfl⟩ := Outcome.map_eq_ok.mp h
      exact itemsDiffer_iff.mpr (keysDiffer_values items hcs)
    | _ =>
      rw [hcore] at h
      exact keysDiffer_leaf h
  | .record id attrs =>
    rw [value] at h
    cases hcore : shape.core with
    | record declared name description =>
      rw [hcore] at h
      dsimp only at h
      split at h
      · obtain ⟨fields, -, h⟩ := Outcome.bind_eq_ok.mp h
        obtain ⟨entries, hentries, h⟩ := Outcome.bind_eq_ok.mp h
        cases h
        exact keysDiffer_ofEntries
          (keysDiffer_entries hentries fun e he _ _ _ hc => keysDiffer_attrs attrs he hc)
      · exact keysDiffer_leaf h
    | union name description cases =>
      rw [hcore] at h
      dsimp only at h
      split at h
      · next found _ =>
        obtain ⟨fields, -, h⟩ := Outcome.bind_eq_ok.mp h
        obtain ⟨entries, hentries, h⟩ := Outcome.bind_eq_ok.mp h
        cases h
        apply keysDiffer_ofEntries
        intro e he
        rcases List.mem_cons.mp he with rfl | he
        · trivial
        · exact keysDiffer_entries hentries
            (fun e he _ _ _ hc => keysDiffer_attrs attrs he hc) e he
      · exact keysDiffer_leaf h
    | _ =>
      rw [hcore] at h
      exact keysDiffer_leaf h
  | .null =>
    rw [value] at h
    split at h
    · cases h
      trivial
    · exact keysDiffer_leaf h
  | .text _ | .bool _ | .integer _ | .real _ | .bytes _ | .set _ | .dict _ | .unknown | .object
  | .type _ | .member _ _ _ _ | .slots _ _ =>
    rw [value] at h
    · exact keysDiffer_leaf h
    all_goals simp

theorem keysDiffer_values (vs : List Value) {item : Shape} {path : Path} {i : Nat}
    {cs : List Content} (h : values ds vs item path i = .ok cs) : ∀ c ∈ cs, c.KeysDiffer := by
  match vs with
  | [] =>
    cases h
    simp
  | v :: vs =>
    rw [values] at h
    obtain ⟨c, hc, h⟩ := Outcome.bind_eq_ok.mp h
    obtain ⟨cs, hcs, h⟩ := Outcome.bind_eq_ok.mp h
    cases h
    intro d hd
    rcases List.mem_cons.mp hd with rfl | hd
    · exact keysDiffer_value v hc
    · exact keysDiffer_values vs hcs d hd

theorem keysDiffer_attrs (attrs : List (String × Value)) {e : String × Value} (he : e ∈ attrs)
    {shape : Shape} {path : Path} {c : Content} (h : value ds e.2 shape path = .ok c) :
    c.KeysDiffer := by
  match attrs with
  | [] => cases he
  | (n, v) :: rest =>
    rcases List.mem_cons.mp he with rfl | he
    · exact keysDiffer_value v h
    · exact keysDiffer_attrs rest he h

end

end Encoding

/-- No object of encoded content repeats a key. -/
theorem keysDiffer_encode {ds : Declarations} {v : Value} {t : TypeExpr} {c : Content}
    (h : encode ds v (some t) = .ok c) : c.KeysDiffer := by
  obtain ⟨shape, -, h⟩ := Outcome.bind_eq_ok.mp h
  exact Encoding.keysDiffer_value v h

end StructuredOutput

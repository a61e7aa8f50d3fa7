import StructuredOutput.Proofs.Entries
import StructuredOutput.Proofs.Outcome
import StructuredOutput.Shape.Fields

/-!
The fields of a record as they travel: their attributes and their keys differ, and each of them
comes from a declared field that is given when an instance is made.
-/

namespace StructuredOutput

/-- The shape of a field with its being optional. -/
def FieldShape.whole (f : FieldShape) : Shape := if f.optional then .optional f.shape else f.shape

theorem FieldShape.core_whole (f : FieldShape) : f.whole.core = f.shape.core := by
  unfold whole
  split <;> rfl

namespace Declarations

variable {ds : Declarations} {id : String} {fields : List FieldShape}

/-! ### Declared fields -/

theorem names_override_step (acc : List FieldDecl) (f : FieldDecl)
    (hacc : (acc.map (·.name)).Nodup) :
    ((if acc.any (·.name == f.name) then acc.map fun g => if g.name == f.name then f else g
      else acc ++ [f]).map (·.name)).Nodup := by
  split
  · have hname (g : FieldDecl) : (if g.name == f.name then f else g).name = g.name := by
      by_cases h : g.name = f.name <;> simp [h]
    simpa only [List.map_map, Function.comp_def, hname] using hacc
  · next h =>
    rw [List.map_append, List.nodup_append']
    refine ⟨hacc, List.nodup_singleton _, ?_⟩
    simpa [List.any_eq_true] using h

theorem override_nodup {inherited : List FieldDecl} (own : List FieldDecl)
    (h : (inherited.map (·.name)).Nodup) : ((override inherited own).map (·.name)).Nodup := by
  induction own generalizing inherited with
  | nil => exact h
  | cons f own ih => exact ih (names_override_step inherited f h)

/-- A record has one field of a name. -/
theorem fields_nodup (ds : Declarations) (id : String) : ((ds.fields id).map (·.name)).Nodup := by
  have hfold (rs : List RecordDecl) (acc : List FieldDecl) (hacc : (acc.map (·.name)).Nodup) :
      ((rs.foldl (fun acc r => override acc r.fields) acc).map (·.name)).Nodup := by
    induction rs generalizing acc with
    | nil => exact hacc
    | cons r rs ih => exact ih _ (override_nodup r.fields hacc)
  exact hfold _ [] List.nodup_nil

/-- The fields that are given when an instance is made are told by their names. -/
theorem mem_given_iff {f : FieldDecl} (hf : f ∈ ds.fields id) :
    f.name ∈ ((ds.fields id).filter (·.init)).map (·.name) ↔ f.init = true := by
  constructor
  · intro hname
    obtain ⟨g, hg, hgname⟩ := List.mem_map.mp hname
    rw [List.mem_filter] at hg
    have hgf : g = f := List.inj_on_of_nodup_map (fields_nodup ds id) hg.1 hf hgname
    exact hgf ▸ hg.2
  · exact fun hinit => List.mem_map_of_mem (List.mem_filter.mpr ⟨hf, hinit⟩)

theorem keyed_snd (ds : Declarations) (position : Nat) (fs : List FieldDecl) :
    (ds.keyed position fs).map (·.2) = fs := by
  induction fs generalizing position with
  | nil => rfl
  | cons f fs ih =>
    simp only [keyed]
    split <;> simp [ih]

theorem nodup_of_repeatedKeys {keys : List String} (h : repeatedKeys keys = []) : keys.Nodup := by
  rw [List.nodup_iff_count_le_one]
  intro key
  by_contra hcount
  have hmem : key ∈ keys := List.count_pos_iff.mp (by omega)
  have hrepeated : key ∈ repeatedKeys keys := by
    simp only [repeatedKeys, List.mem_mergeSort, Entries.mem_distinct, List.mem_filter,
      decide_eq_true_eq]
    exact ⟨hmem, by omega⟩
  simp [h] at hrepeated

/-! ### Fields as they travel -/

/-- A field as it travels has the name of its declaration and the shape of the declared type. -/
structure Travels (ds : Declarations) (f : FieldDecl) (s : FieldShape) : Prop where
  attr : s.attr = f.name
  shape : ds.shapeOf f.type = .ok s.whole

theorem travels_of_fieldShape {key : String} {f : FieldDecl} {s : FieldShape}
    (h : ds.fieldShape id key f = .ok s) : ds.Travels f s ∧ s.key = key := by
  unfold fieldShape at h
  split at h
  · next inner hinner =>
    cases h
    exact ⟨⟨rfl, hinner⟩, rfl⟩
  · next shape _ hshape =>
    cases h
    exact ⟨⟨rfl, hshape⟩, rfl⟩
  · cases h
  · cases h

/-- What the fields of a record are when they resolve. -/
structure Fielded (ds : Declarations) (id : String) (fields : List FieldShape) : Prop where
  travels : List.Forall₂ ds.Travels ((ds.fields id).filter (·.init)) fields
  keys : (fields.map (·.key)).Nodup

theorem fielded_of_fieldShapes (h : ds.fieldShapes id = .ok fields) : ds.Fielded id fields := by
  unfold fieldShapes at h
  split at h
  · cases h
  obtain ⟨shapes, hshapes, hkeys⟩ := Outcome.bind_eq_ok.mp h
  split at hkeys
  · next hrepeated =>
    cases hkeys
    refine ⟨?_, nodup_of_repeatedKeys hrepeated⟩
    rw [Outcome.mapM_eq_ok] at hshapes
    rw [← keyed_snd ds 0 ((ds.fields id).filter (·.init)), List.forall₂_map_left_iff]
    exact hshapes.imp fun _ _ hshape => (travels_of_fieldShape hshape).1
  · cases hkeys

theorem Fielded.attrs_eq (h : ds.Fielded id fields) :
    fields.map (·.attr) = ((ds.fields id).filter (·.init)).map (·.name) := by
  have hmap {fs : List FieldDecl} {ss : List FieldShape} (h : List.Forall₂ ds.Travels fs ss) :
      ss.map (·.attr) = fs.map (·.name) := by
    induction h with
    | nil => rfl
    | cons ht _ ih => simp [ht.attr, ih]
  exact hmap h.travels

theorem Fielded.attrs_nodup (h : ds.Fielded id fields) : (fields.map (·.attr)).Nodup := by
  rw [h.attrs_eq]
  exact (fields_nodup ds id).sublist (List.filter_sublist.map _)

/-- The declaration of a field that travels. -/
theorem Fielded.exists_decl (h : ds.Fielded id fields) {s : FieldShape} (hs : s ∈ fields) :
    ∃ f ∈ ds.fields id, f.init = true ∧ ds.Travels f s := by
  obtain ⟨f, hf, ht⟩ := Outcome.exists_mem_left h.travels hs
  rw [List.mem_filter] at hf
  exact ⟨f, hf.1, hf.2, ht⟩

end Declarations

end StructuredOutput

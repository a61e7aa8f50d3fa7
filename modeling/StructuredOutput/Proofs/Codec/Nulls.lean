import StructuredOutput.Proofs.Codec.Conforms
import StructuredOutput.Proofs.Codec.Discriminator

/-!
Where null is in encoded content: where a part of the value is null, and nowhere else.
-/

namespace StructuredOutput

variable {ds : Declarations}

/-! ### Values -/

/-- No part of a value is null, itself included. -/
def Site.Present (ds : Declarations) (site : Site) : Prop :=
  ∀ s, Inside ds s site → s.value ≠ .null

namespace Site

variable {v : Value} {shape inner item : Shape} {rules constraints : List Constraint}
  {container : Container}

theorem present_leaf (hv : v ≠ .null) (hrecords : shape.records = [])
    (harray : ∀ item container constraints, shape ≠ .array item container constraints)
    (hoptional : ∀ inner, shape ≠ .optional inner) : Present ds ⟨v, shape, rules⟩ := by
  intro s hs
  cases hs with
  | refl => exact hv
  | item => exact absurd rfl (harray _ _ _)
  | field read => exact absurd (hrecords ▸ read) List.not_mem_nil
  | present => exact absurd rfl (hoptional _)

theorem present_array (hv : v ≠ .null) :
    Present ds ⟨v, .array item container constraints, rules⟩ ↔
      ∀ u ∈ v.items, Present ds ⟨u, item, item.itemRules rules⟩ := by
  refine ⟨fun h u hu s hs => h s (.item hu hs container constraints), fun h s hs => ?_⟩
  cases hs with
  | refl => exact hv
  | item mem inner => exact h _ mem s inner
  | field read => cases read

theorem present_record {id : String} {attrs : List (String × Value)} {fields : List FieldShape}
    (hid : id ∈ shape.records) (hfields : ds.fieldShapes id = .ok fields) :
    Present ds ⟨.record id attrs, shape, rules⟩ ↔ ∀ f ∈ fields, ∀ u,
      Entries.get? attrs f.attr = some u → Present ds ⟨u, f.whole, f.whole.constraints⟩ := by
  refine ⟨fun h f hf u hu s hs => h s (.field hid hfields hf hu hs rules), fun h s hs => ?_⟩
  cases hs with
  | refl => exact fun heq => by cases heq
  | item | present => cases hid
  | field _ resolved mem given inner =>
    obtain rfl := Except.ok.inj (hfields.symm.trans resolved)
    exact h _ mem _ given s inner

theorem present_optional (hv : v ≠ .null) :
    Present ds ⟨v, .optional inner, rules⟩ ↔ Present ds ⟨v, inner, inner.constraints⟩ := by
  refine ⟨fun h s hs => h s (.present hs rules), fun h s hs => ?_⟩
  cases hs with
  | refl => exact hv
  | field read => cases read
  | present inner => exact h s inner

theorem not_present_null : ¬ Present ds ⟨.null, shape, rules⟩ := fun h => h _ .refl rfl

end Site

/-! ### Encoded content -/

namespace Encoding

theorem forall₂_of_values {vs : List Value} {item : Shape} {path : Path} {i : Nat}
    {cs : List Content} (h : values ds vs item path i = .ok cs) :
    List.Forall₂ (fun v c => ∃ path, value ds v item path = .ok c) vs cs := by
  induction vs generalizing i cs with
  | nil =>
    cases h
    exact .nil
  | cons v vs ih =>
    rw [values] at h
    obtain ⟨c, hc, h⟩ := Outcome.bind_eq_ok.mp h
    obtain ⟨rest, hrest, h⟩ := Outcome.bind_eq_ok.mp h
    cases h
    exact .cons ⟨_, hc⟩ (ih hrest)

/-- An instance of a record is encoded as its fields. -/
theorem exists_entries_of_record {id name : String} {description : Option String}
    {attrs : List (String × Value)} {path : Path} {c : Content}
    (h : value ds (.record id attrs) (.record id name description) path = .ok c) :
    ∃ fields entries, ds.fieldShapes id = .ok fields ∧
      FieldEntries ds attrs path fields entries ∧ c = .object entries := by
  simp only [value, Shape.core, Declarations.isSubrecord_self, if_true, Outcome.bind_eq_ok,
    Outcome.mapError_eq_ok] at h
  obtain ⟨fields, hfields, entries, hentries, h⟩ := h
  cases h
  have hwritten := fieldEntries_of_mapM hentries
  have hkeys : (Entries.names entries).Nodup :=
    hwritten.names ▸ (Declarations.fielded_of_fieldShapes hfields).keys
  exact ⟨fields, entries, hfields, hwritten, by
    rw [Content.ofEntries, Entries.ofList_of_nodup hkeys]⟩

end Encoding

/-- Null is in what a value is encoded to just where it is in the value. -/
def KeepsNulls (ds : Declarations) (v : Value) (shape : Shape) (rules : List Constraint) : Prop :=
  ∀ path c, Encoding.value ds v shape path = .ok c →
    (c.NullFree ↔ Site.Present ds ⟨v, shape, rules⟩)

namespace KeepsNulls

variable {rules : List Constraint}

theorem of_scalar {v : Value} {shape : Shape} (hv : v ≠ .null) (hrecords : shape.records = [])
    (harray : ∀ item container constraints, shape ≠ .array item container constraints)
    (hoptional : ∀ inner, shape ≠ .optional inner)
    {scalar : Content} (h : ∀ path, Encoding.value ds v shape path = .ok scalar)
    (hne : scalar ≠ .null) (hparts : scalar.parts = []) : KeepsNulls ds v shape rules := by
  intro path c hc
  obtain rfl : scalar = c := Except.ok.inj ((h path).symm.trans hc)
  refine iff_of_true (.intro hne fun part hpart => ?_)
    (Site.present_leaf hv hrecords harray hoptional)
  exact absurd (hparts ▸ hpart) List.not_mem_nil

theorem items {items : List Value} {item : Shape} {path : Path} {cs : List Content}
    (each : ∀ v ∈ items, KeepsNulls ds v item (item.itemRules rules))
    (h : Encoding.values ds items item path 0 = .ok cs) : (∀ c ∈ cs, c.NullFree) ↔
      ∀ v ∈ items, Site.Present ds ⟨v, item, item.itemRules rules⟩ := by
  have hall := Encoding.forall₂_of_values h
  constructor
  · intro hcs v hv
    obtain ⟨c, hc, path, hvalue⟩ := Outcome.exists_mem_right hall hv
    exact (each v hv path c hvalue).mp (hcs c hc)
  · intro hitems c hc
    obtain ⟨v, hv, path, hvalue⟩ := Outcome.exists_mem_left hall hc
    exact (each v hv path c hvalue).mpr (hitems v hv)

theorem array {items : List Value} {item : Shape} {constraints : List Constraint}
    (container : Container)
    (each : ∀ v ∈ items, KeepsNulls ds v item (item.itemRules rules)) :
    KeepsNulls ds (container.collect items) (.array item container constraints) rules := by
  intro path c hc
  rw [Encoding.value_collect rfl] at hc
  obtain ⟨cs, hcs, rfl⟩ := Outcome.map_eq_ok.mp hc
  rw [Content.nullFree_array, Site.present_array (by cases container <;> simp [Container.collect])]
  cases container <;> exact KeepsNulls.items each hcs

theorem fields {id : String} {attrs : List (String × Value)} {fields : List FieldShape}
    {path : Path} {entries : List (String × Content)} (populated : Populated ds id attrs)
    (hfields : ds.fieldShapes id = .ok fields)
    (each : ∀ f ∈ fields, ∀ v, Entries.get? attrs f.attr = some v →
      KeepsNulls ds v f.whole f.whole.constraints)
    (h : Encoding.FieldEntries ds attrs path fields entries) : (∀ e ∈ entries, e.2.NullFree) ↔
      ∀ f ∈ fields, ∀ v, Entries.get? attrs f.attr = some v →
        Site.Present ds ⟨v, f.whole, f.whole.constraints⟩ := by
  have hvalue {f : FieldShape} {e : String × Content} {v : Value}
      (hfield : Encoding.field ds attrs f path = .ok e.2)
      (hv : Entries.get? attrs f.attr = some v) :
      Encoding.value ds v f.whole (path.key f.key) = .ok e.2 := by
    rwa [Encoding.field_eq, hv] at hfield
  constructor
  · intro hentries f hf v hv
    obtain ⟨e, he, -, hfield⟩ := Outcome.exists_mem_right h hf
    exact (each f hf v hv _ _ (hvalue hfield hv)).mp (hentries e he)
  · intro hpresent e he
    obtain ⟨f, hf, -, hfield⟩ := Outcome.exists_mem_left h he
    obtain ⟨v, hv⟩ := populated.exists_value (Declarations.fielded_of_fieldShapes hfields) hf
    exact (each f hf v hv _ _ (hvalue hfield hv)).mpr (hpresent f hf v hv)

theorem null {inner : Shape} : KeepsNulls ds .null (.optional inner) rules := by
  intro path c hc
  rw [Encoding.value_optional_null] at hc
  cases hc
  exact iff_of_false (fun h => h.ne_null rfl) Site.not_present_null

theorem record {id name : String} {description : Option String} {attrs : List (String × Value)}
    (populated : Populated ds id attrs)
    (each : ∀ fields, ds.fieldShapes id = .ok fields → ∀ f ∈ fields, ∀ v,
      Entries.get? attrs f.attr = some v → KeepsNulls ds v f.whole f.whole.constraints) :
    KeepsNulls ds (.record id attrs) (.record id name description) rules := by
  intro path c hc
  have hid : id ∈ (Shape.record id name description).records := List.mem_singleton_self id
  obtain ⟨fields, entries, hfields, hentries, rfl⟩ := Encoding.exists_entries_of_record hc
  rw [Content.nullFree_object, Site.present_record hid hfields]
  exact KeepsNulls.fields populated hfields (each fields hfields) hentries

/-- The tag of a case is not null, so only its fields count. -/
theorem case {id name : String} {description : Option String} {cases : List Case}
    {attrs : List (String × Value)} (populated : Populated ds id attrs)
    (hid : id ∈ (Shape.union name description cases).records)
    (huntagged : Untagged ds (.union name description cases))
    (each : ∀ fields, ds.fieldShapes id = .ok fields → ∀ f ∈ fields, ∀ v,
      Entries.get? attrs f.attr = some v → KeepsNulls ds v f.whole f.whole.constraints) :
    KeepsNulls ds (.record id attrs) (.union name description cases) rules := by
  intro path c hc
  obtain ⟨found, fields, entries, hmem, hrecord, hfields, hentries, rfl⟩ :=
    Encoding.exists_entries_of_case rfl hid hc
  have hkey := huntagged name description cases (.refl _) found hmem fields (hrecord ▸ hfields)
  have htag : (Content.string found.tag).NullFree :=
    .intro (by simp) fun part hpart => absurd hpart List.not_mem_nil
  rw [Encoding.ofEntries_of_untagged _ (Declarations.fielded_of_fieldShapes hfields).keys
    hentries hkey, Content.nullFree_object, Site.present_record hid hfields,
    List.forall_mem_cons, and_iff_right htag]
  exact KeepsNulls.fields populated hfields (each fields hfields) hentries

end KeepsNulls

/-- A well-typed value is encoded to content in which null is where it is in the value. -/
theorem WellTyped.keepsNulls {v : Value} {shape : Shape} (h : WellTyped ds v shape)
    (huntagged : Untagged ds shape) (rules : List Constraint) : KeepsNulls ds v shape rules := by
  induction h generalizing rules with
  | text s =>
    exact .of_scalar (by simp) rfl (by simp) (by simp) (Encoding.value_text rfl s) (by simp) rfl
  | bool b =>
    exact .of_scalar (by simp) rfl (by simp) (by simp) (Encoding.value_bool rfl b) (by simp) rfl
  | real x =>
    exact .of_scalar (by simp) rfl (by simp) (by simp) (Encoding.value_real rfl x) (by simp) rfl
  | @literal s =>
    exact .of_scalar (by simp) rfl (by simp) (by simp) (Encoding.value_literal rfl s) (by simp) rfl
  | integer exact =>
    obtain ⟨y, hy, -⟩ := Double.exists_ofInt_of_signedUnits exact
    exact .of_scalar (by simp) rfl (by simp) (by simp) (Encoding.value_integer rfl hy) (by simp) rfl
  | @member id m =>
    exact .of_scalar (by simp [EnumDecl.memberValue]) rfl (by simp) (by simp)
      (Encoding.value_member rfl m) (by simp) rfl
  | @list items item each constraints ih =>
    have hitem : Reaches ds (.array item .list constraints) item := .item (.refl item)
    exact .array .list fun v hv => ih v hv (huntagged.of_reaches hitem) _
  | @tuple items item each constraints ih =>
    have hitem : Reaches ds (.array item .tuple constraints) item := .item (.refl item)
    exact .array .tuple fun v hv => ih v hv (huntagged.of_reaches hitem) _
  | @record id attrs populated given name description ih =>
    refine .record populated fun fields hfields f hf v hv => ?_
    have hreach : Reaches ds (Shape.record id name description) f.whole :=
      .field (List.mem_singleton_self id) hfields hf (.refl _)
    exact ih fields hfields f hf v hv (huntagged.of_reaches hreach) _
  | @union id attrs cases case populated given name description ih =>
    refine .case populated case huntagged fun fields hfields f hf v hv => ?_
    have hreach : Reaches ds (Shape.union name description cases) f.whole :=
      .field case hfields hf (.refl _)
    exact ih fields hfields f hf v hv (huntagged.of_reaches hreach) _
  | null inner => exact .null
  | @present v inner inside ih =>
    by_cases hv : v = .null
    · exact hv ▸ .null
    · intro path c hc
      rw [Encoding.value_optional hv] at hc
      rw [Site.present_optional hv]
      exact ih (huntagged.of_reaches (.optional (.refl inner))) _ path c hc

end StructuredOutput

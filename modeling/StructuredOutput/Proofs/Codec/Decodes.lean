import StructuredOutput.Proofs.Codec.Inversion
import StructuredOutput.Proofs.Schema.Fits

/-!
When content decodes: shape by shape, from the kind of the content and from its parts. The name
of a record, an enumeration or a union makes no difference.
-/

namespace StructuredOutput

/-- Content decodes to some value of a shape, wherever it stands. -/
def Decodes (ds : Declarations) (c : Content) (shape : Shape) : Prop :=
  ∀ path, ∃ v, Decoding.value ds c shape path = .ok v

namespace Decodes

variable {ds : Declarations} {c : Content}

theorem text (s : String) (constraints : List Constraint) :
    Decodes ds (.string s) (.primitive .text constraints) :=
  fun path => ⟨.text s, Decoding.value_text rfl s path⟩

theorem bool (b : Bool) (constraints : List Constraint) :
    Decodes ds (.bool b) (.primitive .bool constraints) :=
  fun path => ⟨.bool b, Decoding.value_bool rfl b path⟩

theorem real (x : Double) (constraints : List Constraint) :
    Decodes ds (.number x) (.primitive .real constraints) :=
  fun path => ⟨.real (.finite x), Decoding.value_real rfl x path⟩

theorem integer {x : Double} (h : x.isIntegral = true) (constraints : List Constraint) :
    Decodes ds (.number x) (.primitive .integer constraints) :=
  fun path => ⟨.integer x.truncate,
    Decoding.value_integer rfl (Double.toInt?_eq_some.mpr ⟨h, rfl⟩) path⟩

theorem literal_iff {values : List String} {constraints : List Constraint} :
    Decodes ds c (.literal values constraints) ↔ ∃ s ∈ values, c = .string s := by
  constructor
  · intro h
    obtain ⟨v, hv⟩ := h .top
    cases Decoding.gives_of_value hv with
    | null optional => cases optional
    | leaf holds =>
      cases holds with
      | literal option => exact ⟨_, option, rfl⟩
    | items core => cases core
    | made belongs => cases belongs
  · rintro ⟨s, hs, rfl⟩ path
    exact ⟨.text s, Decoding.value_literal rfl hs path⟩

theorem enum {id wire : String} (h : wire ∈ (ds.enumOf id).wires.map (·.1)) (name : String)
    (description : Option String) : Decodes ds (.string wire) (.enum id name description) := by
  intro path
  cases hget : Entries.get? (ds.enumOf id).wires wire with
  | none => exact absurd h (Entries.get?_eq_none.mp hget)
  | some m =>
    exact ⟨(ds.enumOf id).memberValue id m, Decoding.value_member rfl hget path⟩

theorem array {items : List Content} {item : Shape} (h : ∀ c ∈ items, Decodes ds c item)
    (container : Container) (constraints : List Constraint) :
    Decodes ds (.array items) (.array item container constraints) := by
  have hvalues (path : Path) (i : Nat) : ∃ vs, Decoding.values ds items item path i = .ok vs := by
    induction items generalizing i with
    | nil => exact ⟨[], rfl⟩
    | cons c cs ih =>
      obtain ⟨v, hv⟩ := h c List.mem_cons_self (path.index i)
      obtain ⟨vs, hvs⟩ := ih (fun c' hc' => h c' (List.mem_cons_of_mem c hc')) (i + 1)
      exact ⟨v :: vs, by simp [Decoding.values, hv, hvs]⟩
  intro path
  obtain ⟨vs, hvs⟩ := hvalues path 0
  exact ⟨container.collect vs, by rw [Decoding.value_array rfl, hvs, Except.map]⟩

theorem null (inner : Shape) : Decodes ds .null (.optional inner) :=
  fun path => ⟨.null, Decoding.value_optional_null inner path⟩

theorem optional {inner : Shape} (h : Decodes ds c inner) : Decodes ds c (.optional inner) := by
  cases hnull : c.isNull with
  | true =>
    obtain rfl := Content.isNull_eq_true.mp hnull
    exact null inner
  | false =>
    intro path
    rw [Decoding.value_optional hnull]
    exact h path

theorem whole {f : FieldShape} (h : f.optional = true ∧ c = .null ∨ Decodes ds c f.shape) :
    Decodes ds c f.whole := by
  unfold FieldShape.whole
  split
  · rcases h with ⟨-, rfl⟩ | h
    · exact null f.shape
    · exact h.optional
  · next hoptional =>
    rcases h with ⟨htrue, -⟩ | h
    · exact absurd htrue hoptional
    · exact h

/-! ### Objects -/

/-- The entries of an object have what each of the fields needs. -/
def Supplies (ds : Declarations) (entries : List (String × Content)) (fields : List FieldShape) :
    Prop :=
  ∀ f ∈ fields, ∀ path, ∃ v, Decoding.field ds entries f path = .ok v

theorem Supplies.exists_given {entries : List (String × Content)} {fields : List FieldShape}
    (h : Supplies ds entries fields) (path : Path) :
    ∃ given, (fields.mapM fun f => (f.attr, ·) <$> Decoding.field ds entries f path) =
      .ok given := by
  refine Outcome.exists_mapM fun f hf => ?_
  obtain ⟨v, hv⟩ := h f hf path
  exact ⟨(f.attr, v), Outcome.functorMap_eq_ok.mpr ⟨v, hv, rfl⟩⟩

theorem record {entries : List (String × Content)} {id : String} {fields : List FieldShape}
    (hfields : ds.fieldShapes id = .ok fields) (h : Supplies ds entries fields) (name : String)
    (description : Option String) : Decodes ds (.object entries) (.record id name description) := by
  intro path
  obtain ⟨given, hgiven⟩ := h.exists_given path
  exact ⟨ds.instantiate id given, Decoding.value_record rfl hfields hgiven⟩

theorem union {entries : List (String × Content)} {cases : List Case} {found : Case}
    {fields : List FieldShape}
    (htag : Entries.get? entries discriminatorKey = some (.string found.tag))
    (hfound : caseFor? cases found.tag = some found)
    (hfields : ds.fieldShapes found.record = .ok fields) (h : Supplies ds entries fields)
    (name : String) (description : Option String) :
    Decodes ds (.object entries) (.union name description cases) := by
  intro path
  obtain ⟨given, hgiven⟩ := h.exists_given path
  have hcase : Decoding.caseOf cases entries path = .ok found :=
    Decoding.caseOf_eq_ok.mpr ⟨found.tag, htag, hfound⟩
  exact ⟨ds.instantiate found.record given, Decoding.value_case rfl hcase hfields hgiven⟩

theorem union_inv {name : String} {description : Option String} {cases : List Case}
    (h : Decodes ds c (.union name description cases)) :
    ∃ entries found fields, c = .object entries ∧
      Entries.get? entries discriminatorKey = some (.string found.tag) ∧ found ∈ cases ∧
        ds.fieldShapes found.record = .ok fields ∧ Supplies ds entries fields := by
  -- the value that a path leads to says which case the content names
  have hgives (path : Path) : ∃ entries found fields given, c = .object entries ∧
      Snapshot.caseOf? cases entries = some found ∧ ds.fieldShapes found.record = .ok fields ∧
        (fields.mapM fun f => (f.attr, ·) <$> Decoding.field ds entries f path) = .ok given := by
    obtain ⟨v, hv⟩ := h path
    cases Decoding.gives_of_value hv with
    | null optional => cases optional
    | leaf holds => cases holds
    | items core => cases core
    | @made _ entries _ fields given belongs resolved hgiven =>
      obtain ⟨found, named, rfl⟩ := Option.map_eq_some_iff.mp belongs
      exact ⟨entries, found, fields, given, rfl, named, resolved, hgiven⟩
  obtain ⟨entries, found, fields, given, rfl, named, resolved, -⟩ := hgives .top
  have hcase : Decoding.caseOf cases entries .top = .ok found :=
    Decoding.caseOf_eq_ok_iff.mpr named
  obtain ⟨tag, htag, hfound⟩ := Decoding.caseOf_eq_ok.mp hcase
  obtain ⟨hmem, rfl⟩ := mem_of_caseFor? hfound
  refine ⟨entries, found, fields, rfl, htag, hmem, resolved, fun f hf path => ?_⟩
  obtain ⟨_, found', fields', given', hobject, named', resolved', hgiven'⟩ := hgives path
  cases hobject
  cases named.symm.trans named'
  cases resolved.symm.trans resolved'
  obtain ⟨e, -, he⟩ := Outcome.exists_mem_right (Outcome.mapM_eq_ok.mp hgiven') hf
  obtain ⟨w, hw, -⟩ := Outcome.functorMap_eq_ok.mp he
  exact ⟨w, hw⟩

/-! ### Roles -/

theorem record_congr {id name : String} {description : Option String}
    (h : Decodes ds c (.record id name description)) (name' : String)
    (description' : Option String) : Decodes ds c (.record id name' description') := by
  intro path
  obtain ⟨v, hv⟩ := h path
  refine ⟨v, hv ▸ ?_⟩
  cases c <;> simp [Decoding.value, Shape.core, Shape.isOptional, Decoding.leaf]

theorem enum_congr {id name : String} {description : Option String}
    (h : Decodes ds c (.enum id name description)) (name' : String)
    (description' : Option String) : Decodes ds c (.enum id name' description') := by
  intro path
  obtain ⟨v, hv⟩ := h path
  refine ⟨v, hv ▸ ?_⟩
  cases c <;> simp [Decoding.value, Shape.core, Shape.isOptional, Decoding.leaf]

theorem union_congr {name : String} {cases : List Case} {description : Option String}
    (h : Decodes ds c (.union name description cases)) (name' : String)
    (description' : Option String) : Decodes ds c (.union name' description' cases) := by
  intro path
  obtain ⟨v, hv⟩ := h path
  refine ⟨v, hv ▸ ?_⟩
  cases c <;> simp [Decoding.value, Shape.core, Shape.isOptional, Decoding.leaf]

/-- Content decodes alike to all shapes that one role describes. -/
theorem of_describes {role : Role} {s t : Shape} (hs : role.Describes ds s)
    (ht : role.Describes ds t) (h : Decodes ds c s) : Decodes ds c t := by
  cases role with
  | enum id =>
    cases s <;> cases hs
    cases t <;> cases ht
    exact h.enum_congr _ _
  | record id =>
    cases s <;> cases hs
    cases t <;> cases ht
    exact h.record_congr _ _
  | union | case =>
    cases s <;> cases hs
    cases t <;> cases ht
    exact h.union_congr _ _

/-- What decodes to a union of one case decodes to every union that has the case. -/
theorem of_case {one : Case} {cases : List Case} {name : String} {description : Option String}
    (h : Decodes ds c (.union name description [one])) (hcase : one ∈ cases)
    (htags : (cases.map (·.tag)).Nodup) (name' : String) (description' : Option String) :
    Decodes ds c (.union name' description' cases) := by
  obtain ⟨entries, found, fields, rfl, htag, hmem, hfields, hsupplies⟩ := h.union_inv
  obtain rfl := List.mem_singleton.mp hmem
  exact union htag (caseFor?_of_mem hcase htags) hfields hsupplies name' description'

end Decodes

end StructuredOutput

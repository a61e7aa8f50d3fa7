import StructuredOutput.Constraint.Checked
import StructuredOutput.Proofs.Schema.Mirrors

/-!
Texts that must be among some options have at least one: no refinement without options can be made,
a literal has a value, and nothing is lost between a shape and its schema.
-/

namespace StructuredOutput

/-! ### Refinements -/

/-- Whether a rule that names options names any. -/
def TextRule.offers : TextRule → Bool
  | oneOf values => !values.isEmpty
  | _ => true

/-- Whether a refinement that names options names any. -/
def Constraint.offers : Constraint → Bool
  | text rule => rule.offers
  | element inner => inner.offers
  | _ => true

/-- There is no refinement without options. -/
theorem Constraint.offers_of_ofOptions {vs : List Value} {c : Constraint}
    (h : ofOptions vs = .ok c) : c.offers = true := by
  cases vs with
  | nil => cases h
  | cons v vs =>
    rw [ofOptions, List.isEmpty_cons, if_neg Bool.false_ne_true, List.mapM_cons] at h
    cases hv : v.asText? with
    | none => simp [hv] at h
    | some s =>
      cases hvs : vs.mapM Value.asText? with
      | none => simp [hv, hvs] at h
      | some values =>
        rw [hv, hvs] at h
        cases h
        rfl

variable {ds : Declarations}

/-- No refinement that a shape reaches leaves texts without options. -/
def Offering (ds : Declarations) (shape : Shape) : Prop :=
  ∀ s, Reaches ds shape s → ∀ c ∈ s.constraints, c.offers = true

theorem Offering.of_reaches {s t : Shape} (h : Offering ds s) (hst : Reaches ds s t) :
    Offering ds t :=
  fun u htu => h u (hst.trans htu)

theorem Offering.of_case {name : String} {description : Option String}
    {cases : List Case} {one : Case} (h : Offering ds (.union name description cases))
    (hone : one ∈ cases) : Offering ds (.union "" none [one]) := by
  intro t ht c hc
  rcases ht.of_case hone with rfl | ht
  · cases hc
  · exact h t ht c hc

/-! ### Schemas -/

/-- The texts in a schema have options, if they have to be among some. -/
def Schema.Offers (s : Schema) : Prop :=
  ∀ own, (Schema.string own).Within s → ∀ rule ∈ own, rule.offers = true

namespace Schema.Offers

variable {s : Schema}

theorem of_parts (hself : ∀ own, s = .string own → ∀ rule ∈ own, rule.offers = true)
    (hparts : ∀ part ∈ s.parts, part.Offers) : s.Offers := by
  intro own hown
  rcases hown.eq_or_part with heq | ⟨part, hpart, hwithin⟩
  · exact hself own heq.symm
  · exact hparts part hpart own hwithin

theorem string {own : List TextRule} (h : ∀ rule ∈ own, rule.offers = true) :
    (Schema.string own).Offers :=
  of_parts (by rintro _ ⟨⟩; exact h) fun _ hpart => absurd hpart List.not_mem_nil

end Schema.Offers

theorem offers_choice {values : List String} (h : values ≠ []) :
    (Derivation.choice values).offers = true := by
  unfold Derivation.choice
  split
  · rfl
  · simpa [TextRule.offers] using h

/-- A schema has options for its texts, if the refinements of its shape and those in force do. -/
theorem Mirrors.offers {names : RoleNames} {s : Schema} {shape : Shape} {rules : List Constraint}
    (h : Mirrors ds names s shape rules) (hcoherent : shape.Coherent ds)
    (hoffering : Offering ds shape) (hrules : ∀ c ∈ rules, c.offers = true) : s.Offers := by
  have hown {own : List TextRule} (hmap : ∀ c ∈ own.map Constraint.text, c.offers = true) :
      ∀ rule ∈ own, rule.offers = true := fun rule hrule => hmap _ (List.mem_map_of_mem hrule)
  have hfields {whole : Shape} {id : String} {properties : List (Property Schema)}
      {fields : List FieldShape} (hid : id ∈ whole.records) (hwhole : Offering ds whole)
      (hresolved : ds.fieldShapes id = .ok fields) (haligned : properties.length = fields.length)
      (ih : ∀ p f, (p, f) ∈ properties.zip fields → f.shape.Coherent ds → Offering ds f.shape →
        (∀ c ∈ f.shape.constraints, c.offers = true) → p.schema.Offers) :
      ∀ part ∈ properties.map (·.schema), part.Offers := by
    refine List.forall_mem_map.mpr fun p hp => ?_
    obtain ⟨f, hf, hmem⟩ := Outcome.exists_mem_right
      (List.forall₂_iff_zip.mpr ⟨haligned, fun hmem => hmem⟩) hp
    have hreach : Reaches ds whole f.shape := .field hid hresolved hf (.shape_of_field f)
    have hcoherent := (Declarations.fielded_of_fieldShapes hresolved).coherent hf
    exact ih p f hmem ((Reaches.shape_of_field f).coherent hcoherent) (hwhole.of_reaches hreach)
      (hwhole _ hreach)
  induction h with
  | text own constraints => exact .string (hown hrules)
  | literal own values constraints =>
    exact .string (List.forall_mem_cons.mpr ⟨offers_choice hcoherent, hown hrules⟩)
  | integer | real | bool | ref =>
    exact .of_parts (by rintro _ ⟨⟩) fun _ hpart => absurd hpart List.not_mem_nil
  | @array item shape given items container constraints ih =>
    have hitem : Reaches ds (.array shape container constraints) shape := .item (.refl shape)
    refine .of_parts (by rintro _ ⟨⟩) (List.forall_mem_singleton.mpr ?_)
    refine ih hcoherent.2 (hoffering.of_reaches hitem) fun c hc => ?_
    rcases List.mem_append.mp hc with hc | hc
    · exact hoffering shape hitem c hc
    · obtain ⟨outer, houter, hinner⟩ := List.mem_filterMap.mp hc
      cases outer <;> cases hinner
      have hnested := hrules _ houter
      exact hnested
  | enum =>
    refine .of_parts (by rintro _ ⟨⟩) fun part hpart => ?_
    obtain ⟨w, -, rfl⟩ := List.mem_map.mp hpart
    exact .string (List.forall_mem_singleton.mpr rfl)
  | record named resolved alike _ _ _ _ ih =>
    exact .of_parts (by rintro _ ⟨⟩)
      (hfields (List.mem_singleton_self _) hoffering resolved alike.length_eq ih)
  | case named resolved untagged alike _ _ _ _ ih =>
    refine .of_parts (by rintro _ ⟨⟩) (List.forall_mem_cons.mpr ⟨?_, ?_⟩)
    · exact .string (List.forall_mem_singleton.mpr rfl)
    · exact hfields (List.mem_singleton_self _) hoffering resolved alike.length_eq ih
  | union named distinct aligned defined _ _ _ _ ih =>
    refine .of_parts (by rintro _ ⟨⟩) fun part hpart => ?_
    obtain ⟨id, hid, hmem⟩ := Outcome.exists_mem_right
      (List.forall₂_iff_zip.mpr ⟨aligned, fun hmem => hmem⟩) hpart
    have hcoherent : (Shape.union "" none [⟨id, ds.caseTag id⟩]).Coherent ds :=
      ⟨List.nodup_singleton _, List.forall_mem_singleton.mpr rfl⟩
    exact ih part id hmem hcoherent (hoffering.of_case (List.mem_map_of_mem hid))
      fun c hc => absurd hc List.not_mem_nil

end StructuredOutput

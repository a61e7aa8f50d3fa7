import StructuredOutput.Proofs.Backend.Clashes
import StructuredOutput.Proofs.Document.Accepted
import StructuredOutput.Proofs.Document.Positions

/-!
The rules of the dialects hold at every depth of a document. What stands at a schema position is
what is written for a node that the schema reaches, possibly with null besides, or the schema of
null, so that every body of an object is that of an object which the schema reaches.
-/

namespace StructuredOutput.Document

/-! ### The rules -/

/-- Whether a schema describes objects: by its type, or by the properties that it declares. -/
def IsObject (members : Members) : Prop :=
  Entries.get? members "type" = some (.string "object") ∨
    ∃ j, Entries.get? members "properties" = some j

/-- What a dialect demands of the body of an object with the given properties. -/
structure FollowsDialect (backend : Backend) (document members : Members)
    (properties : List (Property Schema)) : Prop where
  keys : Entries.names (declared members) = properties.map (·.key)
  required : Entries.get? members "required" = some (.array
    ((if backend = .openai then properties.map (·.key) else Schema.required properties).map .string))
  closed : backend ≠ .gemini → Entries.get? members "additionalProperties" = some (.bool false)
  ordered : backend = .gemini → Entries.get? members "propertyOrdering" =
    some (.array (properties.map fun p => .string p.key))
  nullable : backend = .openai → ∀ (i : Nat) (p : Property Schema), properties[i]? = some p →
    p.optional = true → ∃ inner, (declared members)[i]? = some (p.key, .object inner) ∧
      ∀ pattern, Accepts pattern document inner .null

variable {st : Style} {g : SchemaGraph} {named : NamedSchemas}
  {document members full inner : Members} {s : Schema}

/-! ### What stands at a schema position -/

/-- The same members but for a description, and for definitions if the style has any. -/
def Besides (st : Style) (members full : Members) : Prop :=
  ∀ key, key ≠ "description" → (key = "$defs" → st.definitions = []) →
    Entries.get? members key = Entries.get? full key

/-- What a schema position has: what is written for a node that is reached, or stands for it, the
same with null besides, or the schema of null. -/
inductive Placed (st : Style) (g : SchemaGraph) (members : Members) : Prop
  | written {s : Schema} {full : Members} (reached : g.Reaches s)
      (rendered : body st s = .ok full ∨ emit st s = .ok full) (besides : Besides st members full)
  | widened {s : Schema} {full : Members} {kind : String} (reached : g.Reaches s)
      (rendered : emit st s = .ok full) (simple : simpleType? full = some kind)
      (besides : Besides st members (widen full kind))
  | either {s : Schema} {full : Members} (reached : g.Reaches s) (rendered : emit st s = .ok full)
      (besides : Besides st members (nullable.either full))
  | null (eq : members = [("type", .string "null")])

theorem Besides.refl (members : Members) : Besides st members members := fun _ _ _ => rfl

theorem Besides.get?_eq {key : String} (h : Besides st members full)
    (hdescription : key ≠ "description") (hdefs : key ≠ "$defs") :
    Entries.get? members key = Entries.get? full key :=
  h key hdescription fun heq => absurd heq hdefs

theorem Besides.agrees (h : Besides st members full) : Agrees members full :=
  fun _ hkey => h.get?_eq (fun heq => hkey (heq ▸ by decide)) fun heq => hkey (heq ▸ by decide)

theorem Besides.isObject (h : Besides st members full) (hobject : IsObject members) :
    IsObject full := by
  rwa [IsObject, h.get?_eq (by decide) (by decide), h.get?_eq (by decide) (by decide)] at hobject

theorem besides_describe (members : Members) (description : Option String) :
    Besides st (st.describe members description) members :=
  fun _ hkey _ => get?_describe hkey

theorem shows_of_body (h : body st s = .ok full) (hagrees : Agrees members full) :
    Shows st members s := by
  cases s with
  | ref name => exact shows_of_emit ((emit_of_not_defines rfl).trans h) hagrees
  | _ => exact .written (fun _ => by simp) h hagrees

/-- What stands for a property is placed. -/
theorem placed_property {p : Property Schema} (hreached : g.Reaches p.schema)
    (hrendered : emit st p.schema = .ok full) (hinner : st.property p full = .object inner) :
    Placed st g inner := by
  obtain rfl := Json.object.inj hinner
  split
  · rw [nullable_eq]
    cases hsimple : simpleType? full with
    | none => exact .either hreached hrendered (besides_describe _ _)
    | some kind => exact .widened hreached hrendered hsimple (besides_describe _ _)
  · exact .written hreached (.inr hrendered) (besides_describe _ _)

/-- What is placed shows a node that is reached, or it has no schemas inside but those that allow
null besides. -/
theorem Placed.shows_or (h : Placed st g members) : (∃ s, g.Reaches s ∧ Shows st members s) ∨
    (∃ s full, g.Reaches s ∧ emit st s = .ok full ∧ Agrees members (nullable.either full)) ∨
      members = [("type", .string "null")] := by
  cases h with
  | @written s _ reached rendered besides =>
    refine .inl ⟨s, reached, ?_⟩
    exact rendered.elim (shows_of_body · besides.agrees) (shows_of_emit · besides.agrees)
  | @widened s full kind reached rendered _ besides =>
    refine .inl ⟨s, reached, shows_of_emit rendered ?_⟩
    exact besides.agrees.trans (agrees_widen full kind)
  | @either s full reached rendered besides =>
    exact .inr (.inl ⟨s, full, reached, rendered, besides.agrees⟩)
  | null eq => exact .inr (.inr eq)

theorem Placed.item (h : Placed st g members)
    (items : Entries.get? members "items" = some (.object inner)) : Placed st g inner := by
  rcases h.shows_or with ⟨s, hs, hshows⟩ | ⟨-, full, -, -, hagrees⟩ | rfl
  · obtain ⟨item, counts, rendered, rfl, hrendered, hinner⟩ := hshows.items items
    cases hinner
    exact .written (hs.part (List.mem_singleton_self item)) (.inr hrendered) (.refl _)
  · cases (hagrees "items" (by decide)).symm.trans items
  · cases items

theorem Placed.alternative {rendered : List Json} (h : Placed st g members)
    (anyOf : Entries.get? members "anyOf" = some (.array rendered))
    (written : .object inner ∈ rendered) : Placed st g inner := by
  rcases h.shows_or with ⟨s, hs, hshows⟩ | ⟨s, full, hs, hfull, hagrees⟩ | rfl
  · obtain ⟨name, description, alternatives, rendered', rfl, hchoices, heq⟩ := hshows.anyOf anyOf
    cases heq
    obtain ⟨t, ht, r, hr, heq⟩ := Outcome.exists_mem_left (choices_eq_ok.mp hchoices) written
    cases heq
    exact .written (hs.part ht) (.inr hr) (.refl _)
  · cases (hagrees "anyOf" (by decide)).symm.trans anyOf
    rcases List.mem_cons.mp written with heq | hnull
    · cases heq
      exact .written hs (.inr hfull) (.refl _)
    · cases List.mem_singleton.mp hnull
      exact .null rfl
  · cases anyOf

theorem Placed.property {key : String} (h : Placed st g members)
    (written : (key, .object inner) ∈ declared members) : Placed st g inner := by
  rcases h.shows_or with ⟨s, hs, hshows⟩ | ⟨-, full, -, -, hagrees⟩ | rfl
  · obtain ⟨name, description, properties, rfl, hbodies⟩ := hshows.declared written
    obtain ⟨p, hp, r, hr, heq⟩ := Outcome.exists_mem_left (bodies_eq_ok.mp hbodies) written
    exact placed_property (hs.part (Schema.mem_parts_of_mem_properties hp)) hr
      (Prod.mk.inj heq).2.symm
  · rw [hagrees.declared_eq] at written
    cases written
  · cases written

/-- The whole of a document is placed, where the definitions stand besides what is written for the
root. -/
theorem placed_root {backend : Backend} {settings : ProjectionSettings}
    (h : render g.root backend named settings = .ok document) :
    Placed (styleFor g.root backend named settings) g document := by
  obtain ⟨-, members, hmembers, hdocument⟩ := render_eq_ok_iff.mp h
  refine .written .root (.inl hmembers) ?_
  split at hdocument
  · exact hdocument ▸ .refl _
  · next hsome =>
    obtain ⟨defs, -, rfl⟩ := hdocument
    intro key _ hdefs
    apply Entries.get?_put_of_ne
    rintro rfl
    exact hsome (List.isEmpty_iff.mpr (hdefs rfl))

/-- What stands at a schema position of a document is placed. -/
theorem placed_of_subschema {backend : Backend} {settings : ProjectionSettings}
    (hnamed : NamedSchemas.collect g = .ok named)
    (hrender : render g.root backend named settings = .ok document)
    (h : Subschema document members) :
    Placed (styleFor g.root backend named settings) g members := by
  induction h with
  | root => exact placed_root hrender
  | definition defined =>
    obtain ⟨m, -, r, full, hr, hfull, heq⟩ := Outcome.exists_mem_left
      (forall₂_of_definitions (isDocument_of_render hrender).definitions) defined
    cases heq
    have hreached := ((NamedSchemas.met_of_collect hnamed).schemas _ r hr).1
    exact .written hreached (.inl hfull) (.refl _)
  | item _ items ih => exact ih.item items
  | alternative _ anyOf written ih => exact ih.alternative anyOf written
  | property _ written ih => exact ih.property written

/-! ### Bodies of objects -/

/-- Only the body of an object describes objects. -/
theorem object_of_body (h : body st s = .ok full) (hobject : IsObject full) :
    ∃ name description properties rendered, s = .object name description properties ∧
      bodies st properties = .ok rendered ∧
        full = st.object name description properties rendered := by
  cases s with
  | string rules =>
    cases h
    rw [IsObject, get?_rules (by decide) (by decide) (by decide) fun h => absurd h (by decide),
      get?_rules (by decide) (by decide) (by decide) fun h => absurd h (by decide)] at hobject
    simp [Entries.get?] at hobject
  | integer ranges | number ranges =>
    cases h
    rw [IsObject, get?_ranges (by decide) (by decide), get?_ranges (by decide) (by decide)]
      at hobject
    simp [Entries.get?] at hobject
  | boolean =>
    cases h
    simp [IsObject, Entries.get?] at hobject
  | array item counts =>
    obtain ⟨rendered, -, rfl⟩ := body_array.mp h
    rw [IsObject, get?_counts (by decide) (by decide), get?_counts (by decide) (by decide)]
      at hobject
    simp [Entries.get?] at hobject
  | object name description properties =>
    obtain ⟨rendered, hrendered, rfl⟩ := body_object.mp h
    exact ⟨name, description, properties, rendered, rfl, hrendered, rfl⟩
  | union name description alternatives =>
    obtain ⟨rendered, -, rfl⟩ := body_union h
    rw [IsObject, Entries.get?_append, Entries.get?_append, get?_describe (by decide),
      get?_describe (by decide)] at hobject
    simp [Entries.get?] at hobject
  | ref name =>
    rw [body] at h
    split at h
    · cases h
      simp [IsObject, Style.pointer, Entries.get?] at hobject
    · cases h

theorem object_of_emit (h : emit st s = .ok full) (hobject : IsObject full) :
    body st s = .ok full := by
  rcases emit_cases h with hbody | ⟨name, -, rfl⟩
  · exact hbody
  · simp [IsObject, Style.pointer, Entries.get?] at hobject

/-- A body of an object at a schema position is that of an object which is reached. -/
theorem Placed.exists_object (h : Placed st g members) (hobject : IsObject members) :
    ∃ name description properties rendered, g.Reaches (.object name description properties) ∧
      bodies st properties = .ok rendered ∧
        Besides st members (st.object name description properties rendered) := by
  cases h with
  | @written s full reached rendered besides =>
    have hfull := besides.isObject hobject
    obtain ⟨name, description, properties, inside, rfl, hinside, rfl⟩ :=
      object_of_body (rendered.elim id fun h => object_of_emit h hfull) hfull
    exact ⟨name, description, properties, inside, reached, hinside, besides⟩
  | @widened s full kind reached rendered simple besides =>
    -- The type is a list of two, and nothing of a simple type declares properties.
    rcases besides.isObject hobject with htype | ⟨j, hproperties⟩
    · have hwidened : Entries.get? (widen full kind) "type" =
          some (.array [.string kind, .string "null"]) := by
        unfold widen
        dsimp only
        split
        · rw [Entries.get?_put_of_ne _ _ (by decide), Entries.get?_put_self]
        · exact Entries.get?_put_self _ _ _
      cases hwidened.symm.trans htype
    · rw [get?_widen (by decide) (by decide)] at hproperties
      have hbody := object_of_emit rendered (.inr ⟨j, hproperties⟩)
      obtain ⟨name, description, properties, -, rfl, -, -⟩ :=
        object_of_body hbody (.inr ⟨j, hproperties⟩)
      cases (simpleType?_of_defines rfl hbody).symm.trans simple
  | either _ _ besides =>
    have hobject := besides.isObject hobject
    simp [IsObject, nullable.either, Entries.get?] at hobject
  | null eq =>
    subst eq
    simp [IsObject, Entries.get?] at hobject

/-- What is written for an object follows the dialect of its style. -/
theorem followsDialect_object {name : String} {description : Option String}
    {properties : List (Property Schema)} {rendered : Members}
    (hrendered : bodies st properties = .ok rendered)
    (h : Besides st members (st.object name description properties rendered)) :
    FollowsDialect st.backend document members properties := by
  have hdeclared : declared members = rendered := by
    rw [h.agrees.declared_eq, declared, get?_object (by decide)]
    rfl
  refine ⟨?_, ?_, fun hbackend => ?_, fun hbackend => ?_, fun hstrict i p hp hoptional => ?_⟩
  · rw [hdeclared, names_bodies hrendered]
  · rw [h.get?_eq (by decide) (by decide), get?_object (by decide)]
    rfl
  · rw [h.get?_eq (by decide) (by decide), get?_object (by decide), if_neg hbackend]
    rfl
  · rw [h.get?_eq (by decide) (by decide), get?_object (by decide), if_pos hbackend]
    rfl
  · obtain ⟨e, he, r, hr, rfl⟩ :=
      Outcome.exists_getElem?_right (bodies_eq_ok.mp hrendered) hp
    refine ⟨_, hdeclared ▸ he, fun pattern => ?_⟩
    obtain ⟨property, hproperty, haccepts⟩ := accepts_property hr (.inl ⟨hstrict, hoptional, rfl⟩)
    exact Json.object.inj hproperty ▸ haccepts

/-! ### A dialect without references -/

/-- The members that the dialect of Gemini does not have. -/
def unsupported : List String := ["$ref", "$defs", "additionalProperties"]

theorem get?_body_of_unsupported {key : String} (hbackend : st.backend = .gemini)
    (hpointers : st.pointers = false) (hkey : key ∈ unsupported) (h : body st s = .ok full) :
    Entries.get? full key = none := by
  have hplain : ∀ name, s ≠ .ref name := by
    rintro name rfl
    simp [body, hpointers] at h
  rcases List.mem_cons.mp hkey with rfl | hkey
  · exact get?_body (by decide) hplain h
  rcases List.mem_cons.mp hkey with rfl | hkey
  · exact get?_body_defs h
  obtain rfl := List.mem_singleton.mp hkey
  cases s with
  | string rules =>
    cases h
    rw [get?_rules (by decide) (by decide) (by decide) fun h => absurd h (by decide)]
    rfl
  | integer ranges | number ranges =>
    cases h
    rw [get?_ranges (by decide) (by decide)]
    rfl
  | boolean =>
    cases h
    rfl
  | array item counts =>
    obtain ⟨rendered, -, rfl⟩ := body_array.mp h
    rw [get?_counts (by decide) (by decide)]
    rfl
  | object name description properties =>
    obtain ⟨rendered, -, rfl⟩ := body_object.mp h
    rw [get?_object (by decide), if_pos hbackend]
    rfl
  | union name description alternatives =>
    obtain ⟨rendered, -, rfl⟩ := body_union h
    rw [Entries.get?_append, get?_describe (by decide)]
    rfl
  | ref name => exact absurd rfl (hplain name)

theorem Placed.get?_of_unsupported {key : String} (hbackend : st.backend = .gemini)
    (hpointers : st.pointers = false) (hdefinitions : st.definitions = [])
    (hkey : key ∈ unsupported) (h : Placed st g members) : Entries.get? members key = none := by
  have hne {other : String} (hother : other ∉ unsupported) : key ≠ other :=
    fun heq => hother (heq ▸ hkey)
  have hdescription : key ≠ "description" := hne (by decide)
  have hemitted {s : Schema} {full : Members} (h : emit st s = .ok full) :
      Entries.get? full key = none :=
    get?_body_of_unsupported hbackend hpointers hkey (emit_of_no_pointers hpointers s ▸ h)
  cases h with
  | written reached rendered besides =>
    rw [besides key hdescription fun _ => hdefinitions]
    exact rendered.elim (get?_body_of_unsupported hbackend hpointers hkey) hemitted
  | widened reached rendered simple besides =>
    rw [besides key hdescription fun _ => hdefinitions,
      get?_widen (hne (by decide)) (hne (by decide)), hemitted rendered]
  | either reached rendered besides =>
    rw [besides key hdescription fun _ => hdefinitions]
    exact Entries.get?_cons_of_ne _ _ (hne (by decide)).symm
  | null eq =>
    subst eq
    exact Entries.get?_cons_of_ne _ _ (hne (by decide)).symm

end StructuredOutput.Document

namespace StructuredOutput

/-- The rules of the dialects hold at every schema position of a document: every body of an object
is that of an object which the schema reaches and lists its keys as the dialect demands, what may
be absent accepts null where all keys are required, and a document for Gemini has neither
references nor definitions nor a member that closes objects. -/
theorem dialect_rules {g : SchemaGraph} {backend : Backend} {settings : ProjectionSettings}
    {document members : Members} {notices : List Notice}
    (hproject : g.project backend settings = .ok (.document document, notices))
    (hmembers : Document.Subschema document members) :
    (Document.IsObject members → ∃ name description properties,
      g.Reaches (.object name description properties) ∧
        Entries.get? members "title" = some (.string name) ∧
          Document.FollowsDialect backend document members properties) ∧
    (backend = .gemini → ∀ key ∈ Document.unsupported, Entries.get? members key = none) := by
  obtain ⟨named, hnamed, hrender⟩ := SchemaGraph.render_of_project hproject
  have hplaced := Document.placed_of_subschema hnamed hrender hmembers
  constructor
  · intro hobject
    obtain ⟨name, description, properties, rendered, hreached, hrendered, hbesides⟩ :=
      hplaced.exists_object hobject
    refine ⟨name, description, properties, hreached, ?_,
      Document.followsDialect_object hrendered hbesides⟩
    rw [hbesides.get?_eq (by decide) (by decide), Document.get?_object (by decide)]
    rfl
  · rintro rfl key hkey
    exact hplaced.get?_of_unsupported rfl rfl rfl hkey

namespace Pair

/-- The definition of a place in the document of a pair. -/
def placeBody : Members :=
  [("type", .string "object"), ("title", .string "Place"), ("description", .string "Somewhere."),
    ("properties", .object
      [("label", .object [("type", .string "string"), ("minLength", .integer 1)])]),
    ("required", .array [.string "label"]), ("additionalProperties", .bool false)]

end Pair

open Pair in
theorem dialect_rules_pair :
    graph.project .openai ⟨true, true⟩ =
        .ok (.document shared, [.schemaProjected "openai" "Pair" 2]) ∧
      Document.Subschema shared placeBody ∧
      (Document.IsObject placeBody → ∃ name description properties,
        graph.Reaches (.object name description properties) ∧
          Entries.get? placeBody "title" = some (.string name) ∧
            Document.FollowsDialect .openai shared placeBody properties) ∧
      (Backend.openai = .gemini →
        ∀ key ∈ Document.unsupported, Entries.get? placeBody key = none) := by
  have hproject : graph.project .openai ⟨true, true⟩ =
      .ok (.document shared, [.schemaProjected "openai" "Pair" 2]) := rfl
  have hmem : ("Place", Json.object placeBody) ∈ Document.definitionsOf shared :=
    List.mem_singleton_self _
  exact ⟨hproject, .definition hmem, dialect_rules hproject (.definition hmem)⟩

end StructuredOutput

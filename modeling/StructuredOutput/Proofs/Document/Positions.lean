import StructuredOutput.Proofs.Document.Sharing

/-!
Schema positions of a document, and the nodes that are written there. Only four keywords matter for
what stands inside a schema: the reference, the items, the alternatives and the properties.
-/

namespace StructuredOutput.Document

/-! ### Positions -/

/-- The definitions of a document. -/
def definitionsOf (document : Members) : Members :=
  match Entries.get? document "$defs" with
  | some (.object defs) => defs
  | _ => []

/-- What stands at the schema positions of a document: the whole of it and its definitions, and in
them the schemas of items, of alternatives and of properties. -/
inductive Subschema (document : Members) : Members → Prop
  | root : Subschema document document
  | definition {name : String} {inner : Members}
      (defined : (name, .object inner) ∈ definitionsOf document) : Subschema document inner
  | item {members inner : Members} (inside : Subschema document members)
      (items : Entries.get? members "items" = some (.object inner)) : Subschema document inner
  | alternative {members inner : Members} {rendered : List Json}
      (inside : Subschema document members)
      (anyOf : Entries.get? members "anyOf" = some (.array rendered))
      (written : .object inner ∈ rendered) : Subschema document inner
  | property {members inner : Members} {key : String} (inside : Subschema document members)
      (written : (key, .object inner) ∈ declared members) : Subschema document inner

/-- A schema without the null that it allows besides, if it is the choice between another schema and
null. -/
def withoutNull (members : Members) : Members :=
  match Entries.get? members "anyOf" with
  | some (.array [.object inner, .object [("type", .string "null")]]) => inner
  | _ => members

/-- What is written for the nodes of a schema: the document for the root, a definition for a node of
its name, and inside what is written for a node, what stands for its parts in order. A property
that may be absent may allow null besides. -/
inductive WrittenFor (st : Style) (root : Schema) (document : Members) : Members → Schema → Prop
  | root : WrittenFor st root document document root
  | definition {name : String} {inner : Members} {r : Schema}
      (defined : (name, .object inner) ∈ definitionsOf document) (within : r.Within root)
      (defines : r.defines = true) (named : r.name? = some name)
      (rendered : body st r = .ok inner) : WrittenFor st root document inner r
  | item {members inner : Members} {item : Schema} {counts : List Span}
      (inside : WrittenFor st root document members (.array item counts))
      (items : Entries.get? members "items" = some (.object inner)) :
      WrittenFor st root document inner item
  | alternative {members inner : Members} {name : String} {description : Option String}
      {alternatives : List Schema} {rendered : List Json} {i : Nat} {s : Schema}
      (inside : WrittenFor st root document members (.union name description alternatives))
      (anyOf : Entries.get? members "anyOf" = some (.array rendered))
      (schema : alternatives[i]? = some s) (written : rendered[i]? = some (.object inner)) :
      WrittenFor st root document inner s
  | property {members inner : Members} {name : String} {description : Option String}
      {properties : List (Property Schema)} {i : Nat} {p : Property Schema}
      (inside : WrittenFor st root document members (.object name description properties))
      (schema : properties[i]? = some p)
      (written : (declared members)[i]? = some (p.key, .object inner)) :
      WrittenFor st root document (withoutNull inner) p.schema

variable {st : Style} {root s part : Schema} {document members full rendered inner : Members}

theorem subschema_withoutNull (h : Subschema document members) :
    Subschema document (withoutNull members) := by
  unfold withoutNull
  split
  · next inner hanyOf => exact .alternative h hanyOf List.mem_cons_self
  · exact h

/-- What is written for a node stands at a schema position. -/
theorem WrittenFor.subschema (h : WrittenFor st root document members s) :
    Subschema document members := by
  induction h with
  | root => exact .root
  | definition defined => exact .definition defined
  | item _ items ih => exact .item ih items
  | alternative _ anyOf _ written ih => exact .alternative ih anyOf (List.mem_of_getElem? written)
  | property _ _ written ih => exact subschema_withoutNull (.property ih (List.mem_of_getElem? written))

/-! ### What is written for one node -/

/-- Members with the same reference and the same schemas inside. -/
def Agrees (members full : Members) : Prop :=
  ∀ key, ¬ Inert key → Entries.get? members key = Entries.get? full key

theorem Agrees.refl (members : Members) : Agrees members members := fun _ _ => rfl

theorem Agrees.trans (h : Agrees members full) (hfull : Agrees full rendered) :
    Agrees members rendered :=
  fun key hkey => (h key hkey).trans (hfull key hkey)

theorem Agrees.declared_eq (h : Agrees members full) : declared members = declared full := by
  rw [declared, declared, h "properties" (by decide)]

theorem agrees_describe (members : Members) (description : Option String) :
    Agrees (st.describe members description) members :=
  fun _ hkey => get?_describe fun h => hkey (h ▸ by decide)

theorem agrees_widen (members : Members) (kind : String) : Agrees (widen members kind) members :=
  fun _ hkey => get?_widen (fun h => hkey (h ▸ by decide)) fun h => hkey (h ▸ by decide)

/-- What is emitted for a node without parts has no schemas inside. -/
theorem get?_body_of_scalar (hs : s.IsScalar) (h : body st s = .ok full) {key : String}
    (hkey : ¬ Inert key) : Entries.get? full key = none := by
  have hne {k : String} (hk : Inert k) : key ≠ k := fun heq => hkey (heq ▸ hk)
  cases s with
  | string rules =>
    cases h
    rw [get?_rules (hne (by decide)) (hne (by decide)) (hne (by decide))
      fun heq => absurd heq (hne (by decide)), Entries.get?_cons_of_ne _ _ (hne (by decide)).symm]
    rfl
  | integer ranges | number ranges =>
    cases h
    rw [get?_ranges (hne (by decide)) (hne (by decide)),
      Entries.get?_cons_of_ne _ _ (hne (by decide)).symm]
    rfl
  | boolean =>
    cases h
    rw [Entries.get?_cons_of_ne _ _ (hne (by decide)).symm]
    rfl
  | array => cases hs.1
  | object | union | ref => cases hs.2

/-- How a node is written: by its own members, or by a reference to its name. -/
inductive Shows (st : Style) (members : Members) : Schema → Prop
  | written {s : Schema} {full : Members} (unreferring : ∀ name, s ≠ .ref name)
      (rendered : body st s = .ok full) (agrees : Agrees members full) : Shows st members s
  | pointer {s : Schema} {name : String} (named : s.name? = some name)
      (referable : s.defines = true → st.rootName = some name ∨ name ∈ st.definitions)
      (agrees : Agrees members (st.pointer name)) : Shows st members s

theorem shows_of_emit (h : emit st s = .ok full) (hagrees : Agrees members full) :
    Shows st members s := by
  by_cases hdefines : s.defines = true
  · obtain ⟨name, hname⟩ := Schema.exists_name_of_defines hdefines
    rw [emit_of_defines hdefines hname] at h
    split at h
    · next happly =>
      cases h
      exact .pointer hname (fun _ => by simpa using (Bool.and_eq_true_iff.mp happly).2) hagrees
    · refine .written ?_ h hagrees
      rintro name rfl
      cases hdefines
  · rw [emit_of_not_defines (Bool.eq_false_of_not_eq_true hdefines)] at h
    cases s with
    | ref name =>
      rw [body] at h
      split at h
      · cases h
        exact .pointer rfl (fun hdefines => by cases hdefines) hagrees
      · cases h
    | _ => exact .written (fun _ => by simp) h hagrees

namespace Shows

/-- Only an array has a schema of items, which is what is emitted for its items. -/
theorem items (h : Shows st members s) {j : Json} (hitems : Entries.get? members "items" = some j) :
    ∃ item counts rendered, s = .array item counts ∧ emit st item = .ok rendered ∧
      j = .object rendered := by
  cases h with
  | pointer _ _ agrees => cases (agrees "items" (by decide)).symm.trans hitems
  | written unreferring hbody agrees =>
    rw [agrees "items" (by decide)] at hitems
    cases s with
    | array item counts =>
      obtain ⟨rendered, hrendered, rfl⟩ := body_array.mp hbody
      rw [get?_counts (by decide) (by decide)] at hitems
      cases hitems
      exact ⟨item, counts, rendered, rfl, hrendered, rfl⟩
    | object name description properties =>
      obtain ⟨rendered, -, rfl⟩ := body_object.mp hbody
      rw [get?_object (by decide)] at hitems
      split at hitems <;> cases hitems
    | union name description alternatives =>
      obtain ⟨rendered, -, rfl⟩ := body_union hbody
      rw [Entries.get?_append, get?_describe (by decide)] at hitems
      cases hitems
    | ref name => exact absurd rfl (unreferring name)
    | _ => cases (get?_body_of_scalar ⟨rfl, rfl⟩ hbody (by decide)).symm.trans hitems

/-- Only a union has alternatives, which are what is emitted for its own. -/
theorem anyOf (h : Shows st members s) {j : Json} (hanyOf : Entries.get? members "anyOf" = some j) :
    ∃ name description alternatives rendered, s = .union name description alternatives ∧
      choices st alternatives = .ok rendered ∧ j = .array rendered := by
  cases h with
  | pointer _ _ agrees => cases (agrees "anyOf" (by decide)).symm.trans hanyOf
  | written unreferring hbody agrees =>
    rw [agrees "anyOf" (by decide)] at hanyOf
    cases s with
    | array item counts =>
      obtain ⟨rendered, -, rfl⟩ := body_array.mp hbody
      rw [get?_counts (by decide) (by decide)] at hanyOf
      cases hanyOf
    | object name description properties =>
      obtain ⟨rendered, -, rfl⟩ := body_object.mp hbody
      rw [get?_object (by decide)] at hanyOf
      split at hanyOf <;> cases hanyOf
    | union name description alternatives =>
      obtain ⟨rendered, hrendered, rfl⟩ := body_union hbody
      rw [Entries.get?_append, get?_describe (by decide)] at hanyOf
      cases hanyOf
      exact ⟨name, description, alternatives, rendered, rfl, hrendered, rfl⟩
    | ref name => exact absurd rfl (unreferring name)
    | _ => cases (get?_body_of_scalar ⟨rfl, rfl⟩ hbody (by decide)).symm.trans hanyOf

/-- Only an object declares properties, which are what is emitted for its own. -/
theorem declared (h : Shows st members s) {e : String × Json} (he : e ∈ declared members) :
    ∃ name description properties, s = .object name description properties ∧
      bodies st properties = .ok (Document.declared members) := by
  unfold Document.declared at he ⊢
  cases h with
  | pointer _ _ agrees =>
    rw [agrees "properties" (by decide)] at he
    cases he
  | written unreferring hbody agrees =>
    rw [agrees "properties" (by decide)] at he ⊢
    cases s with
    | array item counts =>
      obtain ⟨rendered, -, rfl⟩ := body_array.mp hbody
      rw [get?_counts (by decide) (by decide)] at he
      cases he
    | object name description properties =>
      obtain ⟨rendered, hrendered, rfl⟩ := body_object.mp hbody
      refine ⟨name, description, properties, rfl, ?_⟩
      rw [get?_object (by decide)]
      exact hrendered
    | union name description alternatives =>
      obtain ⟨rendered, -, rfl⟩ := body_union hbody
      rw [Entries.get?_append, get?_describe (by decide)] at he
      cases he
    | ref name => exact absurd rfl (unreferring name)
    | _ =>
      rw [get?_body_of_scalar ⟨rfl, rfl⟩ hbody (by decide)] at he
      cases he

/-- What is a reference refers to the name of its node. -/
theorem reference (h : Shows st members s) {j : Json} (href : Entries.get? members "$ref" = some j) :
    ∃ name, s.name? = some name ∧
      (s.defines = true → st.rootName = some name ∨ name ∈ st.definitions) ∧
      j = .string (if st.rootName = some name then "#" else "#/$defs/" ++ name) := by
  cases h with
  | written unreferring hbody agrees =>
    rw [agrees "$ref" (by decide), get?_body (by decide) unreferring hbody] at href
    cases href
  | pointer named referable agrees =>
    rw [agrees "$ref" (by decide)] at href
    cases href
    exact ⟨_, named, referable, rfl⟩

end Shows

/-! ### Null besides -/

/-- The schema of null is not emitted for any node. -/
theorem emit_ne_null (s : Schema) : emit st s ≠ .ok [("type", .string "null")] := by
  intro h
  have htype : Entries.get? [("type", Json.string "null")] "type" = some (.string "null") := rfl
  have htitle : Entries.get? [("type", Json.string "null")] "title" = none := rfl
  rcases emit_cases h with hbody | ⟨name, -, hpointer⟩
  · cases s with
    | string rules =>
      rw [← Except.ok.inj hbody, get?_rules (by decide) (by decide) (by decide)
        fun heq => absurd heq (by decide)] at htype
      simp [Entries.get?] at htype
    | integer ranges | number ranges =>
      rw [← Except.ok.inj hbody, get?_ranges (by decide) (by decide)] at htype
      simp [Entries.get?] at htype
    | boolean => simp [body] at hbody
    | array item counts =>
      obtain ⟨rendered, -, heq⟩ := body_array.mp hbody
      rw [← heq, get?_counts (by decide) (by decide)] at htype
      simp [Entries.get?] at htype
    | object name description properties =>
      obtain ⟨rendered, -, heq⟩ := body_object.mp hbody
      rw [← heq, get?_object (by decide)] at htitle
      cases htitle
    | union name description alternatives =>
      obtain ⟨rendered, -, heq⟩ := body_union hbody
      rw [← heq, Entries.get?_append, get?_describe (by decide)] at htitle
      cases htitle
    | ref name =>
      rw [body] at hbody
      split at hbody
      · simp [Style.pointer] at hbody
      · cases hbody
  · simp [Style.pointer] at hpointer

/-- What is emitted for a node is no choice between a schema and null. -/
theorem withoutNull_of_emit (h : emit st s = .ok full) (hagrees : Agrees members full) :
    withoutNull members = members := by
  unfold withoutNull
  split
  · next inner hanyOf =>
    obtain ⟨-, -, alternatives, rendered, -, hchoices, heq⟩ := (shows_of_emit h hagrees).anyOf hanyOf
    cases heq
    obtain ⟨t, -, r, hr, hnull⟩ := Outcome.exists_mem_left (choices_eq_ok.mp hchoices)
      (List.mem_cons_of_mem _ List.mem_cons_self)
    cases hnull
    exact absurd hr (emit_ne_null t)
  · rfl

theorem withoutNull_of_either (h : Agrees members (nullable.either full)) :
    withoutNull members = full := by
  rw [withoutNull, h "anyOf" (by decide)]
  rfl

/-- What stands for a property is what is emitted for its schema, or the choice between that and
null. -/
theorem property_cases {p : Property Schema} (hinner : st.property p full = .object inner) :
    Agrees inner full ∨ Agrees inner (nullable.either full) := by
  obtain rfl := Json.object.inj hinner
  split
  · rw [nullable_eq]
    split
    · exact .inl ((agrees_describe _ _).trans (agrees_widen _ _))
    · exact .inr (agrees_describe _ _)
  · exact .inl (agrees_describe _ _)

theorem agrees_property {p : Property Schema} (h : emit st p.schema = .ok full)
    (hinner : st.property p full = .object inner) : Agrees (withoutNull inner) full := by
  rcases property_cases hinner with hagrees | hagrees
  · rwa [withoutNull_of_emit h hagrees]
  · rw [withoutNull_of_either hagrees]
    exact .refl full

/-! ### What is written for all nodes -/

/-- A document of a style: what is written for the root, and the definitions of the style, if there
are any. -/
structure IsDocument (st : Style) (named : NamedSchemas) (root : Schema) (document : Members) :
    Prop where
  whole : ∃ members, body st root = .ok members ∧ Agrees document members
  definitions : definitions st named st.definitions = .ok (definitionsOf document)
  absent : st.definitions = [] → Entries.get? document "$defs" = none
  present : st.definitions ≠ [] →
    Entries.get? document "$defs" = some (.object (definitionsOf document))

theorem isDocument_of_render {backend : Backend} {named : NamedSchemas}
    {settings : ProjectionSettings} (h : render root backend named settings = .ok document) :
    IsDocument (styleFor root backend named settings) named root document := by
  obtain ⟨-, members, hmembers, hdocument⟩ := render_eq_ok_iff.mp h
  have hnodefs : Entries.get? members "$defs" = none := get?_body_defs hmembers
  split at hdocument
  · next hempty =>
    subst hdocument
    rw [List.isEmpty_iff] at hempty
    have hnone : definitionsOf document = [] := by rw [definitionsOf, hnodefs]
    exact ⟨⟨document, hmembers, .refl document⟩, by rw [hempty, hnone]; rfl, fun _ => hnodefs,
      fun hsome => absurd hempty hsome⟩
  · next hsome =>
    obtain ⟨defs, hdefs, rfl⟩ := hdocument
    have hget := Entries.get?_put_self members "$defs" (Json.object defs)
    have hof : definitionsOf (Entries.put members "$defs" (.object defs)) = defs := by
      rw [definitionsOf, hget]
    refine ⟨⟨members, hmembers, fun key hkey => ?_⟩, by rw [hof, hdefs], fun hempty => ?_,
      fun _ => by rw [hget, hof]⟩
    · exact Entries.get?_put_of_ne _ _ fun heq => hkey (heq ▸ by decide)
    · exact absurd (List.isEmpty_iff.mpr hempty) hsome

/-- What is emitted for a node stands at a schema position, where it is written for the node. -/
def Shown (st : Style) (root : Schema) (document : Members) (s : Schema) : Prop :=
  ∃ members full, WrittenFor st root document members s ∧ emit st s = .ok full ∧
    Agrees members full

/-- The parts of a node that is written by its own members are shown. -/
theorem shown_of_part (h : WrittenFor st root document members s) (hbody : body st s = .ok full)
    (hagrees : Agrees members full) (hpart : part ∈ s.parts) : Shown st root document part := by
  cases s with
  | array item counts =>
    obtain rfl := List.mem_singleton.mp hpart
    obtain ⟨rendered, hrendered, rfl⟩ := body_array.mp hbody
    refine ⟨rendered, rendered, .item h ?_, hrendered, .refl rendered⟩
    rw [hagrees "items" (by decide), get?_counts (by decide) (by decide)]
    rfl
  | object name description properties =>
    obtain ⟨p, hp, rfl⟩ := List.mem_map.mp hpart
    obtain ⟨i, hi⟩ := List.getElem?_of_mem hp
    obtain ⟨rendered, hrendered, rfl⟩ := body_object.mp hbody
    obtain ⟨e, he, r, hr, rfl⟩ := Outcome.exists_getElem?_right (bodies_eq_ok.mp hrendered) hi
    have hdeclared : declared members = rendered := by
      rw [hagrees.declared_eq, declared, get?_object (by decide)]
      rfl
    exact ⟨_, r, .property h hi (hdeclared ▸ he), hr, agrees_property hr rfl⟩
  | union name description alternatives =>
    obtain ⟨i, hi⟩ := List.getElem?_of_mem hpart
    obtain ⟨rendered, hrendered, rfl⟩ := body_union hbody
    obtain ⟨j, hj, r, hr, rfl⟩ := Outcome.exists_getElem?_right (choices_eq_ok.mp hrendered) hi
    refine ⟨r, r, .alternative h ?_ hi hj, hr, .refl r⟩
    rw [hagrees "anyOf" (by decide), Entries.get?_append, get?_describe (by decide)]
    rfl
  | _ => cases hpart

theorem unreferring_of_defines (h : s.defines = true) (name : String) : s ≠ .ref name := by
  rintro rfl
  cases h

/-- Every node that something is written for is in the schema, and is written by its own members or
by a reference to its name. -/
theorem WrittenFor.shows {named : NamedSchemas} (hdocument : IsDocument st named root document)
    (hroot : ∀ name, root ≠ .ref name) (h : WrittenFor st root document members s) :
    s.Within root ∧ Shows st members s := by
  induction h with
  | root =>
    obtain ⟨full, hfull, hagrees⟩ := hdocument.whole
    exact ⟨.refl root, .written hroot hfull hagrees⟩
  | definition _ within defines _ rendered =>
    exact ⟨within, .written (unreferring_of_defines defines) rendered (.refl _)⟩
  | @item members inner item counts _ items ih =>
    obtain ⟨item', counts', rendered, heq, hrendered, hinner⟩ := ih.2.items items
    cases heq
    cases hinner
    have hpart : item ∈ (Schema.array item counts).parts := List.mem_singleton_self item
    exact ⟨ih.1.part hpart, shows_of_emit hrendered (.refl inner)⟩
  | @alternative members inner name description alternatives rendered i s _ anyOf schema written ih =>
    obtain ⟨name', description', alternatives', rendered', heq, hchoices, hrendered⟩ :=
      ih.2.anyOf anyOf
    cases heq
    cases hrendered
    obtain ⟨j, hj, r, hr, heq⟩ := Outcome.exists_getElem?_right (choices_eq_ok.mp hchoices) schema
    cases heq
    cases hj.symm.trans written
    have hpart : s ∈ (Schema.union name description alternatives).parts :=
      List.mem_of_getElem? schema
    exact ⟨ih.1.part hpart, shows_of_emit hr (.refl inner)⟩
  | @property members inner name description properties i p _ schema written ih =>
    obtain ⟨name', description', properties', heq, hbodies⟩ :=
      ih.2.declared (List.mem_of_getElem? written)
    cases heq
    obtain ⟨e, he, r, hr, heq⟩ := Outcome.exists_getElem?_right (bodies_eq_ok.mp hbodies) schema
    rw [he, Option.some.injEq, heq, Prod.mk.injEq] at written
    have hpart : p.schema ∈ (Schema.object name description properties).parts :=
      Schema.mem_parts_of_mem_properties (List.mem_of_getElem? schema)
    exact ⟨ih.1.part hpart, shows_of_emit hr (agrees_property hr written.2)⟩

/-- The definitions of given names are what is written for the schemas recorded under them. -/
theorem forall₂_of_definitions {named : NamedSchemas} {names : List String} {defs : Members}
    (h : definitions st named names = .ok defs) :
    List.Forall₂ (fun name e => ∃ r members, Entries.get? named.schemas name = some r ∧
      body st r = .ok members ∧ e = (name, Json.object members)) names defs := by
  induction names generalizing defs with
  | nil =>
    cases h
    exact .nil
  | cons name names ih =>
    rw [definitions] at h
    split at h
    · cases h
    · next r hr =>
      obtain ⟨members, hmembers, h⟩ := Outcome.bind_eq_ok.mp h
      obtain ⟨rest, hrest, h⟩ := Outcome.bind_eq_ok.mp h
      cases h
      exact .cons ⟨r, members, hr, hmembers, rfl⟩ (ih hrest)

/-- A schema position is that of a node, or one of the two positions that a choice between a schema
and null adds. -/
theorem writtenFor_or_null {g : SchemaGraph} {named : NamedSchemas}
    (hdocument : IsDocument st named g.root document) (hroot : ∀ name, g.root ≠ .ref name)
    (hrecorded : NamedSchemas.Recorded g named) (h : Subschema document members) :
    (∃ s, WrittenFor st g.root document members s) ∨
      (∃ inner s, Agrees members (nullable.either inner) ∧
        WrittenFor st g.root document inner s) ∨
      members = [("type", .string "null")] := by
  induction h with
  | root => exact .inl ⟨g.root, .root⟩
  | definition defined =>
    obtain ⟨m, -, r, full, hr, hfull, heq⟩ :=
      Outcome.exists_mem_left (forall₂_of_definitions hdocument.definitions) defined
    cases heq
    obtain ⟨hwithin, hdefines, hname⟩ := hrecorded _ r hr
    exact .inl ⟨r, .definition defined hwithin hdefines hname hfull⟩
  | @item members inner _ items ih =>
    rcases ih with ⟨s, hs⟩ | ⟨other, s, hagrees, -⟩ | rfl
    · obtain ⟨item, counts, -, rfl, -⟩ := (hs.shows hdocument hroot).2.items items
      exact .inl ⟨item, .item hs items⟩
    · cases (hagrees "items" (by decide)).symm.trans items
    · cases items
  | @alternative members inner rendered _ anyOf written ih =>
    rcases ih with ⟨s, hs⟩ | ⟨other, s, hagrees, hs⟩ | rfl
    · obtain ⟨name, description, alternatives, rendered', rfl, hchoices, heq⟩ :=
        (hs.shows hdocument hroot).2.anyOf anyOf
      cases heq
      obtain ⟨i, hi⟩ := List.getElem?_of_mem written
      obtain ⟨t, ht, -⟩ := Outcome.exists_getElem?_right (choices_eq_ok.mp hchoices).flip hi
      exact .inl ⟨t, .alternative hs anyOf ht hi⟩
    · cases (hagrees "anyOf" (by decide)).symm.trans anyOf
      rcases List.mem_cons.mp written with heq | hnull
      · cases heq
        exact .inl ⟨s, hs⟩
      · cases List.mem_singleton.mp hnull
        exact .inr (.inr rfl)
    · cases anyOf
  | @property members inner key _ written ih =>
    rcases ih with ⟨s, hs⟩ | ⟨other, s, hagrees, -⟩ | rfl
    · obtain ⟨name, description, properties, rfl, hbodies⟩ :=
        (hs.shows hdocument hroot).2.declared written
      obtain ⟨i, hi⟩ := List.getElem?_of_mem written
      obtain ⟨p, hp, r, hr, heq⟩ :=
        Outcome.exists_getElem?_right (bodies_eq_ok.mp hbodies).flip hi
      rw [Prod.mk.injEq] at heq
      have hwritten : WrittenFor st g.root document (withoutNull inner) p.schema :=
        .property hs hp (heq.1 ▸ hi)
      rcases property_cases heq.2.symm with hagrees | hagrees
      · exact .inl ⟨p.schema, withoutNull_of_emit hr hagrees ▸ hwritten⟩
      · exact .inr (.inl ⟨withoutNull inner, p.schema,
          (withoutNull_of_either hagrees).symm ▸ hagrees, hwritten⟩)
    · rw [hagrees.declared_eq] at written
      cases written
    · cases written

/-- A reference at a schema position is written for a node. -/
theorem exists_writtenFor {g : SchemaGraph} {named : NamedSchemas}
    (hdocument : IsDocument st named g.root document) (hroot : ∀ name, g.root ≠ .ref name)
    (hrecorded : NamedSchemas.Recorded g named) (h : Subschema document members) {j : Json}
    (href : Entries.get? members "$ref" = some j) :
    ∃ s, WrittenFor st g.root document members s := by
  rcases writtenFor_or_null hdocument hroot hrecorded h with hs | ⟨inner, s, hagrees, -⟩ | rfl
  · exact hs
  · cases (hagrees "$ref" (by decide)).symm.trans href
  · cases href

end StructuredOutput.Document

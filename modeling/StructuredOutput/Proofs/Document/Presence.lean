import StructuredOutput.Proofs.Codec.Nulls
import StructuredOutput.Proofs.Document.Accepted

/-!
Outside the strict dialect a property that is optional may be left out, but it may not be null.
Encoded values, which leave nothing out, are valid there exactly if nothing in them is null.
-/

namespace StructuredOutput.Document

variable {ds : Declarations} {names : RoleNames} {g : SchemaGraph} {st : Style}
  {document members written : Members} {pattern : String → String → Bool} {c : Content}
  {s : Schema} {described shape : Shape} {rules : List Constraint}

/-! ### Null is refused -/

theorem not_accepts_null_of_type {kind : String}
    (htype : Entries.get? members "type" = some (.string kind)) (hkind : kind ≠ "null") :
    ¬ Accepts pattern document members .null := by
  rintro ⟨_ | depth, haccepts⟩
  · cases haccepts
  · have hnull : hasType .null (.string kind) = true := accepts_keyword haccepts "type" _ htype
    simp only [hasType, isOfType, Content.kind, Kind.typeName] at hnull
    split at hnull
    · cases hnull
    · exact hkind (eq_of_beq hnull).symm

/-- What is no reference and no union has a type. -/
theorem exists_type_of_body (hbody : body st s = .ok members) (href : ∀ name, s ≠ .ref name)
    (hunion : ∀ name description alternatives, s ≠ .union name description alternatives) :
    ∃ kind, Entries.get? members "type" = some (.string kind) ∧ kind ≠ "null" := by
  cases s with
  | string rules =>
    cases hbody
    refine ⟨"string", ?_, by decide⟩
    rw [get?_rules (by decide) (by decide) (by decide) fun h => absurd h (by decide)]
    rfl
  | integer ranges =>
    cases hbody
    exact ⟨"integer", (get?_ranges (by decide) (by decide)).trans rfl, by decide⟩
  | number ranges =>
    cases hbody
    exact ⟨"number", (get?_ranges (by decide) (by decide)).trans rfl, by decide⟩
  | boolean =>
    cases hbody
    exact ⟨"boolean", rfl, by decide⟩
  | array item counts =>
    obtain ⟨rendered, -, rfl⟩ := body_array.mp hbody
    exact ⟨"array", (get?_counts (by decide) (by decide)).trans rfl, by decide⟩
  | object name description properties =>
    obtain ⟨rendered, -, rfl⟩ := body_object.mp hbody
    exact ⟨"object", (get?_object (by decide)).trans rfl, by decide⟩
  | union name description alternatives => exact absurd rfl (hunion name description alternatives)
  | ref name => exact absurd rfl (href name)

theorem not_accepts_null_of_body (hbody : body st s = .ok members) (href : ∀ name, s ≠ .ref name)
    (hunion : ∀ name description alternatives, s ≠ .union name description alternatives) :
    ¬ Accepts pattern document members .null := by
  obtain ⟨kind, htype, hkind⟩ := exists_type_of_body hbody href hunion
  exact not_accepts_null_of_type htype hkind

theorem not_accepts_null_case {unionName id : String} {records : List String} {node : Schema}
    (hnode : Defines ds names (.case unionName records id) node)
    (hwritten : body st node = .ok written) : ¬ Accepts pattern document written .null := by
  cases hnode with
  | case => exact not_accepts_null_of_body hwritten (by simp) (by simp)

theorem accepts_alternative {name : String} {description : Option String}
    {alternatives : List Schema}
    (hwritten : body st (.union name description alternatives) = .ok written)
    (h : Accepts pattern document written c) :
    ∃ s ∈ alternatives, ∃ r, emit st s = .ok r ∧ Accepts pattern document r c := by
  obtain ⟨_ | depth, haccepts⟩ := h
  · cases haccepts
  · obtain ⟨s, hs, r, hr, hrest⟩ := union_accepts hwritten haccepts
    exact ⟨s, hs, r, hr, depth, hrest⟩

/-- What stands for an alternative of a union accepts what the body of its case does. -/
theorem exists_case {unionName name : String} {recordIds : List String}
    {alternatives : List Schema} {description : Option String} (hg : g.Closed ds names shape)
    (hd : Complete ds names g st document)
    (hnode : Defines ds names (.union unionName recordIds)
      (.union name description alternatives))
    (hwithin : (Schema.union name description alternatives).Within g.root)
    (hs : s ∈ alternatives) (hemit : emit st s = .ok members) :
    ∃ id ∈ recordIds, ∃ node written, node.Within g.root ∧
      Defines ds names (.case unionName recordIds id) node ∧ body st node = .ok written ∧
      ∀ pattern c, Accepts pattern document members c ↔ Accepts pattern document written c := by
  cases hnode with
  | union named distinct aligned each =>
    obtain ⟨id, hid, hcase⟩ := Outcome.exists_mem_right
      (List.forall₂_iff_zip.mpr ⟨aligned, fun hmem => each _ _ hmem⟩) hs
    obtain ⟨caseName, hcaseName, hcaseNamed⟩ := hcase.named
    have hmirrors : Mirrors ds names s (.union "" none [⟨id, ds.caseTag id⟩]) [] :=
      hcase.mirrors rfl
    have hpart : s ∈ (Schema.union name description alternatives).parts := hs
    obtain ⟨node, role, written, hnode, hrole, hnamed, -, hwritten, htransfer⟩ :=
      exists_written hg hd hmirrors (hwithin.part hpart)
        hcaseName hemit
    obtain rfl := Derivation.role_unique hd.distinct hcaseNamed hnamed
    exact ⟨id, hid, node, written, hnode, hrole, hwritten, htransfer⟩

/-- What stands for a schema that mirrors a shape does not accept null. -/
theorem not_accepts_null (hg : g.Closed ds names shape) (hd : Complete ds names g st document)
    (hs : Mirrors ds names s described rules) (hwithin : s.Within g.root)
    (hemit : emit st s = .ok members) : ¬ Accepts pattern document members .null := by
  cases hname : s.name? with
  | none =>
    rcases emit_origin hemit with ⟨hbody, hplain⟩ | ⟨name, hsome, -⟩
    · refine not_accepts_null_of_body hbody hplain ?_
      rintro name description alternatives rfl
      cases hname
    · cases hname.symm.trans hsome
  | some name =>
    obtain ⟨node, role, written, hnode, hrole, -, -, hwritten, htransfer⟩ :=
      exists_written hg hd hs hwithin hname hemit
    rw [htransfer]
    cases hrole with
    | enum =>
      intro haccepts
      obtain ⟨t, ht, r, hr, hnull⟩ := accepts_alternative hwritten haccepts
      obtain ⟨w, -, rfl⟩ := List.mem_map.mp ht
      have hbody : body st (.string [.constant w.1]) = .ok r := hr
      exact not_accepts_null_of_body hbody (by simp) (by simp) hnull
    | record => exact not_accepts_null_of_body hwritten (by simp) (by simp)
    | case named resolved untagged fields description =>
      exact not_accepts_null_case (.case named resolved untagged fields description) hwritten
    | union named distinct aligned each description =>
      intro haccepts
      obtain ⟨t, ht, r, hr, hnull⟩ := accepts_alternative hwritten haccepts
      obtain ⟨id, -, node', written', -, hcase, hwritten', htransfer'⟩ := exists_case hg hd
        (.union named distinct aligned each description) hnode ht hr
      exact not_accepts_null_case hcase hwritten' ((htransfer' _ _).mp hnull)

/-! ### What is accepted -/

/-- Outside the strict dialect a property accepts just what the document of its schema does. -/
theorem accepts_of_lenient_property {p : Property Schema} {depth : Nat}
    (hlenient : st.backend ≠ .openai)
    (h : accepts pattern document depth (st.property p members) c = true) :
    Accepts pattern document members c := by
  have hdescribed := accepts_of_agree (.inl rfl) (fun _ => get?_describe) h
  rw [beq_eq_false_iff_ne.mpr hlenient, Bool.false_and, if_neg Bool.false_ne_true] at hdescribed
  exact ⟨depth, hdescribed⟩

/-- The entries of an object that is accepted are accepted as the properties of their keys. -/
theorem accepts_entry {name : String} {description : Option String}
    {properties : List (Property Schema)} {entries : List (String × Content)}
    (hlenient : st.backend ≠ .openai)
    (hwritten : body st (.object name description properties) = .ok written)
    (hkeys : (properties.map (·.key)).Nodup)
    (hentries : Entries.names entries = properties.map (·.key))
    (h : Accepts pattern document written (.object entries)) {e : String × Content}
    {p : Property Schema} (hmem : (e, p) ∈ entries.zip properties) :
    ∃ r, emit st p.schema = .ok r ∧ Accepts pattern document r e.2 := by
  obtain ⟨rendered, hrendered, rfl⟩ := body_object.mp hwritten
  obtain ⟨_ | depth, haccepts⟩ := h
  · cases haccepts
  obtain ⟨given, heq, hproperties⟩ := object_accepts hrendered hkeys haccepts
  cases heq
  obtain ⟨he, hp⟩ := List.of_mem_zip hmem
  obtain ⟨r, hr, -, hvalue⟩ := hproperties p hp
  have hkey : e.1 = p.key :=
    (List.forall₂_iff_zip.mp (Entries.forall₂_of_names hentries)).2 hmem
  have hget : Entries.get? entries p.key = some e.2 :=
    hkey ▸ Entries.get?_of_mem (hentries ▸ hkeys) he
  exact ⟨r, hr, accepts_of_lenient_property hlenient (hvalue e.2 hget)⟩

/-- Conforming content is without null if what stands for some schema of its shape accepts it. -/
def Refutes (ds : Declarations) (names : RoleNames) (g : SchemaGraph) (st : Style)
    (document : Members) (pattern : String → String → Bool) (c : Content) : Prop :=
  ∀ described rules s members, Conforms ds (Meets pattern) c described rules →
    Mirrors ds names s described rules → s.Within g.root → emit st s = .ok members →
      Accepts pattern document members c → c.NullFree

theorem nullFree_entries {properties : List (Property Schema)} {fields : List FieldShape}
    {entries : List (String × Content)} (hg : g.Closed ds names shape)
    (hd : Complete ds names g st document) (hproperties : MirrorsFields ds names properties fields)
    (hwithin : ∀ p ∈ properties, p.schema.Within g.root)
    (hentries : Entries.names entries = fields.map (·.key))
    (heach : ∀ e f, (e, f) ∈ entries.zip fields →
      Conforms ds (Meets pattern) e.2 f.whole f.whole.constraints)
    (haccepted : ∀ e p, (e, p) ∈ entries.zip properties →
      ∃ r, emit st p.schema = .ok r ∧ Accepts pattern document r e.2)
    (ih : ∀ e ∈ entries, Refutes ds names g st document pattern e.2) :
    ∀ e ∈ entries, e.2.NullFree := by
  intro e he
  have haligned : Entries.names entries = properties.map (·.key) :=
    hentries.trans (keys_eq_of_alike hproperties.alike).symm
  obtain ⟨i, hi⟩ := List.getElem?_of_mem he
  obtain ⟨p, hp, -⟩ := Outcome.exists_getElem?_right (Entries.forall₂_of_names haligned) hi
  have hmem : (e, p) ∈ entries.zip properties :=
    List.mem_of_getElem? (List.getElem?_zip_eq_some.mpr ⟨hi, hp⟩)
  have hpwithin : p.schema.Within g.root := hwithin p (List.mem_of_getElem? hp)
  obtain ⟨r, hr, haccepts⟩ := haccepted e p hmem
  obtain ⟨f, hf, -, hmirrors⟩ := hproperties.exists_of_zip hmem
  rcases (heach e f hf).of_whole with ⟨-, hnull⟩ | hconforms
  · exact absurd (hnull ▸ haccepts) (not_accepts_null hg hd hmirrors hpwithin hr)
  · exact ih e he f.shape _ p.schema r hconforms hmirrors hpwithin hr haccepts

theorem nullFree_of_scalar (hc : c ≠ .null) (hparts : c.parts = []) : c.NullFree :=
  .intro hc fun _ hpart => absurd (hparts ▸ hpart) List.not_mem_nil

theorem nullFree_record {id name : String} {description : Option String} {node : Schema}
    (hlenient : st.backend ≠ .openai) (hg : g.Closed ds names shape)
    (hd : Complete ds names g st document) (hnode : Defines ds names (.record id) node)
    (hwithin : node.Within g.root) (hwritten : body st node = .ok written)
    (hc : Conforms ds (Meets pattern) c (.record id name description) rules)
    (ih : ∀ part ∈ c.parts, Refutes ds names g st document pattern part)
    (h : Accepts pattern document written c) : c.NullFree := by
  cases hnode with
  | record named resolved fields =>
  cases hc with
  | record resolved' keys each =>
    obtain rfl := Except.ok.inj (resolved.symm.trans resolved')
    have hkeys := keys_eq_of_alike fields.alike
    have hdiffer := (Declarations.fielded_of_fieldShapes resolved).keys
    refine Content.nullFree_object.mpr (nullFree_entries hg hd fields (fun p hp => ?_) keys each
      (fun e p => accepts_entry hlenient hwritten (hkeys ▸ hdiffer) (keys.trans hkeys.symm) h)
      (List.forall_mem_map.mp ih))
    exact hwithin.part (Schema.mem_parts_of_mem_properties hp)

theorem nullFree_case {unionName id : String} {records : List String} {node : Schema}
    (hlenient : st.backend ≠ .openai) (hg : g.Closed ds names shape)
    (hd : Complete ds names g st document)
    (hnode : Defines ds names (.case unionName records id) node)
    (hwithin : node.Within g.root) (hwritten : body st node = .ok written)
    (hc : Conforms ds (Meets pattern) c (.union "" none [⟨id, ds.caseTag id⟩]) [])
    (ih : ∀ part ∈ c.parts, Refutes ds names g st document pattern part)
    (h : Accepts pattern document written c) : c.NullFree := by
  cases hnode with
  | case named resolved untagged fields =>
  cases hc with
  | @union _ found _ entries mem resolved' keys each =>
    obtain rfl := List.mem_singleton.mp mem
    obtain rfl := Except.ok.inj (resolved.symm.trans resolved')
    have hkeys := keys_eq_of_alike fields.alike
    have hdiffer := (Declarations.fielded_of_fieldShapes resolved).keys
    have hpart {e : String × Content} (he : e ∈ entries) :
        e.2 ∈ (Content.object ((discriminatorKey, .string (ds.caseTag id)) :: entries)).parts :=
      List.mem_map_of_mem (List.mem_cons_of_mem _ he)
    rw [Content.nullFree_object, List.forall_mem_cons]
    refine ⟨nullFree_of_scalar (by simp) rfl, ?_⟩
    refine nullFree_entries hg hd fields (fun p hp => ?_) keys each (fun e p hmem => ?_)
      fun e he => ih e.2 (hpart he)
    · exact hwithin.part (Schema.mem_parts_of_mem_properties (List.mem_cons_of_mem _ hp))
    · refine accepts_entry hlenient hwritten (List.nodup_cons.mpr ⟨untagged, hkeys ▸ hdiffer⟩) ?_ h
        (List.mem_cons_of_mem _ hmem)
      rw [Entries.names_cons, List.map_cons, keys, hkeys]
      rfl

/-- The document of a case accepts objects with the tag of the case only. -/
theorem tag_of_accepted {unionName id tag : String} {records : List String} {node : Schema}
    {entries : List (String × Content)} (hlenient : st.backend ≠ .openai)
    (hnode : Defines ds names (.case unionName records id) node)
    (hwritten : body st node = .ok written)
    (h : Accepts pattern document written (.object ((discriminatorKey, .string tag) :: entries))) :
    tag = ds.caseTag id := by
  cases hnode with
  | case named resolved untagged fields =>
  have hkeys := keys_eq_of_alike fields.alike
  have hdiffer := (Declarations.fielded_of_fieldShapes resolved).keys
  obtain ⟨rendered, hrendered, rfl⟩ := body_object.mp hwritten
  obtain ⟨_ | depth, haccepts⟩ := h
  · cases haccepts
  obtain ⟨given, heq, hproperties⟩ := object_accepts hrendered
    (List.nodup_cons.mpr ⟨untagged, hkeys ▸ hdiffer⟩) haccepts
  cases heq
  obtain ⟨r, hr, -, hvalue⟩ := hproperties _ List.mem_cons_self
  have hbody : body st (.string [.constant (ds.caseTag id)]) = .ok r := hr
  cases hbody
  obtain ⟨_ | depth', htag⟩ :=
    accepts_of_lenient_property hlenient (hvalue _ (Entries.get?_cons_self _ _ _))
  · cases htag
  have hchoice : ∀ rule ∈ ([] : List TextRule), rule.isChoice = false := by simp
  obtain ⟨w, hw, heq⟩ : ∃ w ∈ [ds.caseTag id], Content.string tag = .string w :=
    choice_accepts hchoice htag
  cases heq
  exact List.mem_singleton.mp hw

/-- What defines the name of a role accepts no content with null that conforms to a shape of the
role. -/
theorem nullFree_defined {role : Role} {node : Schema} (hlenient : st.backend ≠ .openai)
    (hg : g.Closed ds names shape) (hd : Complete ds names g st document)
    (hnode : Defines ds names role node) (hdescribes : role.Describes ds described)
    (hwithin : node.Within g.root) (hwritten : body st node = .ok written)
    (hc : Conforms ds (Meets pattern) c described rules)
    (ih : ∀ part ∈ c.parts, Refutes ds names g st document pattern part)
    (h : Accepts pattern document written c) : c.NullFree := by
  cases hnode with
  | enum =>
    cases described <;> cases hdescribes
    cases hc with
    | enum => exact nullFree_of_scalar (by simp) rfl
  | record named resolved fields description =>
    cases described <;> cases hdescribes
    exact nullFree_record hlenient hg hd (.record named resolved fields description) hwithin
      hwritten hc ih h
  | case named resolved untagged fields description =>
    cases described <;> cases hdescribes
    obtain ⟨found, hfound, hone⟩ := hc.exists_case
    obtain rfl := List.mem_singleton.mp hfound
    exact nullFree_case hlenient hg hd (.case named resolved untagged fields description) hwithin
      hwritten hone ih h
  | @union unionName name records alternatives named distinct aligned each description =>
    cases described <;> cases hdescribes
    obtain ⟨found, hfound, hone⟩ := hc.exists_case
    obtain ⟨id, hid, rfl⟩ := List.mem_map.mp hfound
    obtain ⟨t, ht, r, hr, haccepts⟩ := accepts_alternative hwritten h
    obtain ⟨id', hid', node', written', hnode', hcase, hwritten', htransfer⟩ := exists_case hg hd
      (.union named distinct aligned each description) hwithin ht hr
    have haccepts' := (htransfer pattern c).mp haccepts
    -- The alternative that accepts the content is the one of its case, since tags differ.
    have htag : ds.caseTag id = ds.caseTag id' := by
      cases hone with
      | union mem =>
        obtain rfl := List.mem_singleton.mp mem
        exact tag_of_accepted hlenient hcase hwritten' haccepts'
    obtain rfl : id = id' := List.inj_on_of_nodup_map distinct hid hid' htag
    exact nullFree_case hlenient hg hd hcase hnode' hwritten' hone ih haccepts'

theorem nullFree_unnamed (hs : Mirrors ds names s described rules) (hname : s.name? = none)
    (hwithin : s.Within g.root) (hbody : body st s = .ok members)
    (hc : Conforms ds (Meets pattern) c described rules)
    (ih : ∀ part ∈ c.parts, Refutes ds names g st document pattern part)
    (h : Accepts pattern document members c) : c.NullFree := by
  cases hs with
  | text | integer | real | bool | literal =>
    cases hc
    exact nullFree_of_scalar (by simp) rfl
  | @array item shape rules items container constraints =>
    obtain ⟨rendered, hrendered, rfl⟩ := body_array.mp hbody
    obtain ⟨_ | depth, haccepts⟩ := h
    · cases haccepts
    have hitems := accepts_keyword haccepts "items" (.object rendered) (by
      rw [get?_counts (by decide) (by decide)]
      rfl)
    cases hc with
    | array held each =>
      refine Content.nullFree_array.mpr fun part hpart => ?_
      have hitem : item.Within g.root := hwithin.part (List.mem_singleton_self item)
      exact ih part hpart shape _ item rendered (each part hpart) items hitem hrendered
        ⟨depth, List.all_eq_true.mp hitems part hpart⟩
  | _ => cases hname

/-- Outside the strict dialect no content with null is accepted by what stands for a schema of its
shape. -/
theorem refutes (hlenient : st.backend ≠ .openai) (hg : g.Closed ds names shape)
    (hd : Complete ds names g st document) (c : Content) :
    Refutes ds names g st document pattern c := by
  induction c using Content.parts_induction with
  | h c ih =>
    intro described rules s members hc hs hwithin hemit haccepts
    cases hname : s.name? with
    | none =>
      rcases emit_origin hemit with ⟨hbody, -⟩ | ⟨name, hsome, -⟩
      · exact nullFree_unnamed hs hname hwithin hbody hc ih haccepts
      · cases hname.symm.trans hsome
    | some name =>
      obtain ⟨node, role, written, hnode, hrole, -, hdescribes, hwritten, htransfer⟩ :=
        exists_written hg hd hs hwithin hname hemit
      exact nullFree_defined hlenient hg hd hrole hdescribes hnode hwritten hc ih
        ((htransfer pattern c).mp haccepts)

/-- The body of the root accepts conforming content exactly if nothing in the content is null. -/
theorem root_accepts_iff (hlenient : st.backend ≠ .openai) (hg : g.Closed ds names shape)
    (hd : Complete ds names g st document) (hbody : body st g.root = .ok members)
    (hc : Conforms ds (Meets pattern) c shape shape.constraints) :
    Accepts pattern document members c ↔ c.NullFree := by
  by_cases hdefines : g.root.defines = true
  · obtain ⟨role, hrole, hdescribes, -⟩ := hg.root.exists_defines hg.distinct hdefines
    exact ⟨nullFree_defined hlenient hg hd hrole hdescribes (.refl g.root) hbody hc
        fun part _ => refutes hlenient hg hd part,
      fun hfree => accepts_defined hg hd hrole hdescribes (.refl g.root) hbody hc (.inr hfree)
        fun part hpart => admitted hg hd part (.inr (hfree.part hpart))⟩
  · have hemit : emit st g.root = .ok members :=
      (emit_of_not_defines (Bool.eq_false_of_not_eq_true hdefines)).trans hbody
    exact ⟨refutes hlenient hg hd c _ _ _ _ hc hg.root (.refl g.root) hemit,
      fun hfree => admitted hg hd c (.inr hfree) _ _ _ _ hc hg.root (.refl g.root) hemit⟩

end StructuredOutput.Document

namespace StructuredOutput

section

variable {ds : Declarations} {t : TypeExpr} {shape : Shape} {g : SchemaGraph} {backend : Backend}
  {settings : ProjectionSettings} {document : Members} {notices : List Notice} {v : Value}
  {pattern : String → String → Bool}

theorem valid_iff_present {c : Content} (hbackend : backend = .jsonSchema ∨ backend = .gemini)
    (hshape : ds.shapeOf t = .ok shape) (hderive : (ds.deriveSchema t).1 = .ok g)
    (hproject : g.project backend settings = .ok (.document document, notices))
    (hv : WellTyped ds v shape) (hmeets : Satisfies ds pattern v shape)
    (hc : Encoding.value ds v shape .top = .ok c) :
    Document.Valid pattern document c ↔ Site.Present ds ⟨v, shape, shape.constraints⟩ := by
  obtain ⟨names, hg⟩ := Declarations.closed_of_deriveSchema hshape hderive
  obtain ⟨named, hnamed, hrender⟩ := SchemaGraph.render_of_project hproject
  have hd := Document.complete_of_render hg hnamed hrender
  obtain ⟨c', hc', hconforms⟩ := hv.encodesTo hg.resolves hg.untagged hmeets .top
  obtain rfl : c = c' := Except.ok.inj (hc.symm.trans hc')
  obtain ⟨-, members, hmembers, hdocument⟩ := Document.render_eq_ok_iff.mp hrender
  have hlenient : (Document.styleFor g.root backend named settings).backend ≠ .openai := by
    rcases hbackend with rfl | rfl <;> exact fun heq => by cases heq
  calc Document.Valid pattern document c
    _ ↔ Document.Accepts pattern document members c := Document.accepts_of_root hdocument
    _ ↔ c.NullFree := Document.root_accepts_iff hlenient hg hd hmembers hconforms
    _ ↔ Site.Present ds ⟨v, shape, shape.constraints⟩ := hv.keepsNulls hg.untagged _ _ c hc

/-- A value of a type is encoded to content that is valid against the generic document of the type,
or the one for Gemini, exactly if no part of the value is null, provided that its parts meet all
refinements that are declared for them. -/
theorem valid_encode_iff_present (hbackend : backend = .jsonSchema ∨ backend = .gemini)
    (hshape : ds.shapeOf t = .ok shape) (hderive : (ds.deriveSchema t).1 = .ok g)
    (hproject : g.project backend settings = .ok (.document document, notices))
    (hv : WellTyped ds v shape) (hmeets : Satisfies ds pattern v shape) :
    ∃ c, encode ds v (some t) = .ok c ∧
      (Document.Valid pattern document c ↔ Site.Present ds ⟨v, shape, shape.constraints⟩) := by
  obtain ⟨names, hg⟩ := Declarations.closed_of_deriveSchema hshape hderive
  obtain ⟨c, hc, -⟩ := hv.encodesTo hg.resolves hg.untagged hmeets .top
  exact ⟨c, by simp [encode, hshape, hc],
    valid_iff_present hbackend hshape hderive hproject hv hmeets hc⟩

end

/-! ### Forks with and without a second leaf -/

namespace Forest

/-- The generic document of a fork. -/
def genericDocument : Members :=
  match graph.project .jsonSchema .standard with
  | .ok (.document members, _) => members
  | _ => []

def twoLeaves : Value := forkValue (leafValue 1) (leafValue 2)

def oneLeaf : Value := forkValue (leafValue 1) .null

theorem project_generic : graph.project .jsonSchema .standard =
    .ok (.document genericDocument, [.schemaProjected "json_schema" "Fork" 4]) := rfl

theorem deriveSchema_fork : (forest.deriveSchema (.named "Fork")).1 = .ok graph := by cbv

theorem wellTyped_twoLeaves : WellTyped forest twoLeaves fork :=
  wellTyped_fork (wellTyped_leaf (by decide)) (.present (wellTyped_leaf (by decide)))

theorem wellTyped_oneLeaf : WellTyped forest oneLeaf fork :=
  wellTyped_fork (wellTyped_leaf (by decide)) (.null tree)

theorem constraints_of_within {s : Shape} (h : Within s) : s.constraints = [] := by
  rcases h with rfl | rfl | rfl | rfl <;> rfl

/-- Nothing is declared of what is in a tree. -/
theorem rules_of_inside {s site : Site} (h : Inside forest s site) (hsite : Within site.shape)
    (hrules : site.rules = []) : s.rules = [] := by
  induction h with
  | refl => exact hrules
  | item => rcases hsite with h | h | h | h <;> cases h
  | field read resolved mem _ _ _ ih =>
    obtain ⟨fields, hfields, -, hwithin⟩ := fields_of_within hsite read
    obtain rfl := Except.ok.inj (resolved.symm.trans hfields)
    exact ih (hwithin _ mem) (constraints_of_within (hwithin _ mem))
  | @present _ inner _ _ ih =>
    have hinner : Within inner := by
      rcases hsite with h | h | h | h <;> cases h
      exact .inr (.inl rfl)
    exact ih hinner (constraints_of_within hinner)

theorem satisfies (pattern : String → String → Bool) (v : Value) :
    Satisfies forest pattern v fork := by
  intro s hs c hc
  rw [rules_of_inside hs (.inl rfl) rfl] at hc
  cases hc

theorem present_leaf (size : Int) :
    Site.Present forest ⟨leafValue size, tree, tree.constraints⟩ := by
  have hid : "Leaf" ∈ tree.records := List.mem_cons_self
  refine (Site.present_record hid fieldShapes_leaf).mpr fun f hf v hv => ?_
  obtain rfl := List.mem_singleton.mp hf
  cases hv
  exact Site.present_leaf (by simp) rfl (by simp [integer, FieldShape.whole])
    (by simp [integer, FieldShape.whole])

theorem present_twoLeaves : Site.Present forest ⟨twoLeaves, fork, fork.constraints⟩ := by
  have hid : "Fork" ∈ fork.records := List.mem_cons_self
  refine (Site.present_record hid fieldShapes_fork).mpr fun f hf v hv => ?_
  rcases List.mem_cons.mp hf with rfl | hf
  · cases hv
    exact present_leaf 1
  · obtain rfl := List.mem_singleton.mp hf
    cases hv
    exact (Site.present_optional (by simp [leafValue])).mpr (present_leaf 2)

theorem not_present_oneLeaf : ¬ Site.Present forest ⟨oneLeaf, fork, fork.constraints⟩ := by
  intro h
  have hid : "Fork" ∈ fork.records := List.mem_cons_self
  have hback : (⟨"back", "behind", tree, true, none⟩ : FieldShape) ∈ forkFields :=
    List.mem_cons_of_mem _ List.mem_cons_self
  exact Site.not_present_null ((Site.present_record hid fieldShapes_fork).mp h _ hback .null rfl)

end Forest

open Forest in
theorem valid_encode_iff_present_forest :
    forest.shapeOf (.named "Fork") = .ok fork ∧
      (forest.deriveSchema (.named "Fork")).1 = .ok graph ∧
      graph.project .jsonSchema .standard =
        .ok (.document genericDocument, [.schemaProjected "json_schema" "Fork" 4]) ∧
      WellTyped forest twoLeaves fork ∧ Satisfies forest (fun _ _ => true) twoLeaves fork ∧
      Site.Present forest ⟨twoLeaves, fork, fork.constraints⟩ ∧
      ∃ c, encode forest twoLeaves (some (.named "Fork")) = .ok c ∧
        (Document.Valid (fun _ _ => true) genericDocument c ↔
          Site.Present forest ⟨twoLeaves, fork, fork.constraints⟩) :=
  ⟨shapeOf_fork, deriveSchema_fork, project_generic, wellTyped_twoLeaves, satisfies _ _,
    present_twoLeaves, valid_encode_iff_present (.inl rfl) shapeOf_fork deriveSchema_fork
      project_generic wellTyped_twoLeaves (satisfies _ _)⟩

open Forest in
/-- An absent leaf is encoded as null, which the generic document does not allow. -/
theorem not_valid_encode_oneLeaf :
    forest.shapeOf (.named "Fork") = .ok fork ∧
      (forest.deriveSchema (.named "Fork")).1 = .ok graph ∧
      graph.project .jsonSchema .standard =
        .ok (.document genericDocument, [.schemaProjected "json_schema" "Fork" 4]) ∧
      WellTyped forest oneLeaf fork ∧ Satisfies forest (fun _ _ => true) oneLeaf fork ∧
      ∃ c, encode forest oneLeaf (some (.named "Fork")) = .ok c ∧
        ¬ Document.Valid (fun _ _ => true) genericDocument c := by
  have hmeets : Satisfies forest (fun _ _ => true) oneLeaf fork := satisfies _ _
  obtain ⟨c, hc, -⟩ := wellTyped_oneLeaf.encodesTo resolves untagged hmeets .top
  refine ⟨shapeOf_fork, deriveSchema_fork, project_generic, wellTyped_oneLeaf, hmeets, c,
    by simp [encode, shapeOf_fork, hc], fun hvalid => not_present_oneLeaf ?_⟩
  exact (valid_iff_present (.inl rfl) shapeOf_fork deriveSchema_fork project_generic
    wellTyped_oneLeaf hmeets hc).mp hvalid

end StructuredOutput

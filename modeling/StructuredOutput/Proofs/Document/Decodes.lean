import Mathlib
import StructuredOutput.Proofs.Codec.Decodes
import StructuredOutput.Proofs.Codec.RoundTrip
import StructuredOutput.Proofs.Document.Collected
import StructuredOutput.Proofs.Document.Members

/-!
Content that is valid against the document of a type decodes to a value of the type. The induction
is on the depth to which the document is followed; a reference leads to the document of a schema of
the same role.
-/

namespace StructuredOutput.Document

variable {ds : Declarations} {names : RoleNames} {st : Style} {document : Members}
  {pattern : String → String → Bool}

/-- Where references lead: to the document of a schema that has the name and fits some shape. -/
structure Linked (ds : Declarations) (names : RoleNames) (st : Style) (document : Members) :
    Prop where
  distinct : (names.map (·.2)).Nodup
  leads : ∀ name pointer target, st.pointer name = [("$ref", .string pointer)] →
    target? document pointer = some target → ∃ s shape members, s.name? = some name ∧
      Fits ds names s shape ∧ body st s = .ok members ∧ ∀ pattern depth c,
        accepts pattern document depth target c = true →
          accepts pattern document depth (.object members) c = true

/-- Whatever the document of a schema accepts at a depth decodes to the shapes that it fits. -/
def SoundBelow (ds : Declarations) (names : RoleNames) (st : Style) (document : Members)
    (pattern : String → String → Bool) (depth : Nat)
    (written : Style → Schema → Except ProjectionFault Members) : Prop :=
  ∀ s shape members c, Fits ds names s shape → written st s = .ok members →
    accepts pattern document depth (.object members) c = true → Decodes ds c shape

variable {depth : Nat} {members : Members} {c : Content}

theorem accepts_keyword (h : accepts pattern document (depth + 1) (.object members) c = true)
    (key : String) (value : Json) (hget : Entries.get? members key = some value) :
    keyword pattern document (accepts pattern document depth) members c key value = true :=
  satisfies_iff.mp h key value hget

/-! ### References -/

theorem soundBelow_pointer (hlinked : Linked ds names st document)
    (ih : SoundBelow ds names st document pattern depth body) {s : Schema} {shape : Shape}
    {name : String} (hs : Fits ds names s shape) (hname : s.name? = some name)
    (h : accepts pattern document (depth + 1) (.object (st.pointer name)) c = true) :
    Decodes ds c shape := by
  obtain ⟨pointer, hpointer⟩ : ∃ pointer, st.pointer name = [("$ref", .string pointer)] := ⟨_, rfl⟩
  rw [hpointer] at h
  have href := accepts_keyword h "$ref" _ rfl
  obtain ⟨target, htarget, haccepts⟩ : ∃ target, target? document pointer = some target ∧
      accepts pattern document depth target c = true := by
    cases htarget : target? document pointer with
    | none => simp [keyword, referenced, htarget] at href
    | some target => exact ⟨target, rfl, by simpa [keyword, referenced, htarget] using href⟩
  obtain ⟨t, shape', members, htname, ht, hbody, hmembers⟩ :=
    hlinked.leads name pointer target hpointer htarget
  have hdecodes := ih t shape' members c ht hbody (hmembers _ _ _ haccepts)
  obtain ⟨role, hrole, hdescribes⟩ := hs.exists_role hname
  obtain ⟨role', hrole', hdescribes'⟩ := ht.exists_role htname
  obtain rfl := Derivation.role_unique hlinked.distinct hrole hrole'
  exact hdecodes.of_describes hdescribes' hdescribes

/-- What stands for a schema inside another is as sound as the documents of schemas. -/
theorem soundBelow_emit (hlinked : Linked ds names st document)
    (ih : ∀ d ≤ depth, SoundBelow ds names st document pattern d body) :
    SoundBelow ds names st document pattern depth emit := by
  intro s shape members c hs hemit h
  rcases emit_cases hemit with hbody | ⟨name, hname, rfl⟩
  · exact ih depth (Nat.le_refl depth) s shape members c hs hbody h
  · cases depth with
    | zero => cases h
    | succ depth =>
      exact soundBelow_pointer hlinked (ih depth (Nat.le_succ depth)) hs hname h

/-! ### Properties -/

/-- A description and definitions put no condition on content. -/
theorem accepts_of_agree {wide : Members} {skip : String}
    (hskip : skip = "description" ∨ skip = "$defs")
    (hagree : ∀ key, key ≠ skip → Entries.get? wide key = Entries.get? members key)
    (h : accepts pattern document depth (.object wide) c = true) :
    accepts pattern document depth (.object members) c = true := by
  cases depth with
  | zero => cases h
  | succ depth =>
    refine satisfies_iff.mpr fun key value hget => ?_
    by_cases hkey : key = skip
    · rcases hskip with rfl | rfl <;> (subst hkey; rfl)
    · have hsame := accepts_keyword h _ _ ((hagree key hkey).trans hget)
      have hproperties : "properties" ≠ skip := by rcases hskip with rfl | rfl <;> decide
      have hdeclared : declared wide = declared members := by
        rw [declared, declared, hagree "properties" hproperties]
      unfold keyword at hsame ⊢
      rwa [hdeclared] at hsame

theorem isOfType_null (h : isOfType c "null" = true) : c = .null := by
  cases c <;> simp [isOfType, Content.kind, Kind.typeName] at h
  rfl

theorem equals_null (h : equals .null c = true) : c = .null := by
  cases c <;> simp [equals, numberUnits?] at h
  rfl

private theorem accepts_of_either
    (h : accepts pattern document depth (.object (nullable.either members)) c = true) :
    c = .null ∨ ∃ d ≤ depth, accepts pattern document d (.object members) c = true := by
  cases depth with
  | zero => cases h
  | succ depth =>
    have hany := accepts_keyword h "anyOf" _ rfl
    simp only [keyword, someAlternative, List.any_cons, List.any_nil, Bool.or_false,
      Bool.or_eq_true] at hany
    rcases hany with hmembers | hnull
    · exact .inr ⟨depth, Nat.le_succ depth, hmembers⟩
    · cases depth with
      | zero => cases hnull
      | succ depth => exact .inl (isOfType_null (accepts_keyword hnull "type" _ rfl))

private theorem accepts_of_widened {wide : Members} {kind : String}
    (hkind : Entries.get? members "type" = some (.string kind))
    (htype : Entries.get? wide "type" = some (.array [.string kind, .string "null"]))
    (henum : ∀ value, Entries.get? members "enum" = some value → ∃ more,
      Entries.get? wide "enum" = some more ∧ (isOption c more = true → isOption c value = true))
    (hother : ∀ key, key ≠ "type" → key ≠ "enum" →
      Entries.get? wide key = Entries.get? members key)
    (hc : c ≠ .null)
    (h : accepts pattern document (depth + 1) (.object wide) c = true) :
    accepts pattern document (depth + 1) (.object members) c = true := by
  refine satisfies_iff.mpr fun key value hget => ?_
  by_cases hkeyType : key = "type"
  · subst hkeyType
    obtain rfl : .string kind = value := Option.some.inj (hkind.symm.trans hget)
    have hwide : isOfType c kind = true ∨ isOfType c "null" = true := by
      simpa [keyword, hasType] using accepts_keyword h _ _ htype
    exact hwide.resolve_right fun hnull => hc (isOfType_null hnull)
  by_cases hkeyEnum : key = "enum"
  · subst hkeyEnum
    obtain ⟨more, hmore, himp⟩ := henum value hget
    exact himp (accepts_keyword h _ _ hmore)
  · have hsame := accepts_keyword h _ _ ((hother key hkeyType hkeyEnum).trans hget)
    have hdeclared : declared wide = declared members := by
      rw [declared, declared, hother "properties" (by decide) (by decide)]
    unfold keyword at hsame ⊢
    rwa [hdeclared] at hsame

/-- Besides null, what may be null accepts nothing else than before. -/
theorem accepts_of_nullable
    (h : accepts pattern document depth (.object (nullable members)) c = true) :
    c = .null ∨ ∃ d ≤ depth, accepts pattern document d (.object members) c = true := by
  unfold nullable at h
  split at h
  · next kind hkind =>
    split at h
    · exact accepts_of_either h
    by_cases hc : c = .null
    · exact .inl hc
    refine .inr ⟨depth, Nat.le_refl depth, ?_⟩
    cases depth with
    | zero => cases h
    | succ depth =>
      dsimp only at h
      split at h
      · next options henum =>
        refine accepts_of_widened hkind ?_ (fun value hvalue => ⟨_, Entries.get?_put_self _ _ _, ?_⟩)
          (fun key hkeyType hkeyEnum => ?_) hc h
        · rw [Entries.get?_put_of_ne _ _ (by decide), Entries.get?_put_self]
        · obtain rfl : .array options = value := Option.some.inj (henum.symm.trans hvalue)
          intro hmore
          simp only [isOption, List.any_append, List.any_cons, List.any_nil, Bool.or_false,
            Bool.or_eq_true] at hmore
          exact hmore.resolve_right fun hnull => hc (equals_null hnull)
        · rw [Entries.get?_put_of_ne _ _ hkeyEnum, Entries.get?_put_of_ne _ _ hkeyType]
      · refine accepts_of_widened hkind (Entries.get?_put_self _ _ _)
          (fun value hvalue => ⟨value, ?_, id⟩)
          (fun key hkeyType _ => Entries.get?_put_of_ne _ _ hkeyType) hc h
        rw [Entries.get?_put_of_ne _ _ (by decide), hvalue]
  · exact accepts_of_either h

/-- A property accepts null, if it is optional, and what the document of its schema accepts. -/
theorem accepts_of_property {p : Property Schema}
    (h : accepts pattern document depth (st.property p members) c = true) :
    p.optional = true ∧ c = .null ∨
      ∃ d ≤ depth, accepts pattern document d (.object members) c = true := by
  have hdescribed := accepts_of_agree (.inl rfl) (fun _ => get?_describe) h
  split at hdescribed
  · next hoptional =>
    rcases accepts_of_nullable hdescribed with hnull | haccepts
    · exact .inl ⟨(Bool.and_eq_true _ _ ▸ hoptional).2, hnull⟩
    · exact .inr haccepts
  · exact .inr ⟨depth, Nat.le_refl depth, hdescribed⟩

/-! ### Objects -/

/-- What the document of an object says of content. -/
theorem object_accepts {name : String} {description : Option String}
    {properties : List (Property Schema)} {rendered : Members}
    (hrendered : bodies st properties = .ok rendered) (hkeys : (properties.map (·.key)).Nodup)
    (h : accepts pattern document (depth + 1)
      (.object (st.object name description properties rendered)) c = true) :
    ∃ entries, c = .object entries ∧ ∀ p ∈ properties, ∃ r, emit st p.schema = .ok r ∧
      (p.optional = false → ∃ value, Entries.get? entries p.key = some value) ∧
        ∀ value, Entries.get? entries p.key = some value →
          accepts pattern document depth (st.property p r) value = true := by
  have htype := accepts_keyword h "type" (.string "object")
    ((get?_object (by decide)).trans rfl)
  obtain ⟨entries, rfl⟩ := isOfType_object htype
  refine ⟨entries, rfl, fun p hp => ?_⟩
  have hnames := names_bodies hrendered
  obtain ⟨e, he, r, hr, rfl⟩ := Outcome.exists_mem_right (bodies_eq_ok.mp hrendered) hp
  have hproperty : Entries.get? rendered p.key = some (st.property p r) :=
    Entries.get?_of_mem (hnames ▸ hkeys) he
  refine ⟨r, hr, fun hoptional => ?_, fun value hvalue => ?_⟩
  · have hrequired := accepts_keyword h "required" _
      ((get?_object (by decide)).trans rfl)
    have hall := List.all_eq_true.mp hrequired (.string p.key)
      (List.mem_map_of_mem (mem_required hp hoptional))
    exact Option.isSome_iff_exists.mp hall
  · have hdeclared := accepts_keyword h "properties" _
      ((get?_object (by decide)).trans rfl)
    have hall := List.all_eq_true.mp hdeclared (p.key, value) (Entries.mem_of_get? hvalue)
    simpa [hproperty] using hall

/-- An object that is accepted supplies the fields that its properties come from. -/
theorem supplies_of_accepts {properties : List (Property Schema)} {fields : List FieldShape}
    {entries : List (String × Content)} (hfits : FitsFields ds names properties fields)
    (ih : ∀ d ≤ depth, SoundBelow ds names st document pattern d emit)
    (h : ∀ p ∈ properties, ∃ r, emit st p.schema = .ok r ∧
      (p.optional = false → ∃ value, Entries.get? entries p.key = some value) ∧
        ∀ value, Entries.get? entries p.key = some value →
          accepts pattern document depth (st.property p r) value = true) :
    Decodes.Supplies ds entries fields := by
  intro f hf path
  obtain ⟨p, hp, hkey, hoptional, hschema⟩ := Outcome.exists_mem_left hfits.forall₂ hf
  obtain ⟨r, hr, hrequired, haccepts⟩ := h p hp
  rw [Decoding.field_eq, ← hkey]
  cases hget : Entries.get? entries p.key with
  | none =>
    cases hopt : f.optional with
    | true => exact ⟨.null, rfl⟩
    | false =>
      obtain ⟨value, hvalue⟩ := hrequired (hoptional.trans hopt)
      cases hget.symm.trans hvalue
  | some value =>
    have hdecodes : Decodes ds value f.whole := by
      refine .whole ?_
      rcases accepts_of_property (haccepts value hget) with ⟨hopt, hnull⟩ | ⟨d, hd, haccepted⟩
      · exact .inl ⟨hoptional ▸ hopt, hnull⟩
      · exact .inr (ih d hd p.schema f.shape r value hschema hr haccepted)
    exact hdecodes _

/-! ### Schemas -/

/-- Some alternative of an accepted union is accepted. -/
theorem union_accepts {name : String} {description : Option String} {alternatives : List Schema}
    (hbody : body st (.union name description alternatives) = .ok members)
    (h : accepts pattern document (depth + 1) (.object members) c = true) :
    ∃ s ∈ alternatives, ∃ r, emit st s = .ok r ∧
      accepts pattern document depth (.object r) c = true := by
  obtain ⟨rendered, hrendered, rfl⟩ := body_union hbody
  have hany := accepts_keyword h "anyOf" (.array rendered) (by
    rw [Entries.get?_append, get?_describe (by decide)]
    rfl)
  obtain ⟨j, hj, haccepts⟩ := List.any_eq_true.mp hany
  obtain ⟨s, hs, r, hr, rfl⟩ := Outcome.exists_mem_left (choices_eq_ok.mp hrendered) hj
  exact ⟨s, hs, r, hr, haccepts⟩

theorem choice_accepts {values : List String} {rules : List TextRule}
    (hspared : ∀ rule ∈ rules, rule.isChoice = false)
    (h : accepts pattern document (depth + 1) (.object
      ((Derivation.choice values :: rules).foldl putRule [("type", .string "string")])) c = true) :
    ∃ s ∈ values, c = .string s := by
  have henum : Entries.get? (putRule [("type", .string "string")] (Derivation.choice values))
      "enum" = some (.array (values.map .string)) := by
    unfold Derivation.choice
    split <;> rfl
  have hoption := accepts_keyword h "enum" _ (by
    rw [List.foldl_cons, get?_rules (by decide) (by decide) (by decide) fun _ => hspared, henum])
  obtain ⟨j, hj, hequal⟩ := List.any_eq_true.mp hoption
  obtain ⟨s, hs, rfl⟩ := List.mem_map.mp hj
  refine ⟨s, hs, ?_⟩
  cases c <;> simp [equals, numberUnits?] at hequal
  rw [hequal]

theorem array_accepts {item : Schema} {counts : List Span}
    (hbody : body st (.array item counts) = .ok members)
    (h : accepts pattern document (depth + 1) (.object members) c = true) :
    ∃ contents r, c = .array contents ∧ emit st item = .ok r ∧
      ∀ c' ∈ contents, accepts pattern document depth (.object r) c' = true := by
  obtain ⟨rendered, hrendered, rfl⟩ := body_array.mp hbody
  have htype := accepts_keyword h "type" (.string "array") (by
    rw [get?_counts (by decide) (by decide)]
    rfl)
  have hitems := accepts_keyword h "items" (.object rendered) (by
    rw [get?_counts (by decide) (by decide)]
    rfl)
  obtain ⟨contents, rfl⟩ := isOfType_array htype
  exact ⟨contents, rendered, rfl, hrendered, fun c' hc' => List.all_eq_true.mp hitems c' hc'⟩

/-- What stands for a constant text accepts nothing but the text. -/
theorem constant_accepts (hsound : SoundBelow ds names st document pattern depth emit)
    {text : String} (hemit : emit st (.string [.constant text]) = .ok members)
    (h : accepts pattern document depth (.object members) c = true) : c = .string text := by
  have hliteral := hsound _ (.literal [text] []) members c (.literal (by simp) [text] []) hemit h
  obtain ⟨s, hs, rfl⟩ := Decodes.literal_iff.mp hliteral
  rw [List.mem_singleton.mp hs]

/-- The tag of an object of a union is the one of its case. -/
theorem tagProperty_accepts (hemit : ∀ d ≤ depth, SoundBelow ds names st document pattern d emit)
    {tag : String} (hr : emit st (tagProperty tag).schema = .ok members)
    (h : accepts pattern document depth (st.property (tagProperty tag) members) c = true) :
    c = .string tag := by
  rcases accepts_of_property h with ⟨hopt, -⟩ | ⟨d, hd, haccepted⟩
  · cases hopt
  · exact constant_accepts (hemit d hd) hr haccepted

theorem soundBelow_body (hlinked : Linked ds names st document) (depth : Nat) :
    SoundBelow ds names st document pattern depth body := by
  induction depth using Nat.strongRecOn with
  | ind depth ih =>
  intro s shape members c hs hbody h
  cases depth with
  | zero => cases h
  | succ depth =>
  have hemit : ∀ d ≤ depth, SoundBelow ds names st document pattern d emit := fun d hd =>
    soundBelow_emit hlinked fun d' hd' => ih d' (by omega)
  cases hs with
  | text rules constraints =>
    cases hbody
    have htype := accepts_keyword h "type" (.string "string") (by
      rw [get?_rules (by decide) (by decide) (by decide) fun h => absurd h (by decide)]
      rfl)
    obtain ⟨s, rfl⟩ := isOfType_string htype
    exact .text s constraints
  | integer ranges constraints =>
    cases hbody
    have htype := accepts_keyword h "type" (.string "integer") (by
      rw [get?_ranges (by decide) (by decide)]
      rfl)
    obtain ⟨x, rfl, hx⟩ := isOfType_integer htype
    exact .integer hx constraints
  | real ranges constraints =>
    cases hbody
    have htype := accepts_keyword h "type" (.string "number") (by
      rw [get?_ranges (by decide) (by decide)]
      rfl)
    obtain ⟨x, rfl⟩ := isOfType_number htype
    exact .real x constraints
  | bool constraints =>
    cases hbody
    obtain ⟨b, rfl⟩ := isOfType_boolean (accepts_keyword h "type" _ rfl)
    exact .bool b constraints
  | literal spared values constraints =>
    cases hbody
    exact Decodes.literal_iff.mpr (choice_accepts spared h)
  | @array item shape items counts container constraints =>
    obtain ⟨contents, r, rfl, hr, hall⟩ := array_accepts hbody h
    refine .array (fun c' hc' => ?_) container constraints
    exact hemit depth (Nat.le_refl depth) item shape r c' items hr (hall c' hc')
  | @ref role name shape named described =>
    rw [body] at hbody
    split at hbody
    · cases hbody
      exact soundBelow_pointer hlinked (ih depth (Nat.lt_succ_self depth))
        (.ref named described) rfl h
    · cases hbody
  | enum named description shapeName shapeDescription =>
    obtain ⟨s, hs, r, hr, haccepts⟩ := union_accepts hbody h
    obtain ⟨w, hw, rfl⟩ := List.mem_map.mp hs
    obtain rfl := constant_accepts (hemit depth (Nat.le_refl depth)) hr haccepts
    exact .enum (List.mem_map_of_mem hw) shapeName shapeDescription
  | record named resolved alike each description shapeName shapeDescription =>
    obtain ⟨rendered, hrendered, rfl⟩ := body_object.mp hbody
    have hfits : FitsFields ds names _ _ := ⟨alike, each⟩
    have hkeys := (Declarations.fielded_of_fieldShapes resolved).keys
    obtain ⟨entries, rfl, hproperties⟩ := object_accepts hrendered (hfits.keys_eq ▸ hkeys) h
    exact .record resolved (supplies_of_accepts hfits hemit hproperties) shapeName shapeDescription
  | @case _ id _ _ _ _ named resolved untagged alike each description shapeName shapeDescription =>
    obtain ⟨rendered, hrendered, rfl⟩ := body_object.mp hbody
    have hfits : FitsFields ds names _ _ := ⟨alike, each⟩
    have hkeys := (Declarations.fielded_of_fieldShapes resolved).keys
    obtain ⟨entries, rfl, hproperties⟩ := object_accepts hrendered
      (List.nodup_cons.mpr ⟨untagged, hfits.keys_eq ▸ hkeys⟩) h
    obtain ⟨r, hr, hrequired, haccepts⟩ := hproperties _ List.mem_cons_self
    obtain ⟨value, hvalue⟩ := hrequired rfl
    have htag := tagProperty_accepts hemit hr (haccepts value hvalue)
    let found : Case := ⟨id, ds.caseTag id⟩
    have hfound : Entries.get? entries discriminatorKey = some (.string found.tag) :=
      htag ▸ hvalue
    have hcase : caseFor? [found] found.tag = some found :=
      caseFor?_of_mem (List.mem_singleton_self _) (List.nodup_singleton _)
    exact .union hfound hcase resolved
      (supplies_of_accepts hfits hemit fun p hp => hproperties p (List.mem_cons_of_mem _ hp))
      shapeName shapeDescription
  | union named distinct aligned each description shapeName shapeDescription =>
    obtain ⟨s, hs, r, hr, haccepts⟩ := union_accepts hbody h
    have hall := List.forall₂_iff_zip.mpr ⟨aligned, fun hmem => each _ _ hmem⟩
    obtain ⟨id, hid, hfits⟩ := Outcome.exists_mem_right hall hs
    have hone := hemit depth (Nat.le_refl depth) s _ r c hfits hr haccepts
    refine hone.of_case (List.mem_map.mpr ⟨id, hid, rfl⟩) ?_ shapeName shapeDescription
    rwa [List.map_map]

/-! ### Whole documents -/

theorem exists_definition {named : NamedSchemas} {apart : List String} {defs : Members}
    (h : definitions st named apart = .ok defs) {name : String} {target : Json}
    (hget : Entries.get? defs name = some target) :
    ∃ s members, Entries.get? named.schemas name = some s ∧ body st s = .ok members ∧
      target = .object members := by
  induction apart generalizing defs with
  | nil =>
    cases h
    cases hget
  | cons n apart ih =>
    rw [definitions] at h
    split at h
    · cases h
    next s hs =>
    obtain ⟨members, hmembers, h⟩ := Outcome.bind_eq_ok.mp h
    obtain ⟨rest, hrest, h⟩ := Outcome.bind_eq_ok.mp h
    cases h
    by_cases hn : n = name
    · subst hn
      rw [Entries.get?_cons_self, Option.some.injEq] at hget
      exact ⟨s, members, hs, hmembers, hget.symm⟩
    · rw [Entries.get?_cons_of_ne _ _ hn] at hget
      exact ih hrest hget

/-- The document of a graph is that of its root, with definitions added or not. -/
theorem render_eq_ok {root : Schema} {backend : Backend} {named : NamedSchemas}
    {settings : ProjectionSettings} (h : render root backend named settings = .ok document) :
    ∃ members, body (styleFor root backend named settings) root = .ok members ∧
      (document = members ∨ ∃ apart defs,
        definitions (styleFor root backend named settings) named apart = .ok defs ∧
          document = Entries.put members "$defs" (.object defs)) := by
  unfold render at h
  dsimp only at h
  split_ifs at h with hroot hempty
  · obtain ⟨members, hmembers, h⟩ := Outcome.bind_eq_ok.mp h
    cases h
    exact ⟨_, hmembers, .inl rfl⟩
  · obtain ⟨members, hmembers, h⟩ := Outcome.bind_eq_ok.mp h
    obtain ⟨defs, hdefs, h⟩ := Outcome.bind_eq_ok.mp h
    cases h
    exact ⟨members, hmembers, .inr ⟨_, defs, hdefs, rfl⟩⟩

theorem linked_of_render {g : SchemaGraph} {shape : Shape} {backend : Backend}
    {named : NamedSchemas} {settings : ProjectionSettings} (hg : g.FitsShape ds names shape)
    (hnamed : NamedSchemas.Known ds names named)
    (h : render g.root backend named settings = .ok document) :
    Linked ds names (styleFor g.root backend named settings) document := by
  obtain ⟨members, hmembers, hdocument⟩ := render_eq_ok h
  refine ⟨hg.distinct, fun name pointer target hpointer htarget => ?_⟩
  obtain rfl : _ = pointer := by simpa [Style.pointer] using hpointer
  by_cases hroot : (styleFor g.root backend named settings).rootName = some name
  · rw [if_pos hroot, target?_root, Option.some.injEq] at htarget
    subst htarget
    have hname : g.root.name? = some name := by
      cases hschema : g.root with
      | object | union =>
        simp only [styleFor, hschema, Option.some.injEq] at hroot
        rw [← hroot]
        rfl
      | _ => simp [styleFor, hschema] at hroot
    refine ⟨g.root, shape, members, hname, hg.root, hmembers, fun pattern depth c haccepts => ?_⟩
    rcases hdocument with rfl | ⟨_, defs, -, rfl⟩
    · exact haccepts
    · exact accepts_of_agree (.inr rfl) (fun key => Entries.get?_put_of_ne members _) haccepts
  · rw [if_neg hroot] at htarget
    rcases hdocument with rfl | ⟨_, defs, hdefs, rfl⟩
    · rw [target?_of_no_definitions name (get?_body_defs hmembers)] at htarget
      cases htarget
    · rw [target?_definition name (Entries.get?_put_self _ _ _)] at htarget
      obtain ⟨s, members', hs, hbody, rfl⟩ := exists_definition hdefs htarget
      obtain ⟨hname, shape', hfits⟩ := hnamed name s hs
      exact ⟨s, shape', members', hname, hfits, hbody, fun _ _ _ haccepts => haccepts⟩

end StructuredOutput.Document

namespace StructuredOutput

theorem Declarations.exists_shapeOf {ds : Declarations} {t : TypeExpr} {g : SchemaGraph}
    (h : (ds.deriveSchema t).1 = .ok g) : ∃ shape, ds.shapeOf t = .ok shape := by
  cases hshape : ds.shapeOf t with
  | ok shape => exact ⟨shape, rfl⟩
  | error fault =>
    rw [deriveSchema, hshape] at h
    cases h

theorem SchemaGraph.render_of_project {g : SchemaGraph} {backend : Backend}
    {settings : ProjectionSettings} {document : Members} {notices : List Notice}
    (h : g.project backend settings = .ok (.document document, notices)) :
    ∃ named, NamedSchemas.collect g = .ok named ∧
      Document.render g.root backend named settings = .ok document := by
  obtain ⟨named, hnamed, h⟩ := Outcome.bind_eq_ok.mp h
  refine ⟨named, hnamed, ?_⟩
  split_ifs at h with hgrammar
  · obtain ⟨projected, hprojected, h⟩ := Outcome.bind_eq_ok.mp h
    obtain ⟨rules, -, rfl⟩ := Outcome.map_eq_ok.mp hprojected
    cases h
  · obtain ⟨projected, hprojected, h⟩ := Outcome.bind_eq_ok.mp h
    obtain ⟨members, hmembers, rfl⟩ := Outcome.map_eq_ok.mp hprojected
    cases h
    exact hmembers

/-- Content that is valid against the document of a type for a backend decodes to a value of the
type, if no refinement sets the options of a literal. -/
theorem decode_of_valid {ds : Declarations} {t : TypeExpr} {g : SchemaGraph} {backend : Backend}
    {settings : ProjectionSettings} {document : Members} {notices : List Notice}
    {pattern : String → String → Bool} {c : Content}
    (hguides : ∀ shape, ds.shapeOf t = .ok shape → Unguided ds shape)
    (hderive : (ds.deriveSchema t).1 = .ok g)
    (hproject : g.project backend settings = .ok (.document document, notices))
    (hvalid : Document.Valid pattern document c) : ∃ v, decode ds c t = .ok v := by
  obtain ⟨shape, hshape⟩ := Declarations.exists_shapeOf hderive
  obtain ⟨names, hfits⟩ := Declarations.fits_of_deriveSchema hshape (hguides shape hshape) hderive
  obtain ⟨named, hnamed, hrender⟩ := SchemaGraph.render_of_project hproject
  have hknown := NamedSchemas.collect_known hfits hnamed
  have hlinked := Document.linked_of_render hfits hknown hrender
  obtain ⟨members, hmembers, hdocument⟩ := Document.render_eq_ok hrender
  obtain ⟨depth, haccepts⟩ := hvalid
  have hroot : Document.accepts pattern document depth (.object members) c = true := by
    rcases hdocument with rfl | ⟨_, defs, -, rfl⟩
    · exact haccepts
    · exact Document.accepts_of_agree (.inr rfl) (fun key => Entries.get?_put_of_ne members _)
        haccepts
  obtain ⟨v, hv⟩ :=
    Document.soundBelow_body hlinked depth g.root shape members c hfits.root hmembers hroot .top
  exact ⟨v, by simp [decode, hshape, hv]⟩

/-! ### A recursive record -/

namespace Forest

def leafSchema : Schema :=
  .object "Leaf" none [tagProperty "leaf", ⟨"size", .integer [], none, false⟩]

def treeSchema : Schema :=
  .union "LeafOrFork" none
    [leafSchema,
      .object "Fork2" none
        [tagProperty "fork", ⟨"value", .ref "LeafOrFork", none, false⟩,
          ⟨"behind", .ref "LeafOrFork", none, true⟩]]

def forkSchema : Schema :=
  .object "Fork" none [⟨"value", treeSchema, none, false⟩, ⟨"behind", treeSchema, none, true⟩]

def graph : SchemaGraph := ⟨forkSchema, [("LeafOrFork", treeSchema), ("Fork", forkSchema)]⟩

/-- The document of a fork: the tree is defined apart, since it occurs twice and inside itself. -/
def document : Members :=
  match graph.project .openai .standard with
  | .ok (.document members, _) => members
  | _ => []

def leafContent : Content := .object [("type", .string "leaf"), ("size", .number .zero)]

def forkContent : Content :=
  .object [("value", leafContent),
    ("behind", .object [("type", .string "fork"), ("value", leafContent), ("behind", .null)])]

theorem unguided : Unguided forest fork := by
  intro s hs c hc
  rcases within_of_reaches hs with rfl | rfl | rfl | rfl <;> cases hc

end Forest

open Forest in
theorem decode_of_valid_forest :
    (∀ shape, forest.shapeOf (.named "Fork") = .ok shape → Unguided forest shape) ∧
      (forest.deriveSchema (.named "Fork")).1 = .ok graph ∧
      graph.project .openai .standard =
        .ok (.document document, [.schemaProjected "openai" "Fork" 4]) ∧
      Document.Valid (fun _ _ => true) document forkContent ∧
      ∃ v, decode forest forkContent (.named "Fork") = .ok v := by
  have hguides : ∀ shape, forest.shapeOf (.named "Fork") = .ok shape → Unguided forest shape := by
    intro shape hshape
    obtain rfl := Except.ok.inj (shapeOf_fork.symm.trans hshape)
    exact unguided
  have hderive : (forest.deriveSchema (.named "Fork")).1 = .ok graph := by cbv
  have hproject : graph.project .openai .standard =
      .ok (.document document, [.schemaProjected "openai" "Fork" 4]) := rfl
  have hvalid : Document.Valid (fun _ _ => true) document forkContent := ⟨12, by decide +kernel⟩
  exact ⟨hguides, hderive, hproject, hvalid, decode_of_valid hguides hderive hproject hvalid⟩

end StructuredOutput

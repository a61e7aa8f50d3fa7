import StructuredOutput.Proofs.Codec.Conforms
import StructuredOutput.Proofs.Content.Members
import StructuredOutput.Proofs.Document.Sharing
import StructuredOutput.Proofs.Schema.Defined

/-!
Encoded values are valid against the strict document of their type, and against other documents if
nothing in them is null. The induction is on the content; at each level the document of any node
that mirrors the shape accepts it, so that a reference, which leads to another such node, does too.
-/

namespace StructuredOutput.Document

variable {ds : Declarations} {names : RoleNames} {g : SchemaGraph} {st : Style}
  {document members : Members} {pattern : String → String → Bool} {c : Content}

/-! ### Depth -/

section

variable {valid wide : Json → Content → Bool}

theorem allItems_mono (h : ∀ schema c, valid schema c = true → wide schema c = true)
    {schema : Json} (hall : allItems valid c schema = true) : allItems wide c schema = true := by
  cases c with
  | array items =>
    apply List.all_eq_true.mpr
    intro item hitem
    exact h _ _ (List.all_eq_true.mp hall item hitem)
  | _ => rfl

theorem allDeclared_mono (h : ∀ schema c, valid schema c = true → wide schema c = true)
    {properties : Json} (hall : allDeclared valid c properties = true) :
    allDeclared wide c properties = true := by
  unfold allDeclared at hall ⊢
  split
  · cases c with
    | object entries =>
      simp only [List.all_eq_true, Option.all_eq_true] at hall ⊢
      intro e he schema hschema
      exact h _ _ (hall e he schema hschema)
    | _ => rfl
  · rfl

theorem allOthers_mono (h : ∀ schema c, valid schema c = true → wide schema c = true)
    {properties : Members} {schema : Json} (hall : allOthers valid properties c schema = true) :
    allOthers wide properties c schema = true := by
  cases c with
  | object entries =>
    simp only [allOthers, List.all_eq_true, Bool.or_eq_true] at hall ⊢
    intro e he
    exact (hall e he).imp_right (h _ _)
  | _ => rfl

theorem someAlternative_mono (h : ∀ schema c, valid schema c = true → wide schema c = true)
    {schemas : Json} (hany : someAlternative valid c schemas = true) :
    someAlternative wide c schemas = true := by
  cases schemas with
  | array schemas =>
    simp only [someAlternative, List.any_eq_true] at hany ⊢
    obtain ⟨schema, hschema, hvalid⟩ := hany
    exact ⟨schema, hschema, h _ _ hvalid⟩
  | _ => exact hany

theorem referenced_mono (h : ∀ schema c, valid schema c = true → wide schema c = true)
    {pointer : Json} (hany : referenced document valid c pointer = true) :
    referenced document wide c pointer = true := by
  cases pointer with
  | string pointer =>
    simp only [referenced, Option.any_eq_true] at hany ⊢
    obtain ⟨target, htarget, hvalid⟩ := hany
    exact ⟨target, htarget, h _ _ hvalid⟩
  | _ => exact hany

theorem keyword_mono (h : ∀ schema c, valid schema c = true → wide schema c = true) {key : String}
    {value : Json} (hkey : keyword pattern document valid members c key value = true) :
    keyword pattern document wide members c key value = true := by
  revert hkey
  unfold keyword
  split
  all_goals first
    | exact id
    | exact allItems_mono h
    | exact allDeclared_mono h
    | exact allOthers_mono h
    | exact someAlternative_mono h
    | exact referenced_mono h

end

theorem accepts_succ {depth : Nat} {schema : Json}
    (h : accepts pattern document depth schema c = true) :
    accepts pattern document (depth + 1) schema c = true := by
  induction depth generalizing schema c with
  | zero => cases h
  | succ depth ih =>
    cases schema with
    | object members =>
      apply satisfies_iff.mpr
      intro key value hget
      exact keyword_mono (fun _ _ => ih) (satisfies_iff.mp h key value hget)
    | _ => exact h

/-- What is accepted at a depth is accepted at every greater depth. -/
theorem accepts_mono {depth more : Nat} (hle : depth ≤ more) {schema : Json}
    (h : accepts pattern document depth schema c = true) :
    accepts pattern document more schema c = true := by
  induction hle with
  | refl => exact h
  | step _ ih => exact accepts_succ ih

/-- A schema object accepts content, if it is followed deep enough. -/
def Accepts (pattern : String → String → Bool) (document members : Members) (c : Content) : Prop :=
  ∃ depth, accepts pattern document depth (.object members) c = true

/-! ### Members that are all met -/

/-- Every member of a schema object meets a condition. -/
def AllMembers (P : String → Json → Prop) (members : Members) : Prop :=
  ∀ key value, Entries.get? members key = some value → P key value

namespace AllMembers

variable {P : String → Json → Prop}

theorem nil : AllMembers P [] := by
  intro key value hget
  cases hget

theorem cons {key : String} {value : Json} (hvalue : P key value) (h : AllMembers P members) :
    AllMembers P ((key, value) :: members) := by
  intro other found hget
  by_cases hkey : key = other
  · subst hkey
    rw [Entries.get?_cons_self, Option.some.injEq] at hget
    exact hget ▸ hvalue
  · rw [Entries.get?_cons_of_ne _ _ hkey] at hget
    exact h other found hget

theorem put {key : String} {value : Json} (h : AllMembers P members) (hvalue : P key value) :
    AllMembers P (Entries.put members key value) := by
  intro other found hget
  by_cases hkey : other = key
  · subst hkey
    rw [Entries.get?_put_self, Option.some.injEq] at hget
    exact hget ▸ hvalue
  · rw [Entries.get?_put_of_ne _ _ hkey] at hget
    exact h other found hget

theorem putIf {key : String} {value : Option Json} (h : AllMembers P members)
    (hvalue : ∀ v, value = some v → P key v) : AllMembers P (putIf members key value) := by
  cases value with
  | none => exact h
  | some v => exact h.put (hvalue v rfl)

/-- What each step keeps, all steps keep. -/
theorem foldl {α : Type} {step : Members → α → Members} {xs : List α}
    (hstep : ∀ x ∈ xs, ∀ members, AllMembers P members → AllMembers P (step members x))
    (h : AllMembers P members) : AllMembers P (xs.foldl step members) := by
  induction xs generalizing members with
  | nil => exact h
  | cons x xs ih =>
    apply ih (fun y hy => hstep y (List.mem_cons_of_mem x hy))
    exact hstep x List.mem_cons_self members h

end AllMembers

/-- Content meets the condition of a member of a schema object, with subschemas followed to a
depth. -/
def Met (pattern : String → String → Bool) (document : Members) (depth : Nat) (whole : Members)
    (c : Content) (key : String) (value : Json) : Prop :=
  keyword pattern document (accepts pattern document depth) whole c key value = true

theorem accepts_of_met (depth : Nat) (h : AllMembers (Met pattern document depth members c) members) :
    Accepts pattern document members c :=
  ⟨depth + 1, satisfies_iff.mpr h⟩

/-! ### Texts, numbers and numbers of items -/

theorem met_rule {depth : Nat} {whole : Members} {rule : TextRule} {s : String}
    (h : rule.admits pattern s = true)
    (hmembers : AllMembers (Met pattern document depth whole (.string s)) members) :
    AllMembers (Met pattern document depth whole (.string s)) (putRule members rule) := by
  cases rule with
  | pattern regex => exact hmembers.put h
  | constant value =>
    apply hmembers.put
    simp only [TextRule.admits, beq_iff_eq] at h
    simp [Met, keyword, isOption, equals, h]
  | oneOf values =>
    apply hmembers.put
    simp only [TextRule.admits, List.contains_iff_mem] at h
    simp [Met, keyword, isOption, equals, h]
  | length span =>
    simp only [TextRule.admits, Span.contains, Bool.and_eq_true, Option.all_eq_true] at h
    refine (hmembers.putIf fun v hv => ?_).putIf fun v hv => ?_
    · obtain ⟨limit, hlimit, rfl⟩ := Option.map_eq_some_iff.mp hv
      simpa [Met, keyword, sized, characters?, count] using h.1 limit hlimit
    · obtain ⟨limit, hlimit, rfl⟩ := Option.map_eq_some_iff.mp hv
      simpa [Met, keyword, sized, characters?, count] using h.2 limit hlimit

theorem accepts_string {rules : List TextRule} {s : String}
    (h : ∀ rule ∈ rules, rule.admits pattern s = true) :
    Accepts pattern document (rules.foldl putRule [("type", .string "string")]) (.string s) := by
  apply accepts_of_met 0
  apply AllMembers.foldl
  · intro rule hrule members hmembers
    exact met_rule (h rule hrule) hmembers
  · exact .cons rfl .nil

theorem numberUnits?_bound (b : Bound) : numberUnits? (bound b) = some b.units := by
  cases b <;> rfl

theorem accepts_number {ranges : List Range} {x : Double} {type : String}
    (htype : isOfType (.number x) type = true)
    (h : ∀ r ∈ ranges, r.contains x.signedUnits = true) :
    Accepts pattern document (ranges.foldl putRange [("type", .string type)]) (.number x) := by
  apply accepts_of_met 0
  apply AllMembers.foldl
  · intro r hr members hmembers
    have hcontains := h r hr
    simp only [Range.contains, Bool.and_eq_true, Option.all_eq_true] at hcontains
    refine (hmembers.putIf fun v hv => ?_).putIf fun v hv => ?_
    · obtain ⟨limit, hlimit, rfl⟩ := Option.map_eq_some_iff.mp hv
      simpa [Met, keyword, bounded, numberUnits?_bound] using hcontains.1 limit hlimit
    · obtain ⟨limit, hlimit, rfl⟩ := Option.map_eq_some_iff.mp hv
      simpa [Met, keyword, bounded, numberUnits?_bound] using hcontains.2 limit hlimit
  · exact .cons htype .nil

theorem accepts_boolean (b : Bool) :
    Accepts pattern document [("type", .string "boolean")] (.bool b) := by
  apply accepts_of_met 0
  exact .cons rfl .nil

/-- An array is accepted when its items are and their number is within all bounds. -/
theorem accepts_array {counts : List Span} {items : List Content} {rendered : Members}
    (hcounts : ∀ span ∈ counts, span.contains items.length = true)
    (hitems : ∀ c ∈ items, Accepts pattern document rendered c) :
    Accepts pattern document
      (counts.foldl putCount [("type", .string "array"), ("items", .object rendered)])
      (.array items) := by
  obtain ⟨depth, hall⟩ := @Outcome.exists_common_depth _
    (fun depth c => accepts pattern document depth (.object rendered) c = true) _
    (fun _ _ _ hle => accepts_mono hle) hitems
  apply accepts_of_met depth
  apply AllMembers.foldl
  · intro span hspan members hmembers
    have hcontains := hcounts span hspan
    simp only [Span.contains, Bool.and_eq_true, Option.all_eq_true] at hcontains
    refine (hmembers.putIf fun v hv => ?_).putIf fun v hv => ?_
    · obtain ⟨limit, hlimit, rfl⟩ := Option.map_eq_some_iff.mp hv
      simpa [Met, keyword, sized, items?, count] using hcontains.1 limit hlimit
    · obtain ⟨limit, hlimit, rfl⟩ := Option.map_eq_some_iff.mp hv
      simpa [Met, keyword, sized, items?, count] using hcontains.2 limit hlimit
  · have hmet : Met pattern document depth
        (counts.foldl putCount [("type", .string "array"), ("items", .object rendered)])
        (.array items) "items" (.object rendered) := List.all_eq_true.mpr hall
    exact .cons rfl (.cons hmet .nil)

/-! ### Null besides -/

/-- What a document must be like for null to be added beside its type. -/
structure Widens (members : Members) : Prop where
  plain : ∀ kind, Entries.get? members "type" = some (.string kind) →
    Entries.get? members "anyOf" = none ∧ Entries.get? members "$ref" = none
  options : ∀ value, Entries.get? members "enum" = some value → ∃ options, value = .array options

/-- The options of a document with null besides. -/
def withNull : Json → Json
  | .array options => .array (options ++ [.null])
  | other => other

/-- Null is added to the type and to the options, and all other members are as they were. -/
theorem get?_nullable {kind : String} (hkind : Entries.get? members "type" = some (.string kind))
    (hobject : kind ≠ "object") (key : String) : Entries.get? (nullable members) key =
      if key = "type" then some (.array [.string kind, .string "null"])
      else if key = "enum" then (Entries.get? members "enum").map withNull
      else Entries.get? members key := by
  have hwidened : Entries.get?
      (Entries.put members "type" (.array [.string kind, .string "null"])) key =
      if key = "type" then some (.array [.string kind, .string "null"])
      else Entries.get? members key := by
    split
    · next htype => rw [htype, Entries.get?_put_self]
    · next htype => rw [Entries.get?_put_of_ne _ _ htype]
  simp only [nullable, hkind, if_neg hobject]
  by_cases henum : key = "enum"
  · subst henum
    simp only [if_neg (show "enum" ≠ "type" by decide), if_true] at hwidened ⊢
    split
    · next options hoptions => rw [Entries.get?_put_self, hoptions, Option.map_some, withNull]
    · next hother =>
      rw [hwidened]
      cases hget : Entries.get? members "enum" with
      | none => rfl
      | some given =>
        cases given with
        | array options => exact absurd hget (hother options)
        | _ => rfl
  · rw [if_neg henum, ← hwidened]
    split
    · rw [Entries.get?_put_of_ne _ _ henum]
    · rfl

/-- Null meets every condition but those on types and options and those that subschemas put on it. -/
theorem keyword_null {valid : Json → Content → Bool} {key : String} {value : Json}
    (htype : key ≠ "type") (henum : key ≠ "enum") (hany : key ≠ "anyOf") (href : key ≠ "$ref") :
    keyword pattern document valid members .null key value = true := by
  unfold keyword
  split
  case h_1 => exact absurd rfl htype
  case h_2 => exact absurd rfl henum
  case h_14 => exact absurd rfl hany
  case h_15 => exact absurd rfl href
  all_goals cases value <;> rfl

theorem accepts_either (h : c = .null ∨ Accepts pattern document members c) :
    Accepts pattern document (nullable.either members) c := by
  rcases h with rfl | ⟨depth, hdepth⟩
  · have hnull : accepts pattern document 1 (.object [("type", .string "null")]) .null = true := rfl
    refine accepts_of_met 1 (.cons ?_ .nil)
    simp only [Met, keyword, someAlternative, List.any_cons, hnull, Bool.true_or, Bool.or_true]
  · refine accepts_of_met depth (.cons ?_ .nil)
    simp only [Met, keyword, someAlternative, List.any_cons, hdepth, Bool.true_or]

theorem nullable_eq_either (h : ∀ kind, Entries.get? members "type" = some (.string kind) →
    kind = "object") : nullable members = nullable.either members := by
  unfold nullable
  split
  · next kind hkind => rw [if_pos (h kind hkind)]
  · rfl

/-- A document to which null is added accepts null and what it accepted before. -/
theorem accepts_nullable (hwidens : Widens members)
    (h : c = .null ∨ Accepts pattern document members c) :
    Accepts pattern document (nullable members) c := by
  by_cases hobject : ∀ kind, Entries.get? members "type" = some (.string kind) → kind = "object"
  · rw [nullable_eq_either hobject]
    exact accepts_either h
  push Not at hobject
  obtain ⟨kind, hkind, hobject⟩ := hobject
  have hget := get?_nullable hkind hobject
  obtain ⟨hany, href⟩ := hwidens.plain kind hkind
  rcases h with rfl | ⟨depth, hdepth⟩
  · apply accepts_of_met 0
    intro key value hvalue
    rw [hget] at hvalue
    split_ifs at hvalue with htype henum
    · cases hvalue
      subst htype
      simp [Met, keyword, hasType, isOfType, Content.kind, Kind.typeName]
    · subst henum
      obtain ⟨given, hgiven, rfl⟩ := Option.map_eq_some_iff.mp hvalue
      obtain ⟨options, rfl⟩ := hwidens.options given hgiven
      simp [Met, keyword, withNull, isOption, equals]
    · apply keyword_null htype henum
      · rintro rfl
        cases hany.symm.trans hvalue
      · rintro rfl
        cases href.symm.trans hvalue
  · cases depth with
    | zero => cases hdepth
    | succ depth =>
      have hdeclared : declared (nullable members) = declared members := by
        simp only [declared, hget, if_neg (show "properties" ≠ "type" by decide),
          if_neg (show "properties" ≠ "enum" by decide)]
      apply accepts_of_met depth
      intro key value hvalue
      rw [hget] at hvalue
      split_ifs at hvalue with htype henum
      · cases hvalue
        subst htype
        have hbefore := accepts_keyword hdepth "type" _ hkind
        simp only [keyword, hasType] at hbefore
        simp [Met, keyword, hasType, hbefore]
      · subst henum
        obtain ⟨given, hgiven, rfl⟩ := Option.map_eq_some_iff.mp hvalue
        have hbefore := accepts_keyword hdepth "enum" _ hgiven
        obtain ⟨options, rfl⟩ := hwidens.options given hgiven
        simp only [keyword, isOption] at hbefore
        simp [Met, keyword, withNull, isOption, List.any_append, hbefore]
      · have hbefore := accepts_keyword hdepth key value hvalue
        unfold keyword at hbefore
        unfold Met keyword
        rwa [hdeclared]

theorem widens_of_none (hany : Entries.get? members "anyOf" = none)
    (href : Entries.get? members "$ref" = none) (henum : Entries.get? members "enum" = none) :
    Widens members where
  plain := fun _ _ => ⟨hany, href⟩
  options := fun value hvalue => by cases henum.symm.trans hvalue

theorem widens_rules (rules : List TextRule) :
    Widens (rules.foldl putRule [("type", .string "string")]) where
  plain := by
    intro kind _
    constructor
    · rw [get?_rules (by decide) (by decide) (by decide) fun h => absurd h (by decide)]
      rfl
    · rw [get?_rules (by decide) (by decide) (by decide) fun h => absurd h (by decide)]
      rfl
  options := by
    have hall : AllMembers (fun key value => key = "enum" → ∃ options, value = .array options)
        (rules.foldl putRule [("type", .string "string")]) := by
      apply AllMembers.foldl
      · intro rule _ members hmembers
        cases rule with
        | pattern => exact hmembers.put fun h => absurd h (by decide)
        | constant | oneOf => exact hmembers.put fun _ => ⟨_, rfl⟩
        | length =>
          exact (hmembers.putIf fun _ _ h => absurd h (by decide)).putIf
            fun _ _ h => absurd h (by decide)
      · exact .cons (fun h => absurd h (by decide)) .nil
    exact fun value hvalue => hall "enum" value hvalue rfl

theorem widens_pointer (name : String) : Widens (st.pointer name) where
  plain := by
    intro kind hkind
    cases hkind
  options := by
    intro value hvalue
    cases hvalue

theorem widens_of_body {s : Schema} (h : body st s = .ok members) : Widens members := by
  cases s with
  | string rules =>
    cases h
    exact widens_rules rules
  | integer ranges | number ranges =>
    cases h
    apply widens_of_none <;> rw [get?_ranges (by decide) (by decide)] <;> rfl
  | boolean =>
    cases h
    exact widens_of_none rfl rfl rfl
  | array item counts =>
    obtain ⟨rendered, -, rfl⟩ := body_array.mp h
    apply widens_of_none <;> rw [get?_counts (by decide) (by decide)] <;> rfl
  | object name description properties =>
    obtain ⟨rendered, -, rfl⟩ := body_object.mp h
    apply widens_of_none <;> rw [get?_object (by decide)] <;> split <;> rfl
  | union name description alternatives =>
    obtain ⟨rendered, -, rfl⟩ := body_union h
    refine ⟨fun kind hkind => ?_, fun value hvalue => ?_⟩
    · rw [Entries.get?_append, get?_describe (by decide)] at hkind
      cases hkind
    · rw [Entries.get?_append, get?_describe (by decide)] at hvalue
      cases hvalue
  | ref name =>
    rw [body] at h
    split at h
    · cases h
      exact widens_pointer name
    · cases h

/-- Null can be added to every document that stands for a schema. -/
theorem widens_of_emit {s : Schema} (h : emit st s = .ok members) : Widens members := by
  rcases emit_cases h with hbody | ⟨name, -, rfl⟩
  · exact widens_of_body hbody
  · exact widens_pointer name

/-! ### Objects and unions -/

/-- A property accepts what the document of its schema does, and in the strict dialect null, too, if
it is optional. -/
theorem accepts_property {p : Property Schema} {rendered : Members} {value : Content}
    (hrendered : emit st p.schema = .ok rendered)
    (h : (st.backend = .openai ∧ p.optional = true ∧ value = .null) ∨
      Accepts pattern document rendered value) :
    ∃ property, st.property p rendered = .object property ∧
      Accepts pattern document property value := by
  refine ⟨_, rfl, ?_⟩
  have hnullable : Accepts pattern document
      (if st.backend == .openai && p.optional then nullable rendered else rendered) value := by
    split
    · exact accepts_nullable (widens_of_emit hrendered) (h.imp_left fun hnull => hnull.2.2)
    · next hnot => exact h.resolve_left fun hnull => hnot (by simp [hnull.1, hnull.2.1])
  obtain ⟨depth, hdepth⟩ := hnullable
  exact ⟨depth, accepts_of_agree (.inl rfl) (fun _ hkey => (get?_describe hkey).symm) hdepth⟩

/-- Each entry is accepted by what is written for its property. -/
theorem exists_accepting_of_entries {properties : List (Property Schema)} {rendered : Members}
    {entries : List (String × Content)} (hrendered : bodies st properties = .ok rendered)
    (hkeys : (properties.map (·.key)).Nodup)
    (hentries : Entries.names entries = properties.map (·.key))
    (heach : ∀ e p, (e, p) ∈ entries.zip properties →
      (st.backend = .openai ∧ p.optional = true ∧ e.2 = .null) ∨
        ∀ r, emit st p.schema = .ok r → Accepts pattern document r e.2) :
    ∃ depth, ∀ e ∈ entries, ∃ property, Entries.get? rendered e.1 = some (.object property) ∧
      accepts pattern document depth (.object property) e.2 = true := by
  have hnames := names_bodies hrendered
  refine Outcome.exists_common_depth
    (fun _ _ _ hle => Exists.imp fun _ h => ⟨h.1, accepts_mono hle h.2⟩) fun e he => ?_
  obtain ⟨i, hi⟩ := List.getElem?_of_mem he
  obtain ⟨p, hp, hkey⟩ := Outcome.exists_getElem?_right (Entries.forall₂_of_names hentries) hi
  have hmem : (e, p) ∈ entries.zip properties :=
    List.mem_of_getElem? (List.getElem?_zip_eq_some.mpr ⟨hi, hp⟩)
  obtain ⟨written, hwritten, r, hr, rfl⟩ :=
    Outcome.exists_mem_right (bodies_eq_ok.mp hrendered) (List.mem_of_getElem? hp)
  obtain ⟨property, hproperty, depth, hdepth⟩ :=
    accepts_property hr ((heach e p hmem).imp_right fun h => h r hr)
  rw [hproperty] at hwritten
  exact ⟨depth, property, hkey ▸ Entries.get?_of_mem (hnames ▸ hkeys) hwritten, hdepth⟩

theorem hasKeys_required {properties : List (Property Schema)}
    {entries : List (String × Content)}
    (hentries : Entries.names entries = properties.map (·.key)) :
    hasKeys (.object entries) (.array ((st.required properties).map .string)) = true := by
  simp only [hasKeys, List.all_eq_true]
  intro j hj
  obtain ⟨key, hkey, rfl⟩ := List.mem_map.mp hj
  have hname : key ∈ Entries.names entries := hentries ▸ key_of_mem_required hkey
  simpa [Option.isSome_iff_ne_none, Entries.get?_eq_none] using hname

/-- An object is accepted when it has just the entries of the properties, in order, and each of them
is accepted. -/
theorem accepts_object {name : String} {description : Option String}
    {properties : List (Property Schema)} {rendered : Members}
    {entries : List (String × Content)} (hrendered : bodies st properties = .ok rendered)
    (hkeys : (properties.map (·.key)).Nodup)
    (hentries : Entries.names entries = properties.map (·.key))
    (heach : ∀ e p, (e, p) ∈ entries.zip properties →
      (st.backend = .openai ∧ p.optional = true ∧ e.2 = .null) ∨
        ∀ r, emit st p.schema = .ok r → Accepts pattern document r e.2) :
    Accepts pattern document (st.object name description properties rendered)
      (.object entries) := by
  obtain ⟨depth, hall⟩ := exists_accepting_of_entries hrendered hkeys hentries heach
  have hproperties : allDeclared (accepts pattern document depth) (.object entries)
      (.object rendered) = true := by
    simp only [allDeclared, List.all_eq_true]
    intro e he
    obtain ⟨property, hget, haccepts⟩ := hall e he
    rw [hget, Option.all_some]
    exact haccepts
  have hothers (whole : Members) (hwhole : declared whole = rendered) :
      allOthers (accepts pattern document depth) (declared whole) (.object entries)
        (.bool false) = true := by
    simp only [allOthers, hwhole, List.all_eq_true, Bool.or_eq_true]
    intro e he
    obtain ⟨property, hget, -⟩ := hall e he
    exact .inl (by rw [hget, Option.isSome_some])
  apply accepts_of_met depth
  intro key value hget
  by_cases hdescription : key = "description"
  · subst hdescription
    rfl
  have hdeclared : declared (st.object name description properties rendered) = rendered := by
    rw [declared, get?_object (by decide)]
    rfl
  rw [get?_object hdescription] at hget
  refine AllMembers.cons rfl (.cons rfl (.cons hproperties (.cons (hasKeys_required hentries) ?_)))
    key value hget
  split
  · exact .cons rfl .nil
  · exact .cons (hothers _ hdeclared) .nil

/-! ### References -/

/-- What stands for a schema is its own document, or a reference to its name. Then the dialect has
references, and what defines a name is the root or defined apart. -/
theorem emit_origin {s : Schema} (h : emit st s = .ok members) :
    (body st s = .ok members ∧ ∀ name, s ≠ .ref name) ∨
      ∃ name, s.name? = some name ∧ members = st.pointer name ∧ st.pointers = true ∧
        (s.defines = true → st.rootName = some name ∨ name ∈ st.definitions) := by
  have hnamed {name : String} {r : Except ProjectionFault Members}
      (hr : Style.reference?.named st name = some r) (hok : r = .ok members) :
      members = st.pointer name ∧ st.pointers = true ∧
        (st.rootName = some name ∨ name ∈ st.definitions) := by
    unfold Style.reference?.named at hr
    split at hr
    · next hshared =>
      cases hr
      cases hok
      simp only [Bool.and_eq_true, Bool.or_eq_true, beq_iff_eq, List.contains_iff_mem] at hshared
      exact ⟨rfl, hshared.1, hshared.2⟩
    · cases hr
  unfold emit at h
  split at h
  · next r hr =>
    right
    cases s with
    | object name | union name =>
      obtain ⟨hmembers, hpointers, happart⟩ := hnamed hr h
      exact ⟨name, rfl, hmembers, hpointers, fun _ => happart⟩
    | ref name =>
      obtain rfl := Option.some.inj hr
      split at h
      · next hpointers =>
        cases h
        exact ⟨name, rfl, rfl, hpointers, fun hdefines => absurd hdefines Bool.false_ne_true⟩
      · cases h
    | _ => cases hr
  · next hnone =>
    refine .inl ⟨h, ?_⟩
    rintro name rfl
    cases hnone

/-- A reference accepts what the schema it leads to accepts. -/
theorem accepts_pointer {name pointer : String} {target : Members}
    (hpointer : st.pointer name = [("$ref", .string pointer)])
    (htarget : target? document pointer = some (.object target)) :
    Accepts pattern document (st.pointer name) c ↔ Accepts pattern document target c := by
  rw [hpointer]
  constructor
  · rintro ⟨_ | depth, hdepth⟩
    · cases hdepth
    · have href := accepts_keyword hdepth "$ref" _ rfl
      exact ⟨depth, by simpa [keyword, referenced, htarget] using href⟩
  · rintro ⟨depth, hdepth⟩
    refine accepts_of_met depth (.cons ?_ .nil)
    simpa [Met, keyword, referenced, htarget] using hdepth

/-- The definitions of a document are those of recorded schemas, each under its name. -/
theorem exists_definition_of_mem {named : NamedSchemas} {apart : List String} {defs : Members}
    (h : definitions st named apart = .ok defs) {name : String} (hname : name ∈ apart) :
    ∃ r members, Entries.get? named.schemas name = some r ∧ body st r = .ok members ∧
      Entries.get? defs name = some (.object members) := by
  induction apart generalizing defs with
  | nil => cases hname
  | cons n apart ih =>
    rw [definitions] at h
    split at h
    · cases h
    next r hr =>
    obtain ⟨members, hmembers, h⟩ := Outcome.bind_eq_ok.mp h
    obtain ⟨rest, hrest, h⟩ := Outcome.bind_eq_ok.mp h
    cases h
    by_cases hn : n = name
    · subst hn
      exact ⟨r, members, hr, hmembers, Entries.get?_cons_self _ _ _⟩
    · rw [Entries.get?_cons_of_ne _ _ hn]
      exact ih hrest ((List.mem_cons.mp hname).resolve_left (Ne.symm hn))

/-- A document of a schema, where what defines the name of a reference stands where the reference
leads. -/
structure Complete (ds : Declarations) (names : RoleNames) (g : SchemaGraph) (st : Style)
    (document : Members) : Prop where
  distinct : (names.map (·.2)).Nodup
  leads : ∀ s described rules name, Mirrors ds names s described rules → s.Within g.root →
    s.name? = some name → st.pointers = true →
    (s.defines = true → st.rootName = some name ∨ name ∈ st.definitions) →
    ∃ node role written, node.Within g.root ∧ Defines ds names role node ∧
      Entries.get? names role = some name ∧ role.Describes ds described ∧
      body st node = .ok written ∧ ∀ pattern c,
        Accepts pattern document (st.pointer name) c ↔ Accepts pattern document written c

/-- The name of the root is the name that references to the root have. -/
theorem rootName_of_styleFor {root : Schema} {backend : Backend} {named : NamedSchemas}
    {settings : ProjectionSettings} {name : String}
    (h : (styleFor root backend named settings).rootName = some name) :
    root.defines = true ∧ root.name? = some name := by
  cases root with
  | object | union =>
    simp only [styleFor, Option.some.injEq] at h
    subst h
    exact ⟨rfl, rfl⟩
  | _ => simp [styleFor] at h

/-- A document accepts what the body of the root does: definitions put no condition on content. -/
theorem accepts_of_root {named : NamedSchemas} {whole : Members}
    (h : if st.definitions.isEmpty then whole = members
      else ∃ defs, definitions st named st.definitions = .ok defs ∧
        whole = Entries.put members "$defs" (.object defs)) :
    Accepts pattern document whole c ↔ Accepts pattern document members c := by
  split at h
  · rw [h]
  · obtain ⟨defs, -, rfl⟩ := h
    have hagree (key : String) (hkey : key ≠ "$defs") :
        Entries.get? (Entries.put members "$defs" (.object defs)) key = Entries.get? members key :=
      Entries.get?_put_of_ne _ _ hkey
    exact ⟨fun ⟨depth, hdepth⟩ => ⟨depth, accepts_of_agree (.inr rfl) hagree hdepth⟩,
      fun ⟨depth, hdepth⟩ => ⟨depth, accepts_of_agree (.inr rfl) (fun key hkey =>
        (hagree key hkey).symm) hdepth⟩⟩

/-- What is referred to is defined apart, unless it is the root. -/
theorem mem_definitions_of_referenced {root r : Schema} {backend : Backend} {named : NamedSchemas}
    {settings : ProjectionSettings} {name : String}
    (hpointers : (styleFor root backend named settings).pointers = true)
    (hroot : (styleFor root backend named settings).rootName ≠ some name)
    (hr : Entries.get? named.schemas name = some r) (hreferenced : name ∈ named.referenced) :
    name ∈ (styleFor root backend named settings).definitions := by
  have hmem : name ∈ named.schemas.map (·.1) := List.mem_map_of_mem (Entries.mem_of_get? hr)
  have hshared : name ∈ named.shared := by
    simp only [NamedSchemas.shared, List.mem_filter, Bool.or_eq_true, List.contains_iff_mem]
    exact ⟨hmem, .inr hreferenced⟩
  simp only [styleFor] at hpointers hroot ⊢
  rw [if_pos hpointers, List.mem_filter]
  exact ⟨hshared, bne_iff_ne.mpr hroot⟩

theorem complete_of_render {shape : Shape} {backend : Backend} {named : NamedSchemas}
    {settings : ProjectionSettings} (hg : g.Closed ds names shape)
    (hnamed : NamedSchemas.collect g = .ok named)
    (h : render g.root backend named settings = .ok document) :
    Complete ds names g (styleFor g.root backend named settings) document := by
  obtain ⟨-, members, hmembers, hdocument⟩ := render_eq_ok_iff.mp h
  refine ⟨hg.distinct, ?_⟩
  generalize hst : styleFor g.root backend named settings = st at hmembers hdocument
  intro s described rules name hs hwithin hname hpointers happart
  by_cases hroot : st.rootName = some name
  · subst hst
    obtain ⟨hdefines, hrootName⟩ := rootName_of_styleFor hroot
    obtain ⟨role, hrole, hnamed, hdescribes⟩ :=
      hg.defines hs hname (.refl g.root) hdefines hrootName
    refine ⟨g.root, role, members, .refl g.root, hrole, hnamed, hdescribes, hmembers, ?_⟩
    intro pattern c
    have hpointer : Style.pointer _ name = [("$ref", .string "#")] :=
      (by rw [Style.pointer, if_pos hroot])
    exact (accepts_pointer hpointer target?_root).trans (accepts_of_root hdocument)
  -- The name is defined apart, since the root has another one.
  have hmem : name ∈ st.definitions := by
    cases hdefines : s.defines with
    | true => exact (happart hdefines).resolve_left hroot
    | false =>
      obtain ⟨r, hr, -, -, hreferenced⟩ :=
        NamedSchemas.exists_recorded_of_collect hg.anchored hnamed hwithin hname
      subst hst
      exact mem_definitions_of_referenced hpointers hroot hr (hreferenced hdefines)
  have hempty : ¬ st.definitions.isEmpty = true := by
    rw [List.isEmpty_iff]
    exact List.ne_nil_of_mem hmem
  rw [if_neg hempty] at hdocument
  obtain ⟨defs, hdefs, rfl⟩ := hdocument
  obtain ⟨r, written, hr, hwritten, hget⟩ := exists_definition_of_mem hdefs hmem
  obtain ⟨hrwithin, hrdefines, hrname⟩ :=
    NamedSchemas.recorded_of_collect hg.anchored hnamed name r hr
  obtain ⟨role, hrole, hrnamed, hdescribes⟩ := hg.defines hs hname hrwithin hrdefines hrname
  refine ⟨r, role, written, hrwithin, hrole, hrnamed, hdescribes, hwritten, ?_⟩
  intro pattern c
  apply accepts_pointer (by rw [Style.pointer, if_neg hroot])
  rw [target?_definition name (Entries.get?_put_self _ _ _), hget]

/-- What stands for a named schema accepts what the document of one that defines the name does. -/
theorem exists_written {shape described : Shape} {rules : List Constraint} {s : Schema}
    {name : String} (hg : g.Closed ds names shape) (hd : Complete ds names g st document)
    (hs : Mirrors ds names s described rules) (hwithin : s.Within g.root)
    (hname : s.name? = some name) (hemit : emit st s = .ok members) :
    ∃ node role written, node.Within g.root ∧ Defines ds names role node ∧
      Entries.get? names role = some name ∧ role.Describes ds described ∧
      body st node = .ok written ∧
      ∀ pattern c, Accepts pattern document members c ↔ Accepts pattern document written c := by
  rcases emit_origin hemit with ⟨hbody, hplain⟩ | ⟨name', hname', rfl, hpointers, happart⟩
  · have hdefines : s.defines = true := by
      cases s with
      | object | union => rfl
      | ref name => exact absurd rfl (hplain name)
      | _ => cases hname
    obtain ⟨role, hrole, hnamed, hdescribes⟩ := hg.defines hs hname hwithin hdefines hname
    exact ⟨s, role, members, hwithin, hrole, hnamed, hdescribes, hbody, fun _ _ => Iff.rfl⟩
  · obtain rfl : name = name' := Option.some.inj (hname.symm.trans hname')
    exact hd.leads s described rules name hs hwithin hname hpointers happart

/-! ### Conforming content -/

/-- Content is accepted by what stands for any schema whose shape it conforms to. -/
def Admitted (ds : Declarations) (names : RoleNames) (g : SchemaGraph) (st : Style)
    (document : Members) (pattern : String → String → Bool) (c : Content) : Prop :=
  ∀ described rules s members, Conforms ds (Meets pattern) c described rules →
    Mirrors ds names s described rules → s.Within g.root → emit st s = .ok members →
      Accepts pattern document members c

/-- Whether a document of a style says nothing against content because of null. -/
def Allowed (st : Style) (c : Content) : Prop := st.backend = .openai ∨ c.NullFree

theorem Allowed.part {part : Content} (h : Allowed st c) (hpart : part ∈ c.parts) :
    Allowed st part :=
  h.imp_right fun hfree => hfree.part hpart

theorem accepts_constant {w : String} (h : emit st (.string [.constant w]) = .ok members) :
    Accepts pattern document members (.string w) := by
  have hbody : body st (.string [.constant w]) = .ok members := h
  cases hbody
  apply accepts_string
  intro rule hrule
  obtain rfl := List.mem_singleton.mp hrule
  exact beq_self_eq_true w

/-- The entries of a record are accepted as its properties. -/
theorem accepts_entries {properties : List (Property Schema)} {fields : List FieldShape}
    {entries : List (String × Content)} (hproperties : MirrorsFields ds names properties fields)
    (hwithin : ∀ p ∈ properties, p.schema.Within g.root)
    (heach : ∀ e f, (e, f) ∈ entries.zip fields →
      Conforms ds (Meets pattern) e.2 f.whole f.whole.constraints)
    (hallowed : ∀ e ∈ entries, Allowed st e.2)
    (ih : ∀ e ∈ entries, Admitted ds names g st document pattern e.2) {e : String × Content}
    {p : Property Schema} (hmem : (e, p) ∈ entries.zip properties) :
    (st.backend = .openai ∧ p.optional = true ∧ e.2 = .null) ∨
      ∀ r, emit st p.schema = .ok r → Accepts pattern document r e.2 := by
  obtain ⟨he, hp⟩ := List.of_mem_zip hmem
  obtain ⟨f, hf, hoptional, hmirrors⟩ := hproperties.exists_of_zip hmem
  rw [hoptional]
  rcases (heach e f hf).of_whole with hnull | hconforms
  · exact .inl ⟨(hallowed e he).resolve_right fun hfree => hfree.ne_null hnull.2, hnull⟩
  · exact .inr fun r hr => ih e he f.shape _ p.schema r hconforms hmirrors (hwithin p hp) hr

theorem accepts_record {id name : String} {description : Option String}
    {rules : List Constraint} {node : Schema} {written : Members}
    (hnode : Defines ds names (.record id) node) (hwithin : node.Within g.root)
    (hwritten : body st node = .ok written)
    (hc : Conforms ds (Meets pattern) c (.record id name description) rules)
    (hallowed : Allowed st c)
    (ih : ∀ part ∈ c.parts, Admitted ds names g st document pattern part) :
    Accepts pattern document written c := by
  cases hnode with
  | record named resolved fields =>
  cases hc with
  | @record _ fields' entries resolved' keys each =>
    obtain rfl := Except.ok.inj (resolved.symm.trans resolved')
    obtain ⟨rendered, hrendered, rfl⟩ := body_object.mp hwritten
    have hkeys := keys_eq_of_alike fields.alike
    have hfielded := Declarations.fielded_of_fieldShapes resolved
    apply accepts_object hrendered (hkeys ▸ hfielded.keys) (keys.trans hkeys.symm)
    intro e p hmem
    refine accepts_entries fields (fun p hp => ?_) each
      (fun e he => hallowed.part (List.mem_map_of_mem he)) (List.forall_mem_map.mp ih) hmem
    exact hwithin.part (Schema.mem_parts_of_mem_properties hp)

theorem accepts_case {unionName id : String} {records : List String}
    {node : Schema} {written : Members}
    (hnode : Defines ds names (.case unionName records id) node) (hwithin : node.Within g.root)
    (hwritten : body st node = .ok written)
    (hc : Conforms ds (Meets pattern) c (.union "" none [⟨id, ds.caseTag id⟩]) [])
    (hallowed : Allowed st c)
    (ih : ∀ part ∈ c.parts, Admitted ds names g st document pattern part) :
    Accepts pattern document written c := by
  cases hnode with
  | case named resolved untagged fields =>
  cases hc with
  | @union _ found fields' entries mem resolved' keys each =>
    obtain rfl := List.mem_singleton.mp mem
    obtain rfl := Except.ok.inj (resolved.symm.trans resolved')
    obtain ⟨rendered, hrendered, rfl⟩ := body_object.mp hwritten
    have hkeys := keys_eq_of_alike fields.alike
    have hfielded := Declarations.fielded_of_fieldShapes resolved
    apply accepts_object hrendered
    · exact List.nodup_cons.mpr ⟨untagged, hkeys ▸ hfielded.keys⟩
    · rw [Entries.names_cons, List.map_cons, keys, hkeys]
      rfl
    intro e p hmem
    rcases List.mem_cons.mp hmem with hfirst | hmem
    · cases hfirst
      exact .inr fun r hr => accepts_constant hr
    · have hpart {e : String × Content} (he : e ∈ entries) :
          e.2 ∈ (Content.object ((discriminatorKey, .string (ds.caseTag id)) :: entries)).parts :=
        List.mem_map_of_mem (List.mem_cons_of_mem _ he)
      refine accepts_entries fields (fun p hp => ?_) each (fun e he => hallowed.part (hpart he))
        (fun e he => ih e.2 (hpart he)) hmem
      exact hwithin.part (Schema.mem_parts_of_mem_properties (List.mem_cons_of_mem _ hp))

/-- A union accepts what is accepted for one of its alternatives. -/
theorem accepts_union {name : String} {description : Option String} {alternatives : List Schema}
    {written : Members} (hwritten : body st (.union name description alternatives) = .ok written)
    {s : Schema} (hs : s ∈ alternatives)
    (h : ∀ r, emit st s = .ok r → Accepts pattern document r c) :
    Accepts pattern document written c := by
  obtain ⟨rendered, hrendered, rfl⟩ := body_union hwritten
  obtain ⟨j, hj, r, hr, rfl⟩ := Outcome.exists_mem_right (choices_eq_ok.mp hrendered) hs
  obtain ⟨depth, hdepth⟩ := h r hr
  apply accepts_of_met depth
  intro key value hget
  by_cases hdescription : key = "description"
  · subst hdescription
    rfl
  have hany : someAlternative (accepts pattern document depth) c (.array rendered) = true :=
    List.any_eq_true.mpr ⟨_, hj, hdepth⟩
  rw [Entries.get?_append, get?_describe hdescription, ← Entries.get?_append] at hget
  exact AllMembers.cons rfl (.cons hany .nil) key value hget

theorem integerRange_contains {given r : Range} (h : Schema.integerRange given = .ok r)
    (units : Int) : r.contains units = given.contains units := by
  have hbound (b : Option Bound) (hb : b.all Bound.isIntegral = true) (test : Int → Bool) :
      (Range.wholeBound b).all (fun limit => test limit.units) =
        b.all fun limit => test limit.units := by
    cases b with
    | none => rfl
    | some b =>
      rw [Option.all_some] at hb
      simp only [Range.wholeBound, Option.map_some, Option.all_some, Bound.units_truncate hb]
  unfold Schema.integerRange at h
  split at h
  · next hintegral =>
    cases h
    rw [Range.isIntegral, Bool.and_eq_true] at hintegral
    unfold Range.contains Range.toWhole
    rw [hbound given.lower hintegral.1 fun n => decide (n ≤ units),
      hbound given.upper hintegral.2 fun n => decide (units ≤ n)]
  · cases h

/-- What has no name accepts the content that conforms to its shape. -/
theorem accepts_unnamed {described : Shape} {rules : List Constraint} {s : Schema}
    (hs : Mirrors ds names s described rules) (hname : s.name? = none) (hwithin : s.Within g.root)
    (hbody : body st s = .ok members) (hc : Conforms ds (Meets pattern) c described rules)
    (ih : ∀ part ∈ c.parts, Admitted ds names g st document pattern part) :
    Accepts pattern document members c := by
  cases hs with
  | text rules constraints =>
    cases hbody
    cases hc with
    | text held => exact accepts_string fun rule hrule => held _ (List.mem_map_of_mem hrule)
  | @integer ranges given whole constraints =>
    cases hbody
    cases hc with
    | integer hintegral held =>
      have htype : isOfType (.number _) "integer" = true := hintegral
      apply accepts_number htype
      intro r hr
      obtain ⟨limits, hlimits, hwhole⟩ := Outcome.exists_mem_right whole hr
      rw [integerRange_contains hwhole]
      exact held _ (List.mem_map_of_mem hlimits)
  | real ranges constraints =>
    cases hbody
    cases hc with
    | real held => exact accepts_number rfl fun r hr => held _ (List.mem_map_of_mem hr)
  | bool constraints =>
    cases hbody
    cases hc with
    | bool b => exact accepts_boolean b
  | literal rules values constraints =>
    cases hbody
    cases hc with
    | literal option held =>
      apply accepts_string
      intro rule hrule
      rcases List.mem_cons.mp hrule with rfl | hrule
      · exact admits_choice option
      · exact held _ (List.mem_map_of_mem hrule)
  | @array item shape rules items container constraints =>
    obtain ⟨rendered, hrendered, rfl⟩ := body_array.mp hbody
    cases hc with
    | array held each =>
      apply accepts_array
      · intro span hspan
        obtain ⟨rule, hrule, hcount⟩ := List.mem_filterMap.mp hspan
        cases rule <;> cases hcount
        exact held _ hrule
      · intro part hpart
        have hitem : item.Within g.root := hwithin.part (List.mem_singleton_self item)
        exact ih part hpart shape _ item rendered (each part hpart) items hitem hrendered
  | _ => cases hname

/-- What defines the name of a role accepts the content that conforms to a shape of the role. -/
theorem accepts_defined {shape described : Shape} {rules : List Constraint} {role : Role}
    {node : Schema} {written : Members} (hg : g.Closed ds names shape)
    (hd : Complete ds names g st document) (hnode : Defines ds names role node)
    (hdescribes : role.Describes ds described) (hwithin : node.Within g.root)
    (hwritten : body st node = .ok written) (hc : Conforms ds (Meets pattern) c described rules)
    (hallowed : Allowed st c)
    (ih : ∀ part ∈ c.parts, Admitted ds names g st document pattern part) :
    Accepts pattern document written c := by
  cases hnode with
  | enum =>
    cases described <;> cases hdescribes
    cases hc with
    | enum declared =>
      obtain ⟨w, hw, rfl⟩ := List.mem_map.mp declared
      exact accepts_union hwritten (List.mem_map_of_mem hw) fun r hr => accepts_constant hr
  | record named resolved fields description =>
    cases described <;> cases hdescribes
    exact accepts_record (.record named resolved fields description) hwithin hwritten hc hallowed ih
  | case named resolved untagged fields description =>
    cases described <;> cases hdescribes
    obtain ⟨found, hfound, hone⟩ := hc.exists_case
    obtain rfl := List.mem_singleton.mp hfound
    exact accepts_case (.case named resolved untagged fields description) hwithin hwritten hone
      hallowed ih
  | @union unionName name records alternatives named distinct aligned each description =>
    cases described <;> cases hdescribes
    obtain ⟨found, hfound, hone⟩ := hc.exists_case
    obtain ⟨id, hid, rfl⟩ := List.mem_map.mp hfound
    obtain ⟨t, ht, hcase⟩ := Outcome.exists_mem_left
      (List.forall₂_iff_zip.mpr ⟨aligned, fun hmem => each _ _ hmem⟩) hid
    apply accepts_union hwritten ht
    intro r hr
    -- What stands for the alternative is written for the same case.
    obtain ⟨caseName, hcaseName, hcaseNamed⟩ := hcase.named
    have hmirrors : Mirrors ds names t (.union "" none [⟨id, ds.caseTag id⟩]) [] :=
      hcase.mirrors rfl
    have hpart : t ∈ (Schema.union name description alternatives).parts := ht
    obtain ⟨node', role', written', hnode', hrole', hnamed', -, hwritten', htransfer⟩ :=
      exists_written hg hd hmirrors (hwithin.part hpart)
        hcaseName hr
    obtain rfl := Derivation.role_unique hd.distinct hcaseNamed hnamed'
    exact (htransfer pattern c).mpr (accepts_case hrole' hnode' hwritten' hone hallowed ih)

/-- Conforming content is accepted by what stands for a schema of its shape. -/
theorem admitted {shape : Shape} (hg : g.Closed ds names shape)
    (hd : Complete ds names g st document) (c : Content) (hallowed : Allowed st c) :
    Admitted ds names g st document pattern c := by
  induction c using Content.parts_induction with
  | h c ih =>
    replace ih : ∀ part ∈ c.parts, Admitted ds names g st document pattern part :=
      fun part hpart => ih part hpart (hallowed.part hpart)
    intro described rules s members hc hs hwithin hemit
    cases hname : s.name? with
    | none =>
      rcases emit_origin hemit with ⟨hbody, -⟩ | ⟨name, hsome, -⟩
      · exact accepts_unnamed hs hname hwithin hbody hc ih
      · cases hname.symm.trans hsome
    | some name =>
      obtain ⟨node, role, written, hnode, hrole, -, hdescribes, hwritten, htransfer⟩ :=
        exists_written hg hd hs hwithin hname hemit
      exact (htransfer pattern c).mpr
        (accepts_defined hg hd hrole hdescribes hnode hwritten hc hallowed ih)

end StructuredOutput.Document

namespace StructuredOutput

/-- A value of a type is encoded to content that is valid against the strict document of the type,
if its parts meet all refinements that are declared for them. -/
theorem valid_encode {ds : Declarations} {t : TypeExpr} {shape : Shape} {g : SchemaGraph}
    {settings : ProjectionSettings} {document : Members} {notices : List Notice} {v : Value}
    {pattern : String → String → Bool} (hshape : ds.shapeOf t = .ok shape)
    (hderive : (ds.deriveSchema t).1 = .ok g)
    (hproject : g.project .openai settings = .ok (.document document, notices))
    (hv : WellTyped ds v shape) (hmeets : Satisfies ds pattern v shape) :
    ∃ c, encode ds v (some t) = .ok c ∧ Document.Valid pattern document c := by
  obtain ⟨names, hg⟩ := Declarations.closed_of_deriveSchema hshape hderive
  obtain ⟨named, hnamed, hrender⟩ := SchemaGraph.render_of_project hproject
  have hd := Document.complete_of_render hg hnamed hrender
  obtain ⟨c, hc, hconforms⟩ := hv.encodesTo hg.resolves hg.untagged hmeets .top
  refine ⟨c, by simp [encode, hshape, hc], ?_⟩
  obtain ⟨hobject, members, hmembers, hdocument⟩ := Document.render_eq_ok_iff.mp hrender
  have hdefines : g.root.defines = true := by
    cases hroot : g.root with
    | object | union => rfl
    | _ => simp [hroot] at hobject
  obtain ⟨role, hrole, hdescribes, -⟩ := hg.root.exists_defines hg.distinct hdefines
  have haccepts : Document.Accepts pattern document members c :=
    Document.accepts_defined hg hd hrole hdescribes (.refl g.root) hmembers hconforms (.inl rfl)
      fun part _ => Document.admitted hg hd part (.inl rfl)
  exact (Document.accepts_of_root hdocument).mpr haccepts

namespace Basket

/-- The document of a basket, which refers to itself. -/
def document : Members :=
  match graph.project .openai .standard with
  | .ok (.document members, _) => members
  | _ => []

end Basket

open Basket in
theorem valid_encode_basket :
    baskets.shapeOf (.named "Basket") = .ok basket ∧
      (baskets.deriveSchema (.named "Basket")).1 = .ok graph ∧
      graph.project .openai .standard =
        .ok (.document document, [.schemaProjected "openai" "Basket" 1]) ∧
      WellTyped baskets nested basket ∧ Satisfies baskets (fun _ _ => true) nested basket ∧
      ∃ c, encode baskets nested (some (.named "Basket")) = .ok c ∧
        Document.Valid (fun _ _ => true) document c := by
  have hproject : graph.project .openai .standard =
      .ok (.document document, [.schemaProjected "openai" "Basket" 1]) := rfl
  exact ⟨shapeOf_basket, deriveSchema_basket, hproject, wellTyped_nested, satisfies_nested,
    valid_encode shapeOf_basket deriveSchema_basket hproject wellTyped_nested satisfies_nested⟩

end StructuredOutput

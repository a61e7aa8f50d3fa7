import StructuredOutput.Proofs.Document.Validity
import StructuredOutput.Proofs.Schema.Fits

/-!
The members of a written document: which member each refinement sets, and what a document consists
of for each kind of schema.
-/

namespace StructuredOutput.Document

variable {st : Style}

/-! ### Refinements -/

theorem get?_putIf {members : Members} {key other : String} {value : Option Json}
    (h : other ≠ key) :
    Entries.get? (putIf members key value) other = Entries.get? members other := by
  cases value with
  | none => rfl
  | some v => exact Entries.get?_put_of_ne members v h

theorem get?_putRule {members : Members} {rule : TextRule} {key : String}
    (hpattern : key ≠ "pattern") (hmin : key ≠ "minLength") (hmax : key ≠ "maxLength")
    (henum : key = "enum" → rule.isChoice = false) :
    Entries.get? (putRule members rule) key = Entries.get? members key := by
  cases rule with
  | pattern => exact Entries.get?_put_of_ne _ _ hpattern
  | constant | oneOf =>
    refine Entries.get?_put_of_ne _ _ fun h => ?_
    cases henum h
  | length => rw [putRule, get?_putIf hmax, get?_putIf hmin]

theorem get?_rules {members : Members} {rules : List TextRule} {key : String}
    (hpattern : key ≠ "pattern") (hmin : key ≠ "minLength") (hmax : key ≠ "maxLength")
    (henum : key = "enum" → ∀ rule ∈ rules, rule.isChoice = false) :
    Entries.get? (rules.foldl putRule members) key = Entries.get? members key := by
  induction rules generalizing members with
  | nil => rfl
  | cons rule rules ih =>
    rw [List.foldl_cons, ih fun h r hr => henum h r (List.mem_cons_of_mem rule hr),
      get?_putRule hpattern hmin hmax fun h => henum h rule List.mem_cons_self]

theorem get?_ranges {members : Members} {ranges : List Range} {key : String}
    (hmin : key ≠ "minimum") (hmax : key ≠ "maximum") :
    Entries.get? (ranges.foldl putRange members) key = Entries.get? members key := by
  induction ranges generalizing members with
  | nil => rfl
  | cons r ranges ih => rw [List.foldl_cons, ih, putRange, get?_putIf hmax, get?_putIf hmin]

theorem get?_counts {members : Members} {counts : List Span} {key : String}
    (hmin : key ≠ "minItems") (hmax : key ≠ "maxItems") :
    Entries.get? (counts.foldl putCount members) key = Entries.get? members key := by
  induction counts generalizing members with
  | nil => rfl
  | cons span counts ih => rw [List.foldl_cons, ih, putCount, get?_putIf hmax, get?_putIf hmin]

theorem get?_describe {members : Members} {description : Option String} {key : String}
    (h : key ≠ "description") :
    Entries.get? (st.describe members description) key = Entries.get? members key := by
  unfold Style.describe
  split
  · split
    · exact Entries.get?_put_of_ne _ _ h
    · rfl
  · rfl

/-! ### Objects -/

/-- The keys that an object requires. -/
def Style.required (st : Style) (properties : List (Property Schema)) : List String :=
  if st.backend = .openai then properties.map (·.key) else Schema.required properties

theorem get?_object {name : String} {description : Option String}
    {properties : List (Property Schema)} {rendered : Members} {key : String}
    (h : key ≠ "description") :
    Entries.get? (st.object name description properties rendered) key =
      Entries.get? ([("type", .string "object"), ("title", .string name)] ++
        [("properties", .object rendered),
          ("required", .array ((st.required properties).map .string))] ++
        [if st.backend = .gemini then
          ("propertyOrdering", .array (properties.map fun p => .string p.key))
        else ("additionalProperties", .bool false)]) key := by
  have hrequired : (if st.backend = .openai then .array (properties.map fun p => .string p.key)
      else .array ((Schema.required properties).map Json.string)) =
      Json.array ((st.required properties).map .string) := by
    unfold Style.required
    split
    · rw [List.map_map]
      rfl
    · rfl
  unfold Style.object
  dsimp only
  rw [hrequired, Entries.get?_append, Entries.get?_append, get?_describe h, ← Entries.get?_append,
    ← Entries.get?_append]

theorem mem_required {properties : List (Property Schema)} {p : Property Schema}
    (hp : p ∈ properties) (h : p.optional = false) : p.key ∈ st.required properties := by
  unfold Style.required
  split
  · exact List.mem_map_of_mem hp
  · exact List.mem_map_of_mem (List.mem_filter.mpr ⟨hp, by simp [h]⟩)

theorem key_of_mem_required {properties : List (Property Schema)} {key : String}
    (h : key ∈ st.required properties) : key ∈ properties.map (·.key) := by
  unfold Style.required at h
  split at h
  · exact h
  · obtain ⟨p, hp, rfl⟩ := List.mem_map.mp h
    exact List.mem_map_of_mem (List.mem_filter.mp hp).1

/-! ### Documents of schemas -/

/-- The document that stands for a schema inside another: a reference or its own. -/
def emit (st : Style) (s : Schema) : Except ProjectionFault Members :=
  match st.reference? s with
  | some r => r
  | none => body st s

theorem body_array_eq (item : Schema) (counts : List Span) :
    body st (.array item counts) = emit st item >>= fun rendered =>
      .ok (counts.foldl putCount [("type", .string "array"), ("items", .object rendered)]) := by
  rw [body, emit]
  cases st.reference? item <;> rfl

theorem bodies_cons (p : Property Schema) (properties : List (Property Schema)) :
    bodies st (p :: properties) = emit st p.schema >>= fun r =>
      bodies st properties >>= fun rest => .ok ((p.key, st.property p r) :: rest) := by
  obtain ⟨key, s, description, optional⟩ := p
  rw [bodies, emit]
  cases st.reference? s <;> rfl

theorem choices_cons (s : Schema) (alternatives : List Schema) :
    choices st (s :: alternatives) = emit st s >>= fun r =>
      choices st alternatives >>= fun rest => .ok (.object r :: rest) := by
  rw [choices, emit]
  cases st.reference? s <;> rfl

theorem body_array {item : Schema} {counts : List Span} {members : Members} :
    body st (.array item counts) = .ok members ↔ ∃ rendered, emit st item = .ok rendered ∧
      counts.foldl putCount [("type", .string "array"), ("items", .object rendered)] =
        members := by
  rw [body_array_eq]
  simp only [Outcome.bind_eq_ok, Except.ok.injEq]

theorem body_object {name : String} {description : Option String}
    {properties : List (Property Schema)} {members : Members} :
    body st (.object name description properties) = .ok members ↔ ∃ rendered,
      bodies st properties = .ok rendered ∧
        st.object name description properties rendered = members := by
  rw [body, Outcome.map_eq_ok]

theorem body_union {name : String} {description : Option String} {alternatives : List Schema}
    {members : Members} (h : body st (.union name description alternatives) = .ok members) :
    ∃ rendered, choices st alternatives = .ok rendered ∧
      st.describe [("title", .string name)] description ++ [("anyOf", .array rendered)] =
        members := by
  rw [body] at h
  split at h
  · cases h
  · simpa using h

theorem bodies_eq_ok {properties : List (Property Schema)} {rendered : Members} :
    bodies st properties = .ok rendered ↔ List.Forall₂
      (fun p e => ∃ r, emit st p.schema = .ok r ∧ e = (p.key, st.property p r))
      properties rendered := by
  induction properties generalizing rendered with
  | nil => cases rendered <;> simp [bodies]
  | cons p properties ih =>
    rw [bodies_cons, List.forall₂_cons_left_iff]
    simp only [Outcome.bind_eq_ok, ih]
    constructor
    · rintro ⟨r, hr, rest, hrest, heq⟩
      cases heq
      exact ⟨_, rest, ⟨r, hr, rfl⟩, hrest, rfl⟩
    · rintro ⟨e, rest, ⟨r, hr, rfl⟩, hrest, rfl⟩
      exact ⟨r, hr, rest, hrest, rfl⟩

theorem names_bodies {properties : List (Property Schema)} {rendered : Members}
    (h : bodies st properties = .ok rendered) :
    Entries.names rendered = properties.map (·.key) := by
  rw [bodies_eq_ok] at h
  induction h with
  | nil => rfl
  | cons he _ ih =>
    obtain ⟨r, -, rfl⟩ := he
    rw [Entries.names_cons, List.map_cons, ih]

theorem choices_eq_ok {alternatives : List Schema} {rendered : List Json} :
    choices st alternatives = .ok rendered ↔ List.Forall₂
      (fun s j => ∃ r, emit st s = .ok r ∧ j = .object r) alternatives rendered := by
  induction alternatives generalizing rendered with
  | nil => cases rendered <;> simp [choices]
  | cons s alternatives ih =>
    rw [choices_cons, List.forall₂_cons_left_iff]
    simp only [Outcome.bind_eq_ok, ih]
    constructor
    · rintro ⟨r, hr, rest, hrest, heq⟩
      cases heq
      exact ⟨_, rest, ⟨r, hr, rfl⟩, hrest, rfl⟩
    · rintro ⟨j, rest, ⟨r, hr, rfl⟩, hrest, rfl⟩
      exact ⟨r, hr, rest, hrest, rfl⟩

/-- What stands for a schema is its own document, or a reference to its name. -/
theorem emit_cases {s : Schema} {members : Members} (h : emit st s = .ok members) :
    body st s = .ok members ∨ ∃ name, s.name? = some name ∧ members = st.pointer name := by
  have hnamed {name : String} {r : Except ProjectionFault Members}
      (hr : Style.reference?.named st name = some r) : r = .ok (st.pointer name) := by
    unfold Style.reference?.named at hr
    split at hr
    · exact (Option.some.inj hr).symm
    · cases hr
  unfold emit at h
  split at h
  · next r hr =>
    right
    cases s with
    | object name | union name =>
      cases (hnamed hr).symm.trans h
      exact ⟨name, rfl, rfl⟩
    | ref name =>
      obtain rfl := Option.some.inj hr
      split at h
      · cases h
        exact ⟨name, rfl, rfl⟩
      · cases h
    | _ => cases hr
  · exact .inl h

/-- The keys that the document of a schema can have, unless it is a reference. -/
def keywords : List String :=
  ["type", "title", "description", "pattern", "enum", "minLength", "maxLength", "minimum",
    "maximum", "items", "minItems", "maxItems", "properties", "required", "propertyOrdering",
    "additionalProperties", "anyOf"]

theorem get?_eq_none_of_names {members : Members} {key : String} (hkey : key ∉ keywords)
    (hnames : Entries.names members ⊆ keywords) : Entries.get? members key = none :=
  Entries.get?_eq_none.mpr fun hmem => hkey (hnames hmem)

theorem get?_body {s : Schema} {members : Members} {key : String} (hkey : key ∉ keywords)
    (hs : ∀ name, s ≠ .ref name) (h : body st s = .ok members) :
    Entries.get? members key = none := by
  have hne (k : String) (hk : k ∈ keywords) : key ≠ k := fun heq => hkey (heq ▸ hk)
  have htype : ["type"] ⊆ keywords := by decide
  cases s with
  | string rules =>
    cases h
    rw [get?_rules (hne _ (by decide)) (hne _ (by decide)) (hne _ (by decide))
      fun heq => absurd heq (hne _ (by decide))]
    exact get?_eq_none_of_names hkey htype
  | integer ranges | number ranges =>
    cases h
    rw [get?_ranges (hne _ (by decide)) (hne _ (by decide))]
    exact get?_eq_none_of_names hkey htype
  | boolean =>
    cases h
    exact get?_eq_none_of_names hkey htype
  | array item counts =>
    obtain ⟨rendered, -, rfl⟩ := body_array.mp h
    rw [get?_counts (hne _ (by decide)) (hne _ (by decide))]
    have hnames : ["type", "items"] ⊆ keywords := by decide
    exact get?_eq_none_of_names hkey hnames
  | object name description properties =>
    obtain ⟨rendered, -, rfl⟩ := body_object.mp h
    rw [get?_object (hne _ (by decide))]
    split
    · have hnames : ["type", "title", "properties", "required", "propertyOrdering"] ⊆ keywords := by
        decide
      exact get?_eq_none_of_names hkey hnames
    · have hnames : ["type", "title", "properties", "required", "additionalProperties"] ⊆
          keywords := by decide
      exact get?_eq_none_of_names hkey hnames
  | union name description alternatives =>
    obtain ⟨rendered, -, rfl⟩ := body_union h
    rw [Entries.get?_append, get?_describe (hne _ (by decide)), ← Entries.get?_append]
    have hnames : ["title", "anyOf"] ⊆ keywords := by decide
    exact get?_eq_none_of_names hkey hnames
  | ref name => exact absurd rfl (hs name)

/-- No document of a schema has definitions of its own. -/
theorem get?_body_defs {s : Schema} {members : Members} (h : body st s = .ok members) :
    Entries.get? members "$defs" = none := by
  by_cases hs : ∃ name, s = .ref name
  · obtain ⟨name, rfl⟩ := hs
    rw [body] at h
    split at h
    · cases h
      rfl
    · cases h
  · exact get?_body (by decide) (fun name heq => hs ⟨name, heq⟩) h

end StructuredOutput.Document

import StructuredOutput.Proofs.Codec.Decodes
import StructuredOutput.Proofs.Codec.RoundTrip
import StructuredOutput.Proofs.Schema.Mirrors

/-!
What refinements say of values, and content that conforms to a shape in every part: well-typed
values whose parts meet a condition are encoded to content whose parts meet it.
-/

namespace StructuredOutput

/-! ### Refinements -/

/-- What refinements look at, in values and in content. -/
inductive Aspect where
  | text (value : String)
  /-- A number in units. -/
  | number (units : Int)
  /-- An array of so many items. -/
  | items (count : Nat)
  | other

def Value.aspect : Value → Aspect
  | .text s => .text s
  | .integer n => .number (n * unitsPerOne)
  | .real (.finite x) => .number x.signedUnits
  | .list items | .tuple items => .items items.length
  | _ => .other

/-- Whether a number of characters or items is within bounds. -/
def Span.contains (span : Span) (n : Nat) : Bool :=
  span.lower.all (fun limit => decide (limit ≤ n)) && span.upper.all fun limit => decide (n ≤ limit)

/-- Whether a number in units is within bounds. -/
def Range.contains (r : Range) (units : Int) : Bool :=
  r.lower.all (fun limit => decide (limit.units ≤ units)) &&
    r.upper.all fun limit => decide (units ≤ limit.units)

/-- Whether a text meets a refinement, given what matches a pattern. -/
def TextRule.admits (pattern : String → String → Bool) : TextRule → String → Bool
  | .pattern regex, s => pattern regex s
  | .constant value, s => s == value
  | .oneOf values, s => values.contains s
  | .length span, s => span.contains s.length

theorem admits_choice {values : List String} {s : String} {pattern : String → String → Bool} (h : s ∈ values) :
    (Derivation.choice values).admits pattern s = true := by
  unfold Derivation.choice
  split
  · exact beq_iff_eq.mpr (List.mem_singleton.mp h)
  · exact List.contains_iff_mem.mpr h

/-- Whether a refinement is met. What it does not look at always meets it, and an array meets what
is said of its items. -/
def Constraint.admits (pattern : String → String → Bool) : Constraint → Aspect → Bool
  | text rule, .text s => rule.admits pattern s
  | range r, .number units => r.contains units
  | count span, .items n => span.contains n
  | _, _ => true

/-- Whether all refinements in force are met. -/
def Meets (pattern : String → String → Bool) (aspect : Aspect) (_ : Shape)
    (rules : List Constraint) : Prop :=
  ∀ c ∈ rules, c.admits pattern aspect = true

/-! ### Parts of values -/

/-- A value where a shape is expected, with the refinements that are in force there. -/
structure Site where
  value : Value
  shape : Shape
  rules : List Constraint

/-- What a list or a tuple holds. -/
def Value.items : Value → List Value
  | .list items | .tuple items => items
  | _ => []

/-- The parts of a value of a shape, itself included. -/
inductive Inside (ds : Declarations) (s : Site) : Site → Prop
  | refl : Inside ds s s
  | item {whole v : Value} {item : Shape} {rules : List Constraint} (mem : v ∈ whole.items)
      (inner : Inside ds s ⟨v, item, item.itemRules rules⟩) (container : Container)
      (constraints : List Constraint) :
      Inside ds s ⟨whole, .array item container constraints, rules⟩
  | field {id : String} {attrs : List (String × Value)} {shape : Shape} {fields : List FieldShape}
      {f : FieldShape} {v : Value} (read : id ∈ shape.records)
      (resolved : ds.fieldShapes id = .ok fields) (mem : f ∈ fields)
      (given : Entries.get? attrs f.attr = some v)
      (inner : Inside ds s ⟨v, f.whole, f.whole.constraints⟩) (rules : List Constraint) :
      Inside ds s ⟨.record id attrs, shape, rules⟩
  | present {v : Value} {shape : Shape} (inner : Inside ds s ⟨v, shape, shape.constraints⟩)
      (rules : List Constraint) : Inside ds s ⟨v, .optional shape, rules⟩

/-- A value of a shape meets all refinements that are declared for its parts. -/
def Satisfies (ds : Declarations) (pattern : String → String → Bool) (v : Value) (shape : Shape) :
    Prop :=
  ∀ s, Inside ds s ⟨v, shape, shape.constraints⟩ → Meets pattern s.value.aspect s.shape s.rules

/-! ### Conforming content -/

/-- Content has the form of a shape, and its texts, numbers and arrays meet a condition. -/
inductive Conforms (ds : Declarations) (holds : Aspect → Shape → List Constraint → Prop) :
    Content → Shape → List Constraint → Prop
  | text {s : String} {constraints rules : List Constraint}
      (held : holds (.text s) (.primitive .text constraints) rules) :
      Conforms ds holds (.string s) (.primitive .text constraints) rules
  | bool (b : Bool) (constraints rules : List Constraint) :
      Conforms ds holds (.bool b) (.primitive .bool constraints) rules
  | integer {x : Double} {constraints rules : List Constraint} (whole : x.isIntegral = true)
      (held : holds (.number x.signedUnits) (.primitive .integer constraints) rules) :
      Conforms ds holds (.number x) (.primitive .integer constraints) rules
  | real {x : Double} {constraints rules : List Constraint}
      (held : holds (.number x.signedUnits) (.primitive .real constraints) rules) :
      Conforms ds holds (.number x) (.primitive .real constraints) rules
  | literal {s : String} {values : List String} {constraints rules : List Constraint}
      (option : s ∈ values) (held : holds (.text s) (.literal values constraints) rules) :
      Conforms ds holds (.string s) (.literal values constraints) rules
  | enum {id wire : String} (declared : wire ∈ (ds.enumOf id).wires.map (·.1)) (name : String)
      (description : Option String) (rules : List Constraint) :
      Conforms ds holds (.string wire) (.enum id name description) rules
  | array {items : List Content} {item : Shape} {container : Container}
      {constraints rules : List Constraint}
      (held : holds (.items items.length) (.array item container constraints) rules)
      (each : ∀ c ∈ items, Conforms ds holds c item (item.itemRules rules)) :
      Conforms ds holds (.array items) (.array item container constraints) rules
  | record {id : String} {fields : List FieldShape} {entries : List (String × Content)}
      (resolved : ds.fieldShapes id = .ok fields)
      (keys : Entries.names entries = fields.map (·.key))
      (each : ∀ e f, (e, f) ∈ entries.zip fields →
        Conforms ds holds e.2 f.whole f.whole.constraints)
      (name : String) (description : Option String) (rules : List Constraint) :
      Conforms ds holds (.object entries) (.record id name description) rules
  | union {cases : List Case} {found : Case} {fields : List FieldShape}
      {entries : List (String × Content)} (mem : found ∈ cases)
      (resolved : ds.fieldShapes found.record = .ok fields)
      (keys : Entries.names entries = fields.map (·.key))
      (each : ∀ e f, (e, f) ∈ entries.zip fields →
        Conforms ds holds e.2 f.whole f.whole.constraints)
      (name : String) (description : Option String) (rules : List Constraint) :
      Conforms ds holds (.object ((discriminatorKey, .string found.tag) :: entries))
        (.union name description cases) rules
  | null (inner : Shape) (rules : List Constraint) :
      Conforms ds holds .null (.optional inner) rules
  | present {c : Content} {inner : Shape} (inside : Conforms ds holds c inner inner.constraints)
      (rules : List Constraint) : Conforms ds holds c (.optional inner) rules

variable {ds : Declarations} {holds : Aspect → Shape → List Constraint → Prop}

namespace Conforms

variable {c : Content}

/-- Content of a field is null, if the field is optional, or it is of the shape of what is there. -/
theorem of_whole {f : FieldShape} (h : Conforms ds holds c f.whole f.whole.constraints) :
    f.optional = true ∧ c = .null ∨ Conforms ds holds c f.shape f.shape.constraints := by
  unfold FieldShape.whole at h
  split at h
  · next hoptional =>
    cases h with
    | null => exact .inl ⟨hoptional, rfl⟩
    | present inside => exact .inr inside
  · exact .inr h

theorem whole {f : FieldShape}
    (h : f.optional = true ∧ c = .null ∨ Conforms ds holds c f.shape f.shape.constraints) :
    Conforms ds holds c f.whole f.whole.constraints := by
  unfold FieldShape.whole
  split
  · rcases h with ⟨-, rfl⟩ | h
    · exact .null _ _
    · exact .present h _
  · next hoptional =>
    exact h.resolve_left fun hnull => hoptional hnull.1

/-- Content of a union is content of one of its cases. -/
theorem exists_case {name : String} {description : Option String} {cases : List Case}
    {rules : List Constraint} (h : Conforms ds holds c (.union name description cases) rules) :
    ∃ found ∈ cases, Conforms ds holds c (.union "" none [found]) [] := by
  cases h with
  | @union _ found _ _ mem resolved keys each =>
    exact ⟨found, mem, .union (List.mem_singleton_self found) resolved keys each "" none []⟩

/-- Content of a case is content of every union that has the case. -/
theorem of_case {one : Case} {cases : List Case} {given : List Constraint}
    (h : Conforms ds holds c (.union "" none [one]) given) (hone : one ∈ cases) (name : String)
    (description : Option String) (rules : List Constraint) :
    Conforms ds holds c (.union name description cases) rules := by
  cases h with
  | union mem resolved keys each =>
    obtain rfl := List.mem_singleton.mp mem
    exact .union hone resolved keys each name description rules

/-- The entries of conforming fields supply the fields. -/
theorem supplies {fields : List FieldShape} {entries : List (String × Content)}
    (hkeys : (fields.map (·.key)).Nodup) (keys : Entries.names entries = fields.map (·.key))
    (each : ∀ e f, (e, f) ∈ entries.zip fields → Decodes ds e.2 f.whole)
    {whole : List (String × Content)}
    (hwhole : ∀ f ∈ fields, Entries.get? whole f.key = Entries.get? entries f.key) :
    Decodes.Supplies ds whole fields := by
  intro f hf path
  have hpairs := Entries.forall₂_of_names keys
  obtain ⟨haligned, hsame⟩ := List.forall₂_iff_zip.mp hpairs
  have hzip : List.Forall₂ (fun e f => (e, f) ∈ entries.zip fields) entries fields :=
    List.forall₂_iff_zip.mpr ⟨haligned, fun hmem => hmem⟩
  obtain ⟨e, he, hmem⟩ := Outcome.exists_mem_left hzip hf
  have hget : Entries.get? entries f.key = some e.2 := by
    rw [← hsame hmem]
    exact Entries.get?_of_mem (keys ▸ hkeys) he
  rw [Decoding.field_eq, hwhole f hf, hget]
  exact each e f hmem _

/-- Conforming content decodes. -/
theorem decodes {shape : Shape} {rules : List Constraint} (h : Conforms ds holds c shape rules)
    (hcoherent : shape.Coherent ds) (huntagged : Untagged ds shape) : Decodes ds c shape := by
  have hfield {whole : Shape} {id : String} {fields : List FieldShape} {f : FieldShape}
      (hwhole : Untagged ds whole) (hid : id ∈ whole.records)
      (hfields : ds.fieldShapes id = .ok fields) (hf : f ∈ fields) :
      f.whole.Coherent ds ∧ Untagged ds f.whole :=
    ⟨(Declarations.fielded_of_fieldShapes hfields).coherent hf,
      hwhole.of_reaches (.field hid hfields hf (.refl _))⟩
  induction h with
  | text => exact .text _ _
  | bool b constraints => exact .bool b constraints
  | integer whole => exact .integer whole _
  | real => exact .real _ _
  | literal option => exact Decodes.literal_iff.mpr ⟨_, option, rfl⟩
  | enum declared => exact .enum declared _ _
  | array _ _ ih =>
    exact .array (fun c hc => ih c hc hcoherent.2 (huntagged.of_reaches (.item (.refl _)))) _ _
  | record resolved keys _ name description _ ih =>
    have hdiffer := (Declarations.fielded_of_fieldShapes resolved).keys
    refine .record resolved (supplies hdiffer keys (fun e f hmem => ?_) fun _ _ => rfl) name
      description
    obtain ⟨hwhole, hkeys⟩ :=
      hfield huntagged (List.mem_singleton_self _) resolved (List.of_mem_zip hmem).2
    exact ih e f hmem hwhole hkeys
  | @union cases found fields entries mem resolved keys _ name description _ ih =>
    have htag := huntagged name description cases (.refl _) found mem fields resolved
    have hdiffer := (Declarations.fielded_of_fieldShapes resolved).keys
    refine .union (Entries.get?_cons_self _ _ _) (caseFor?_of_mem mem hcoherent.1) resolved
      (supplies hdiffer keys (fun e f hmem => ?_) fun f hf => ?_) name description
    · obtain ⟨hwhole, hkeys⟩ :=
        hfield huntagged (List.mem_map_of_mem mem) resolved (List.of_mem_zip hmem).2
      exact ih e f hmem hwhole hkeys
    · exact Entries.get?_cons_of_ne _ _ fun heq => htag (heq ▸ List.mem_map_of_mem hf)
  | null inner => exact .null inner
  | present _ _ ih => exact (ih hcoherent (huntagged.of_reaches (.optional (.refl _)))).optional

end Conforms

/-! ### Encoding -/

/-- A value is encoded to conforming content, as null only if it is null. -/
def EncodesTo (ds : Declarations) (holds : Aspect → Shape → List Constraint → Prop) (v : Value)
    (shape : Shape) (rules : List Constraint) : Prop :=
  ∀ path, ∃ c, Encoding.value ds v shape path = .ok c ∧ Conforms ds holds c shape rules

theorem values_encodesTo {items : List Value} {item : Shape} {rules : List Constraint}
    (each : ∀ v ∈ items, EncodesTo ds holds v item rules) (path : Path) (i : Nat) :
    ∃ cs, Encoding.values ds items item path i = .ok cs ∧ cs.length = items.length ∧
      ∀ c ∈ cs, Conforms ds holds c item rules := by
  induction items generalizing i with
  | nil => exact ⟨[], rfl, rfl, fun c hc => absurd hc List.not_mem_nil⟩
  | cons v vs ih =>
    obtain ⟨c, hc, hconforms⟩ := each v List.mem_cons_self (path.index i)
    obtain ⟨cs, hcs, hlength, hall⟩ := ih (fun u hu => each u (List.mem_cons_of_mem v hu)) (i + 1)
    refine ⟨c :: cs, ?_, congrArg (· + 1) hlength, List.forall_mem_cons.mpr ⟨hconforms, hall⟩⟩
    rw [Encoding.values, hc, Outcome.bind_eq_ok]
    exact ⟨c, rfl, Outcome.bind_eq_ok.mpr ⟨cs, hcs, rfl⟩⟩

theorem array_encodesTo {items : List Value} {item : Shape} {rules : List Constraint}
    (container : Container) (constraints : List Constraint)
    (length : holds (.items items.length) (.array item container constraints) rules)
    (each : ∀ v ∈ items, EncodesTo ds holds v item (item.itemRules rules)) :
    EncodesTo ds holds (container.collect items) (.array item container constraints) rules := by
  intro path
  obtain ⟨cs, hcs, hlength, hall⟩ := values_encodesTo each path 0
  refine ⟨.array cs, ?_, .array (hlength ▸ length) hall⟩
  rw [Encoding.value_collect rfl, hcs, Except.map]

theorem fields_encodeTo {id : String} {attrs : List (String × Value)} {fields : List FieldShape}
    (hfields : ds.fieldShapes id = .ok fields) (populated : Populated ds id attrs)
    (each : ∀ f ∈ fields, ∀ v, Entries.get? attrs f.attr = some v →
      EncodesTo ds holds v f.whole f.whole.constraints) (path : Path) :
    ∃ entries, (fields.mapM fun f => (f.key, ·) <$> Encoding.field ds attrs f path) = .ok entries ∧
      Entries.names entries = fields.map (·.key) ∧
      ∀ e f, (e, f) ∈ entries.zip fields → Conforms ds holds e.2 f.whole f.whole.constraints := by
  have hfield (f : FieldShape) (hf : f ∈ fields) : ∃ e : String × Content,
      ((f.key, ·) <$> Encoding.field ds attrs f path) = .ok e ∧
        Conforms ds holds e.2 f.whole f.whole.constraints := by
    obtain ⟨v, hv⟩ := populated.exists_value (Declarations.fielded_of_fieldShapes hfields) hf
    obtain ⟨c, hc, hconforms⟩ := each f hf v hv (path.key f.key)
    refine ⟨(f.key, c), Outcome.functorMap_eq_ok.mpr ⟨c, ?_, rfl⟩, hconforms⟩
    simp only [Encoding.field_eq, hv, hc]
  obtain ⟨entries, hentries⟩ := Outcome.exists_mapM
    (f := fun f : FieldShape => (f.key, ·) <$> Encoding.field ds attrs f path) fun f hf =>
      (hfield f hf).imp fun _ h => h.1
  refine ⟨entries, hentries, (Encoding.fieldEntries_of_mapM hentries).names, fun e f hmem => ?_⟩
  have hencoded := (List.forall₂_iff_zip.mp (Outcome.mapM_eq_ok.mp hentries).flip).2 hmem
  obtain ⟨e', he', hconforms⟩ := hfield f (List.of_mem_zip hmem).2
  obtain rfl : e = e' := Except.ok.inj (hencoded.symm.trans he')
  exact hconforms

theorem present_encodesTo {v : Value} {inner : Shape}
    (h : EncodesTo ds holds v inner inner.constraints) (rules : List Constraint) :
    EncodesTo ds holds v (.optional inner) rules := by
  intro path
  by_cases hv : v = .null
  · subst hv
    exact ⟨.null, Encoding.value_optional_null inner path, .null inner rules⟩
  · obtain ⟨c, hc, hconforms⟩ := h path
    exact ⟨c, (Encoding.value_optional hv inner path).trans hc, .present hconforms rules⟩

theorem record_encodesTo {id : String} {attrs : List (String × Value)}
    {fields : List FieldShape} (hfields : ds.fieldShapes id = .ok fields)
    (populated : Populated ds id attrs)
    (each : ∀ f ∈ fields, ∀ v, Entries.get? attrs f.attr = some v →
      EncodesTo ds holds v f.whole f.whole.constraints)
    (name : String) (description : Option String) (rules : List Constraint) :
    EncodesTo ds holds (.record id attrs) (.record id name description) rules := by
  intro path
  obtain ⟨entries, hentries, hnames, hall⟩ := fields_encodeTo hfields populated each path
  exact ⟨.object entries, Encoding.value_record rfl hfields hentries,
    .record hfields hnames hall name description rules⟩

theorem union_encodesTo {id : String} {attrs : List (String × Value)} {cases : List Case}
    {fields : List FieldShape} (hcase : id ∈ cases.map (·.record))
    (hfields : ds.fieldShapes id = .ok fields)
    (huntagged : discriminatorKey ∉ fields.map (·.key)) (populated : Populated ds id attrs)
    (each : ∀ f ∈ fields, ∀ v, Entries.get? attrs f.attr = some v →
      EncodesTo ds holds v f.whole f.whole.constraints)
    (name : String) (description : Option String) (rules : List Constraint) :
    EncodesTo ds holds (.record id attrs) (.union name description cases) rules := by
  intro path
  obtain ⟨entries, hentries, hnames, hall⟩ := fields_encodeTo hfields populated each path
  obtain ⟨found, hfound, hmem, hrecord⟩ := exists_caseOf? hcase
  exact ⟨.object ((discriminatorKey, .string found.tag) :: entries),
    Encoding.value_case rfl hfound hfields huntagged hentries,
    .union hmem (hrecord ▸ hfields) hnames hall name description rules⟩

theorem Double.signedUnits_of_toInt? (x : Double) {n : Int} (h : x.toInt? = some n) :
    x.isIntegral = true ∧ x.signedUnits = n * (unitsPerOne : Int) := by
  obtain ⟨hintegral, rfl⟩ := toInt?_eq_some.mp h
  exact ⟨hintegral, (Bound.units_truncate (b := .real x) hintegral).symm⟩

/-- A well-typed value whose parts meet a condition is encoded to content that meets it. -/
theorem WellTyped.encodesTo {v : Value} {shape : Shape} {rules : List Constraint}
    (h : WellTyped ds v shape) (hresolves : Resolves ds shape) (huntagged : Untagged ds shape)
    (hholds : ∀ s, Inside ds s ⟨v, shape, rules⟩ → holds s.value.aspect s.shape s.rules) :
    EncodesTo ds holds v shape rules := by
  have hfields {id : String} {whole : Shape} (hid : id ∈ whole.records)
      (hwhole : Resolves ds whole) (huntyped : Untagged ds whole) {fields : List FieldShape}
      (hresolved : ds.fieldShapes id = .ok fields) {f : FieldShape} (hf : f ∈ fields) :
      Resolves ds f.whole ∧ Untagged ds f.whole := by
    have hreach : Reaches ds whole f.whole := .field hid hresolved hf (.refl _)
    exact ⟨hwhole.of_reaches hreach, huntyped.of_reaches hreach⟩
  induction h generalizing rules with
  | text s constraints =>
    exact fun path => ⟨.string s, Encoding.value_text rfl s path, .text (hholds _ .refl)⟩
  | bool b constraints =>
    exact fun path => ⟨.bool b, Encoding.value_bool rfl b path, .bool b constraints rules⟩
  | @integer n x exact constraints =>
    obtain ⟨y, hy, hn⟩ := Double.exists_ofInt_of_signedUnits exact
    obtain ⟨hintegral, hunits⟩ := y.signedUnits_of_toInt? hn
    exact fun path => ⟨.number y, Encoding.value_integer rfl hy path,
      .integer hintegral (hunits ▸ hholds _ .refl)⟩
  | real x constraints =>
    exact fun path => ⟨.number x, Encoding.value_real rfl x path, .real (hholds _ .refl)⟩
  | @literal s values option constraints =>
    exact fun path => ⟨.string s, Encoding.value_literal rfl s path,
      .literal option (hholds _ .refl)⟩
  | @member id m declared mixed name description =>
    refine fun path => ⟨.string (wireValue m), Encoding.value_member rfl m path, .enum ?_ name
      description rules⟩
    exact List.mem_map.mpr ⟨(wireValue m, m), List.mem_map_of_mem declared, rfl⟩
  | @list items item each constraints ih =>
    have hitem : Reaches ds (.array item .list constraints) item := .item (.refl item)
    exact array_encodesTo .list constraints (hholds _ .refl) fun v hv =>
      ih v hv (hresolves.of_reaches hitem) (huntagged.of_reaches hitem)
        fun s hs => hholds s (.item hv hs .list constraints)
  | @tuple items item each constraints ih =>
    have hitem : Reaches ds (.array item .tuple constraints) item := .item (.refl item)
    exact array_encodesTo .tuple constraints (hholds _ .refl) fun v hv =>
      ih v hv (hresolves.of_reaches hitem) (huntagged.of_reaches hitem)
        fun s hs => hholds s (.item hv hs .tuple constraints)
  | @record id attrs populated given name description ih =>
    have hid : id ∈ (Shape.record id name description).records := List.mem_singleton_self id
    obtain ⟨fields, hresolved⟩ := hresolves _ (.refl _) id hid
    refine record_encodesTo hresolved populated (fun f hf v hv => ?_) name description rules
    obtain ⟨hinner, hkeys⟩ := hfields hid hresolves huntagged hresolved hf
    exact ih fields hresolved f hf v hv hinner hkeys
      fun s hs => hholds s (.field hid hresolved hf hv hs rules)
  | @union id attrs cases case populated given name description ih =>
    have hid : id ∈ (Shape.union name description cases).records := case
    obtain ⟨fields, hresolved⟩ := hresolves _ (.refl _) id hid
    obtain ⟨c, hc, hrecord⟩ := List.mem_map.mp case
    have hkey := huntagged name description cases (.refl _) c hc fields (hrecord ▸ hresolved)
    refine union_encodesTo case hresolved hkey populated (fun f hf v hv => ?_) name description
      rules
    obtain ⟨hinner, hkeys⟩ := hfields hid hresolves huntagged hresolved hf
    exact ih fields hresolved f hf v hv hinner hkeys
      fun s hs => hholds s (.field hid hresolved hf hv hs rules)
  | null inner =>
    exact fun path => ⟨.null, Encoding.value_optional_null inner path, .null inner rules⟩
  | @present v inner inside ih =>
    have hinner : Reaches ds (.optional inner) inner := .optional (.refl inner)
    exact present_encodesTo (ih (hresolves.of_reaches hinner) (huntagged.of_reaches hinner)
      fun s hs => hholds s (.present hs rules)) rules

/-! ### A recursive record with refinements -/

namespace Basket

def lengths : Span := ⟨some 1, some 4, rfl⟩

def counts : Span := ⟨some 1, some 2, rfl⟩

def labelRules : List Constraint := [.text (.length lengths)]

def pickRules : List Constraint := [.count counts, .element (.text (.oneOf ["a", "b"]))]

def label : FieldDecl :=
  ⟨"label", .annotated (.atom .text) [.guide labelRules none], none, none, false, none, true⟩

def picks : FieldDecl :=
  ⟨"picks", .annotated (.list (.atom .text)) [.guide pickRules none], none, none, false, none, true⟩

def next : FieldDecl :=
  ⟨"next", .union [.named "Basket", .atom .none], none, none, false, none, true⟩

end Basket

/-- Baskets with a short label, one or two picks among two, and perhaps another basket. -/
def baskets : Declarations :=
  ⟨"baskets",
    [("Basket", .record ⟨"Basket", none, none, [Basket.label, Basket.picks, Basket.next]⟩)]⟩

namespace Basket

def basket : Shape := .record "Basket" "Basket" none

def fields : List FieldShape :=
  [⟨"label", "label", .primitive .text labelRules, false, none⟩,
    ⟨"picks", "picks", .array (.primitive .text []) .list pickRules, false, none⟩,
    ⟨"next", "next", basket, true, none⟩]

def schema : Schema :=
  .object "Basket" none
    [⟨"label", .string [.length lengths], none, false⟩,
      ⟨"picks", .array (.string [.oneOf ["a", "b"]]) [counts], none, false⟩,
      ⟨"next", .ref "Basket", none, true⟩]

def graph : SchemaGraph := ⟨schema, [("Basket", schema)]⟩

theorem shapeOf_basket : baskets.shapeOf (.named "Basket") = .ok basket := by cbv

theorem shapeOf_label : baskets.shapeOf label.type = .ok (.primitive .text labelRules) := by cbv

theorem shapeOf_picks :
    baskets.shapeOf picks.type = .ok (.array (.primitive .text []) .list pickRules) := by
  simp only [Declarations.shapeOf, picks, Declarations.resolve]
  rfl

theorem shapeOf_next : baskets.shapeOf next.type = .ok (.optional basket) := by cbv

theorem fieldShapes_basket : baskets.fieldShapes "Basket" = .ok fields := by
  have hdefined : baskets.undefinedInRecord? "Basket" = none := rfl
  have hkeyed : baskets.keyed 0 ((baskets.fields "Basket").filter (·.init)) =
      [("label", label), ("picks", picks), ("next", next)] := rfl
  simp only [Declarations.fieldShapes, hdefined, hkeyed, List.mapM_cons, List.mapM_nil,
    Declarations.fieldShape, shapeOf_label, shapeOf_picks, shapeOf_next]
  cbv

theorem deriveSchema_basket : (baskets.deriveSchema (.named "Basket")).1 = .ok graph := by
  have hdepth : baskets.derivationDepth (.named "Basket") = 195 + 1 := rfl
  simp only [Declarations.deriveSchema, shapeOf_basket, hdepth, basket, Derivation.arrays]
  rw [Derivation.build]
  simp only [Derivation.objectOf, fieldShapes_basket]
  rfl

def value (label : String) (picks : List String) (next : Value) : Value :=
  .record "Basket" [("label", .text label), ("picks", .list (picks.map .text)), ("next", next)]

theorem populated (label : String) (picks : List String) (next : Value) :
    Populated baskets "Basket"
      [("label", .text label), ("picks", .list (picks.map .text)), ("next", next)] where
  names := by cbv
  defaults := by
    have hfields : baskets.fields "Basket" = [Basket.label, Basket.picks, Basket.next] := rfl
    intro f hf hinit
    simp only [hfields, List.mem_cons, List.not_mem_nil, or_false] at hf
    rcases hf with rfl | rfl | rfl <;> cases hinit

theorem wellTyped {label : String} {picks : List String} {next : Value}
    (hnext : WellTyped baskets next (.optional basket)) :
    WellTyped baskets (value label picks next) basket := by
  refine .record (populated label picks next) (fun given hgiven f hf v hv => ?_) _ _
  obtain rfl : given = fields := Except.ok.inj (hgiven.symm.trans fieldShapes_basket)
  simp only [fields, List.mem_cons, List.not_mem_nil, or_false] at hf
  rcases hf with rfl | rfl | rfl
  · cases hv
    exact .text label labelRules
  · cases hv
    refine .list (fun v hv => ?_) pickRules
    obtain ⟨s, -, rfl⟩ := List.mem_map.mp hv
    exact .text s []
  · cases hv
    exact hnext

theorem satisfies_null {pattern : String → String → Bool} :
    Satisfies baskets pattern .null (.optional basket) := by
  intro s hs
  cases hs with
  | refl => exact fun c hc => absurd hc List.not_mem_nil
  | present inner =>
    cases inner with
    | refl => exact fun c hc => absurd hc List.not_mem_nil

theorem satisfies_present {pattern : String → String → Bool} {v : Value}
    (h : Satisfies baskets pattern v basket) : Satisfies baskets pattern v (.optional basket) := by
  intro s hs
  cases hs with
  | refl => exact fun c hc => absurd hc List.not_mem_nil
  | field read => cases read
  | present inner => exact h s inner

theorem satisfies {pattern : String → String → Bool} {label : String} {picks : List String}
    {next : Value} (hlabel : lengths.contains label.length = true)
    (hcount : counts.contains picks.length = true) (hpicks : ∀ s ∈ picks, s ∈ ["a", "b"])
    (hnext : Satisfies baskets pattern next (.optional basket)) :
    Satisfies baskets pattern (value label picks next) basket := by
  intro s hs
  cases hs with
  | refl => exact fun c hc => absurd hc List.not_mem_nil
  | @field _ _ _ given f v read resolved mem hgiven inner =>
    obtain rfl : given = fields := Except.ok.inj (resolved.symm.trans fieldShapes_basket)
    simp only [fields, List.mem_cons, List.not_mem_nil, or_false] at mem
    rcases mem with rfl | rfl | rfl
    · cases hgiven
      change Inside baskets s ⟨.text label, .primitive .text labelRules, labelRules⟩ at inner
      cases inner
      intro c hc
      obtain rfl := List.mem_singleton.mp hc
      exact hlabel
    · cases hgiven
      change Inside baskets s ⟨.list (picks.map .text), .array (.primitive .text []) .list pickRules,
        pickRules⟩ at inner
      cases inner with
      | refl =>
        intro c hc
        simp only [pickRules, List.mem_cons, List.not_mem_nil, or_false] at hc
        rcases hc with rfl | rfl
        · simpa [Constraint.admits, Value.aspect] using hcount
        · rfl
      | item hmem inner =>
        obtain ⟨pick, hpick, rfl⟩ := List.mem_map.mp hmem
        cases inner
        intro c hc
        obtain rfl := List.mem_singleton.mp hc
        exact List.contains_iff_mem.mpr (hpicks pick hpick)
    · cases hgiven
      exact hnext s inner

/-- A basket in a basket. -/
def nested : Value := value "cart" ["a", "b"] (value "é" ["b"] .null)

theorem wellTyped_nested : WellTyped baskets nested basket :=
  wellTyped (.present (wellTyped (.null basket)))

theorem satisfies_nested {pattern : String → String → Bool} :
    Satisfies baskets pattern nested basket :=
  satisfies (by decide) (by decide) (by decide)
    (satisfies_present (satisfies (by decide) (by decide) (by decide) satisfies_null))

end Basket

end StructuredOutput

import StructuredOutput.Codec.Decode
import StructuredOutput.Codec.Encode
import StructuredOutput.Proofs.Shape.Fields

/-!
Instances of records: a field is encoded and decoded like a value of its whole shape, and an
instance has the attributes that are given and the defaults of the fields that are not. What a
value of each shape is encoded to and decoded from is stated here once, so that proofs about whole
values need not look into either function.
-/

namespace StructuredOutput

theorem Double.toInt?_eq_some {x : Double} {n : Int} :
    x.toInt? = some n ↔ x.isIntegral = true ∧ x.truncate = n := by
  unfold toInt?
  split <;> simp [*]

variable {ds : Declarations}

namespace Encoding

theorem primitive_integer {n : Int} {x : Double} (h : Floating.ofInt n = .finite x) (path : Path) :
    primitive ds .integer (.integer n) path = .ok (.number x) := by
  have hnumber : Content.ofInteger n = .ok (.number x) := by
    rw [Content.ofInteger, h, Content.ofFinite]
  calc primitive ds .integer (.integer n) path
      = (Content.ofInteger n).mapError .number := rfl
    _ = .ok (.number x) := by rw [hnumber, Except.mapError]

theorem primitive_real (x : Double) (path : Path) :
    primitive ds .real (.real (.finite x)) path = .ok (.number x) := rfl

end Encoding

theorem mem_of_caseFor? {cases : List Case} {tag : String} {found : Case}
    (h : caseFor? cases tag = some found) : found ∈ cases ∧ found.tag = tag :=
  ⟨List.mem_of_find?_eq_some h, by simpa using List.find?_some h⟩

/-- A case is found by its discriminator. -/
theorem caseFor?_of_mem {cases : List Case} {found : Case} (hmem : found ∈ cases)
    (htags : (cases.map (·.tag)).Nodup) : caseFor? cases found.tag = some found := by
  obtain ⟨c, hc⟩ := Option.isSome_iff_exists.mp
    (List.find?_isSome (p := fun c : Case => c.tag == found.tag).mpr ⟨found, hmem, by simp⟩)
  obtain ⟨hc', htag⟩ := mem_of_caseFor? hc
  rw [caseFor?, hc, List.inj_on_of_nodup_map htags hc' hmem htag]

/-- A record among the cases has one. -/
theorem exists_caseOf? {cases : List Case} {id : String} (hcase : id ∈ cases.map (·.record)) :
    ∃ found, caseOf? cases id = some found ∧ found ∈ cases ∧ found.record = id := by
  obtain ⟨one, hone, hid⟩ := List.mem_map.mp hcase
  obtain ⟨found, hfound⟩ : ∃ found, caseOf? cases id = some found :=
    Option.isSome_iff_exists.mp (List.find?_isSome.mpr ⟨one, hone, by simpa using hid⟩)
  exact ⟨found, hfound, List.mem_of_find?_eq_some hfound, by simpa using List.find?_some hfound⟩

/-! ### Values of optional shapes -/

namespace Encoding

theorem value_optional_null (inner : Shape) (path : Path) :
    value ds .null (.optional inner) path = .ok .null := by
  simp [value, Shape.isOptional]

theorem value_optional {v : Value} (hv : v ≠ .null) (inner : Shape) (path : Path) :
    value ds v (.optional inner) path = value ds v inner path := by
  cases v with
  | null => exact absurd rfl hv
  | _ => simp only [value, Shape.core]

/-- A field is encoded like a value of its whole shape. -/
theorem field_eq (attrs : List (String × Value)) (f : FieldShape) (path : Path) :
    field ds attrs f path =
      match Entries.get? attrs f.attr with
      | none => .ok .null
      | some v => value ds v f.whole (path.key f.key) := by
  induction attrs with
  | nil => simp [field, Entries.get?]
  | cons e rest ih =>
    obtain ⟨n, v⟩ := e
    by_cases hn : n = f.attr
    · by_cases hoptional : f.optional = true
      · cases v <;>
          simp [field, Entries.get?, hn, FieldShape.whole, hoptional, value_optional_null,
            value_optional]
      · simp [field, Entries.get?, hn, FieldShape.whole, hoptional]
    · simpa [field, Entries.get?, hn] using ih

end Encoding

@[simp] theorem Content.isNull_eq_true {c : Content} : c.isNull = true ↔ c = .null := by
  cases c <;> simp [isNull, kind]

namespace Decoding

theorem value_optional_null (inner : Shape) (path : Path) :
    value ds .null (.optional inner) path = .ok .null := by
  simp [value, Shape.isOptional, Content.isNull, Content.kind]

theorem value_optional {c : Content} (hc : c.isNull = false) (inner : Shape) (path : Path) :
    value ds c (.optional inner) path = value ds c inner path := by
  cases c with
  | null => cases hc
  | array | object => simp only [value, Shape.core]
  | bool | number | string => simp [value, Shape.core, Content.isNull, Content.kind]

/-- A field is decoded like a value of its whole shape. -/
theorem field_eq (entries : List (String × Content)) (f : FieldShape) (path : Path) :
    field ds entries f path =
      match Entries.get? entries f.key with
      | none => if f.optional then .ok .null else .error (.missing ⟨f.key, path⟩)
      | some c => value ds c f.whole (path.key f.key) := by
  induction entries with
  | nil => simp [field, Entries.get?]
  | cons e rest ih =>
    obtain ⟨k, c⟩ := e
    by_cases hk : k = f.key
    · by_cases hoptional : f.optional = true
      · cases hnull : c.isNull with
        | true =>
          obtain rfl := Content.isNull_eq_true.mp hnull
          simp [field, Entries.get?, hk, FieldShape.whole, hoptional, value_optional_null]
        | false =>
          simp [field, Entries.get?, hk, FieldShape.whole, hoptional, hnull, value_optional]
      · simp [field, Entries.get?, hk, FieldShape.whole, hoptional]
    · simpa [field, Entries.get?, hk] using ih

end Decoding

/-! ### Instances -/

namespace Declarations

/-- The names of the attributes that an instance of a record has. -/
def attributes (ds : Declarations) (id : String) : List String :=
  ((ds.fields id).filter fun f => f.init || f.default.isSome).map (·.name)

/-- The value of an attribute: the one given, or the default of its field. -/
def attributeValue (given : List (String × Value)) (f : FieldDecl) : Option Value :=
  (Entries.get? given f.name).or f.default

theorem instantiate_eq (id : String) (given : List (String × Value)) :
    ds.instantiate id given =
      .record id ((ds.fields id).filterMap fun f => (attributeValue given f).map (f.name, ·)) := by
  unfold instantiate attributeValue
  congr 2
  funext f
  cases Entries.get? given f.name <;> rfl

theorem attributes_nodup (ds : Declarations) (id : String) : (ds.attributes id).Nodup :=
  (fields_nodup ds id).sublist (List.filter_sublist.map _)

/-- What is given for the fields that travel makes up, with the defaults, all attributes. -/
theorem names_instantiate {id : String} {given : List (String × Value)}
    (hgiven : Entries.names given = ((ds.fields id).filter (·.init)).map (·.name)) :
    Entries.names ((ds.fields id).filterMap fun f => (attributeValue given f).map (f.name, ·)) =
      ds.attributes id := by
  have hsome : ∀ f ∈ ds.fields id,
      (attributeValue given f).isSome = (f.init || f.default.isSome) := by
    intro f hf
    have hgivenName : f.name ∈ Entries.names given ↔ f.init = true := by
      rw [hgiven, mem_given_iff hf]
    cases hget : Entries.get? given f.name with
    | none =>
      have hinit : f.init = false := by
        rw [← Bool.not_eq_true, ← hgivenName]
        exact Entries.get?_eq_none.mp hget
      simp [attributeValue, hget, hinit]
    | some v =>
      have hinit : f.init = true :=
        hgivenName.mp (List.mem_map.mpr ⟨_, Entries.mem_of_get? hget, rfl⟩)
      simp [attributeValue, hget, hinit]
  rw [attributes]
  clear hgiven
  generalize ds.fields id = fs at hsome ⊢
  induction fs with
  | nil => rfl
  | cons f fs ih =>
    have hf := hsome f List.mem_cons_self
    have hrest := ih fun g hg => hsome g (List.mem_cons_of_mem f hg)
    cases hattr : attributeValue given f with
    | none =>
      rw [hattr] at hf
      rw [List.filterMap_cons_none (by simp [hattr]),
        List.filter_cons_of_neg (by simpa using hf.symm), hrest]
    | some v =>
      rw [hattr] at hf
      rw [List.filterMap_cons_some (by simp [hattr]; rfl),
        List.filter_cons_of_pos (by simpa using hf.symm), Entries.names_cons, List.map_cons, hrest]

theorem get?_instantiate {id : String} {given : List (String × Value)} {f : FieldDecl}
    (hf : f ∈ ds.fields id) :
    Entries.get? ((ds.fields id).filterMap fun f => (attributeValue given f).map (f.name, ·)) f.name =
      attributeValue given f := by
  have hd := fields_nodup ds id
  generalize ds.fields id = fs at hf hd ⊢
  induction fs with
  | nil => cases hf
  | cons g fs ih =>
    rw [List.map_cons, List.nodup_cons] at hd
    rcases List.mem_cons.mp hf with rfl | hmem
    · cases hattr : attributeValue given f with
      | some v =>
        rw [List.filterMap_cons_some (by simp [hattr]; rfl), Entries.get?_cons_self]
      | none =>
        rw [List.filterMap_cons_none (by simp [hattr]), Entries.get?_eq_none]
        intro hname
        obtain ⟨e, he, hen⟩ := List.mem_map.mp hname
        obtain ⟨g, hg, hge⟩ := List.mem_filterMap.mp he
        obtain ⟨w, _, rfl⟩ := Option.map_eq_some_iff.mp hge
        exact hd.1 (List.mem_map.mpr ⟨g, hg, hen⟩)
    · have hne : g.name ≠ f.name := fun h => hd.1 (List.mem_map.mpr ⟨f, hmem, h.symm⟩)
      cases hattr : attributeValue given g with
      | some v =>
        rw [List.filterMap_cons_some (by simp [hattr]; rfl), Entries.get?_cons_of_ne _ _ hne,
          ih hmem hd.2]
      | none => rw [List.filterMap_cons_none (by simp [hattr]), ih hmem hd.2]

theorem isSubrecord_self (ds : Declarations) (id : String) : ds.isSubrecord id id = true := by
  unfold isSubrecord
  cases ds.entries.length <;> simp [descends]

end Declarations

/-! ### Encoding by shape -/

namespace Encoding

variable {shape item : Shape} {constraints : List Constraint} {id name : String}
  {description : Option String} {attrs : List (String × Value)} {fields : List FieldShape}
  {path : Path} {entries : List (String × Content)}

theorem value_text (core : shape.core = .primitive .text constraints) (s : String) (path : Path) :
    value ds (.text s) shape path = .ok (.string s) := by
  simp [value, core, leaf, primitive, Value.base]

theorem value_bool (core : shape.core = .primitive .bool constraints) (b : Bool) (path : Path) :
    value ds (.bool b) shape path = .ok (.bool b) := by
  simp [value, core, leaf, primitive, Value.base]

theorem value_real (core : shape.core = .primitive .real constraints) (x : Double) (path : Path) :
    value ds (.real (.finite x)) shape path = .ok (.number x) := by
  simp [value, core, leaf, primitive_real]

theorem value_integer (core : shape.core = .primitive .integer constraints) {n : Int} {x : Double}
    (h : Floating.ofInt n = .finite x) (path : Path) :
    value ds (.integer n) shape path = .ok (.number x) := by
  simp [value, core, leaf, primitive_integer h]

theorem value_literal {values : List String} (core : shape.core = .literal values constraints)
    (s : String) (path : Path) : value ds (.text s) shape path = .ok (.string s) := by
  simp [value, core, leaf, Value.asText?, Value.base]

theorem value_member (core : shape.core = .enum id name description) (m : String × Value)
    (path : Path) :
    value ds ((ds.enumOf id).memberValue id m) shape path = .ok (.string (wireValue m)) := by
  simp [value, EnumDecl.memberValue, core, leaf]

theorem value_collect {container : Container}
    (core : shape.core = .array item container constraints) (items : List Value) (path : Path) :
    value ds (container.collect items) shape path = (values ds items item path 0).map .array := by
  cases container <;> simp [Container.collect, value, core]

/-- One entry for each field, in their order, under the key of the field and with what the field is
encoded to. -/
def FieldEntries (ds : Declarations) (attrs : List (String × Value)) (path : Path)
    (fields : List FieldShape) (entries : List (String × Content)) : Prop :=
  List.Forall₂ (fun f e => e.1 = f.key ∧ field ds attrs f path = .ok e.2) fields entries

theorem FieldEntries.names {entries : List (String × Content)}
    (h : FieldEntries ds attrs path fields entries) :
    Entries.names entries = fields.map (·.key) := by
  induction h with
  | nil => rfl
  | cons hfield _ ih => rw [Entries.names_cons, List.map_cons, hfield.1, ih]

theorem fieldEntries_of_mapM {entries : List (String × Content)}
    (h : (fields.mapM fun f => (f.key, ·) <$> field ds attrs f path) = .ok entries) :
    FieldEntries ds attrs path fields entries := by
  refine (Outcome.mapM_eq_ok.mp h).imp fun f e he => ?_
  obtain ⟨c, hc, rfl⟩ := Outcome.functorMap_eq_ok.mp he
  exact ⟨rfl, hc⟩

/-- Without a field under its key the discriminator stays in front of the fields. -/
theorem ofEntries_of_untagged {entries : List (String × Content)} (tag : Content)
    (hkeys : (fields.map (·.key)).Nodup) (hentries : FieldEntries ds attrs path fields entries)
    (h : discriminatorKey ∉ fields.map (·.key)) :
    Content.ofEntries ((discriminatorKey, tag) :: entries) =
      .object ((discriminatorKey, tag) :: entries) := by
  have hnodup : (Entries.names ((discriminatorKey, tag) :: entries)).Nodup := by
    rw [Entries.names_cons, List.nodup_cons, hentries.names]
    exact ⟨h, hkeys⟩
  rw [Content.ofEntries, Entries.ofList_of_nodup hnodup]

theorem value_record (core : shape.core = .record id name description)
    (resolved : ds.fieldShapes id = .ok fields)
    (h : (fields.mapM fun f => (f.key, ·) <$> field ds attrs f path) = .ok entries) :
    value ds (.record id attrs) shape path = .ok (.object entries) := by
  have hkeys : (Entries.names entries).Nodup :=
    (fieldEntries_of_mapM h).names ▸ (Declarations.fielded_of_fieldShapes resolved).keys
  simp [value, core, Declarations.isSubrecord_self, resolved, h, Content.ofEntries,
    Entries.ofList_of_nodup hkeys]

/-- The discriminator of a case comes before its fields. -/
theorem value_case {cases : List Case} {found : Case}
    (core : shape.core = .union name description cases) (hfound : caseOf? cases id = some found)
    (resolved : ds.fieldShapes id = .ok fields)
    (untagged : discriminatorKey ∉ fields.map (·.key))
    (h : (fields.mapM fun f => (f.key, ·) <$> field ds attrs f path) = .ok entries) :
    value ds (.record id attrs) shape path =
      .ok (.object ((discriminatorKey, .string found.tag) :: entries)) := by
  have hentries := ofEntries_of_untagged (.string found.tag)
    (Declarations.fielded_of_fieldShapes resolved).keys (fieldEntries_of_mapM h) untagged
  simp [value, core, hfound, resolved, h, hentries]

end Encoding

/-! ### Decoding by shape -/

namespace Decoding

variable {shape item : Shape} {constraints : List Constraint} {id name : String}
  {description : Option String} {fields : List FieldShape} {path : Path}
  {entries : List (String × Content)} {given : List (String × Value)}

/-- Which value of a shape without parts content holds. -/
inductive LeafValue (ds : Declarations) : Shape → Content → Value → Prop
  | text (constraints : List Constraint) (s : String) :
      LeafValue ds (.primitive .text constraints) (.string s) (.text s)
  | bool (constraints : List Constraint) (b : Bool) :
      LeafValue ds (.primitive .bool constraints) (.bool b) (.bool b)
  | real (constraints : List Constraint) (x : Double) :
      LeafValue ds (.primitive .real constraints) (.number x) (.real (.finite x))
  | integer {x : Double} {n : Int} (whole : x.toInt? = some n) (constraints : List Constraint) :
      LeafValue ds (.primitive .integer constraints) (.number x) (.integer n)
  | literal {values : List String} {s : String} (option : s ∈ values)
      (constraints : List Constraint) :
      LeafValue ds (.literal values constraints) (.string s) (.text s)
  | member {id wire : String} {m : String × Value}
      (declared : Entries.get? (ds.enumOf id).wires wire = some m) (name : String)
      (description : Option String) :
      LeafValue ds (.enum id name description) (.string wire) ((ds.enumOf id).memberValue id m)

theorem leafValue_of_primitive {type : Primitive} {c : Content} {v : Value}
    (h : decodePrimitive type c path = .ok v) (constraints : List Constraint) :
    LeafValue ds (.primitive type constraints) c v := by
  cases type with
  | text =>
    obtain ⟨s, hs, rfl⟩ := Outcome.map_eq_ok.mp h
    cases c <;> cases hs
    exact .text constraints s
  | bool =>
    obtain ⟨b, hb, rfl⟩ := Outcome.map_eq_ok.mp h
    cases c <;> cases hb
    exact .bool constraints b
  | real =>
    obtain ⟨x, hx, rfl⟩ := Outcome.map_eq_ok.mp h
    cases c <;> cases hx
    exact .real constraints x
  | integer =>
    cases c with
    | number x =>
      simp only [decodePrimitive, Content.asNumber] at h
      cases whole : x.toInt? <;> rw [whole] at h <;> cases h
      exact .integer whole constraints
    | _ => cases h

theorem leaf_eq_ok {c : Content} {v : Value} :
    leaf ds shape c path = .ok v ↔ LeafValue ds shape c v := by
  constructor
  · intro h
    cases shape with
    | primitive type constraints =>
      exact leafValue_of_primitive (Outcome.mapError_eq_ok.mp h) constraints
    | literal values constraints =>
      cases c with
      | string s =>
        simp only [leaf, literal, Content.asString] at h
        by_cases option : s ∈ values
        · rw [if_pos (List.contains_iff_mem.mpr option)] at h
          cases h
          exact .literal option constraints
        · rw [if_neg (by simpa using option)] at h
          cases h
      | _ => cases h
    | enum id name description =>
      cases c with
      | string wire =>
        simp only [leaf, member, Content.asString] at h
        cases declared : Entries.get? (ds.enumOf id).wires wire <;> rw [declared] at h <;> cases h
        exact .member declared name description
      | _ => cases h
    | array | optional | record | union => cases h
  · intro h
    cases h with
    | text | bool | real => rfl
    | integer whole => simp [leaf, decodePrimitive, Content.asNumber, whole, Except.mapError]
    | literal option => simp [leaf, literal, Content.asString, option]
    | member declared => simp [leaf, member, Content.asString, declared]

theorem value_of_leafValue {c : Content} {v : Value} (h : LeafValue ds shape.core c v)
    (path : Path) : value ds c shape path = .ok v := by
  have hleaf : leaf ds shape.core c path = .ok v := leaf_eq_ok.mpr h
  cases c with
  | bool | number | string => simpa [value, Content.isNull, Content.kind] using hleaf
  | null | array | object => generalize shape.core = core at h; cases h

theorem value_text (core : shape.core = .primitive .text constraints) (s : String) (path : Path) :
    value ds (.string s) shape path = .ok (.text s) :=
  value_of_leafValue (core ▸ .text constraints s) path

theorem value_bool (core : shape.core = .primitive .bool constraints) (b : Bool) (path : Path) :
    value ds (.bool b) shape path = .ok (.bool b) :=
  value_of_leafValue (core ▸ .bool constraints b) path

theorem value_real (core : shape.core = .primitive .real constraints) (x : Double) (path : Path) :
    value ds (.number x) shape path = .ok (.real (.finite x)) :=
  value_of_leafValue (core ▸ .real constraints x) path

theorem value_integer (core : shape.core = .primitive .integer constraints) {x : Double} {n : Int}
    (whole : x.toInt? = some n) (path : Path) :
    value ds (.number x) shape path = .ok (.integer n) :=
  value_of_leafValue (core ▸ .integer whole constraints) path

theorem value_literal {values : List String} (core : shape.core = .literal values constraints)
    {s : String} (option : s ∈ values) (path : Path) :
    value ds (.string s) shape path = .ok (.text s) :=
  value_of_leafValue (core ▸ .literal option constraints) path

theorem value_member (core : shape.core = .enum id name description) {wire : String}
    {m : String × Value} (declared : Entries.get? (ds.enumOf id).wires wire = some m)
    (path : Path) : value ds (.string wire) shape path = .ok ((ds.enumOf id).memberValue id m) :=
  value_of_leafValue (core ▸ .member declared name description) path

theorem value_array {container : Container}
    (core : shape.core = .array item container constraints) (items : List Content) (path : Path) :
    value ds (.array items) shape path = (values ds items item path 0).map container.collect := by
  simp [value, core]

theorem value_record (core : shape.core = .record id name description)
    (resolved : ds.fieldShapes id = .ok fields)
    (h : (fields.mapM fun f => (f.attr, ·) <$> field ds entries f path) = .ok given) :
    value ds (.object entries) shape path = .ok (ds.instantiate id given) := by
  simp [value, core, resolved, h]

theorem value_case {cases : List Case} {found : Case}
    (core : shape.core = .union name description cases)
    (hfound : caseOf cases entries path = .ok found)
    (resolved : ds.fieldShapes found.record = .ok fields)
    (h : (fields.mapM fun f => (f.attr, ·) <$> field ds entries f path) = .ok given) :
    value ds (.object entries) shape path = .ok (ds.instantiate found.record given) := by
  simp [value, core, hfound, resolved, h]

end Decoding

end StructuredOutput

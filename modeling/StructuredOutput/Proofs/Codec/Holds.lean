import StructuredOutput.Proofs.Codec.Decodes
import StructuredOutput.Proofs.Codec.FromText
import StructuredOutput.Proofs.Content.Members
import StructuredOutput.Proofs.Stream.Observed

/-!
The value that content holds, part by part: what decoding yields, said without the paths at which it
reports errors.
-/

namespace StructuredOutput

variable {ds : Declarations}

/-- The fields of a record as they travel; a record whose fields do not resolve has none. -/
def Declarations.travelling (ds : Declarations) (id : String) : List FieldShape :=
  (ds.fieldShapes id).toOption.getD []

theorem Declarations.travelling_eq {id : String} {fields : List FieldShape}
    (resolved : ds.fieldShapes id = .ok fields) : ds.travelling id = fields := by
  rw [travelling, resolved]
  rfl

/-- Content holds a value of a shape. A field that is absent counts as null if it is optional. -/
inductive Holds (ds : Declarations) : Content → Shape → Value → Prop
  | null {shape : Shape} (optional : shape.isOptional = true) : Holds ds .null shape .null
  | text {shape : Shape} {constraints : List Constraint}
      (core : shape.core = .primitive .text constraints) (s : String) :
      Holds ds (.string s) shape (.text s)
  | bool {shape : Shape} {constraints : List Constraint}
      (core : shape.core = .primitive .bool constraints) (b : Bool) :
      Holds ds (.bool b) shape (.bool b)
  | real {shape : Shape} {constraints : List Constraint}
      (core : shape.core = .primitive .real constraints) (x : Double) :
      Holds ds (.number x) shape (.real (.finite x))
  | integer {shape : Shape} {constraints : List Constraint} {x : Double}
      (core : shape.core = .primitive .integer constraints) (integral : x.isIntegral = true) :
      Holds ds (.number x) shape (.integer x.truncate)
  | literal {shape : Shape} {constraints : List Constraint} {values : List String} {s : String}
      (core : shape.core = .literal values constraints) (option : s ∈ values) :
      Holds ds (.string s) shape (.text s)
  | member {shape : Shape} {id name wire : String} {description : Option String}
      {m : String × Value} (core : shape.core = .enum id name description)
      (declared : Entries.get? (ds.enumOf id).wires wire = some m) :
      Holds ds (.string wire) shape ((ds.enumOf id).memberValue id m)
  | array {shape item : Shape} {container : Container} {constraints : List Constraint}
      {items : List Content} {vs : List Value}
      (core : shape.core = .array item container constraints)
      (length : items.length = vs.length)
      (each : ∀ p ∈ items.zip vs, Holds ds p.1 item p.2) :
      Holds ds (.array items) shape (container.collect vs)
  | object {shape : Shape} {entries : List (String × Content)} {id : String}
      {fields : List FieldShape} {attrs : List (String × Value)}
      (belongs : instanceOf? entries shape.core = some id)
      (resolved : ds.fieldShapes id = .ok fields)
      (given : ∀ f ∈ fields, ∃ v, Entries.get? attrs f.attr = some v)
      (absent : ∀ f ∈ fields, Entries.get? entries f.key = none →
        f.optional = true ∧ Entries.get? attrs f.attr = some .null)
      (present : ∀ f ∈ fields, ∀ c v, Entries.get? entries f.key = some c →
        Entries.get? attrs f.attr = some v → Holds ds c f.whole v) :
      Holds ds (.object entries) shape (.record id attrs)

namespace Decoding

/-- An instance that is made has what is given for its fields. -/
theorem exists_attrs {id : String} {fields : List FieldShape} {given : List (String × Value)}
    (resolved : ds.fieldShapes id = .ok fields)
    (names : Entries.names given = fields.map (·.attr)) :
    ∃ attrs, ds.instantiate id given = .record id attrs ∧
      ∀ e ∈ given, Entries.get? attrs e.1 = some e.2 := by
  have hfielded := Declarations.fielded_of_fieldShapes resolved
  refine ⟨_, Declarations.instantiate_eq id given, fun e he => ?_⟩
  have hattr : e.1 ∈ fields.map (·.attr) := names ▸ List.mem_map_of_mem he
  obtain ⟨f, hf, hname⟩ := List.mem_map.mp hattr
  obtain ⟨decl, hdecl, -, travels⟩ := hfielded.exists_decl hf
  have hget : Entries.get? given e.1 = some e.2 :=
    Entries.get?_of_mem (names ▸ hfielded.attrs_nodup) he
  rw [← hname, travels.attr] at hget ⊢
  rw [Declarations.get?_instantiate hdecl, Declarations.attributeValue, hget, Option.some_or]

theorem holds_of_leafValue {c : Content} {shape : Shape} {v : Value}
    (h : LeafValue ds shape.core c v) : Holds ds c shape v := by
  generalize hcore : shape.core = core at h
  cases h with
  | text constraints s => exact .text hcore s
  | bool constraints b => exact .bool hcore b
  | real constraints x => exact .real hcore x
  | integer whole constraints =>
    obtain ⟨integral, rfl⟩ := Double.toInt?_eq_some.mp whole
    exact .integer hcore integral
  | literal option constraints => exact .literal hcore option
  | member declared => exact .member hcore declared

theorem holds_values {items : List Content} {item : Shape} {path : Path} {i : Nat}
    {vs : List Value}
    (each : ∀ c ∈ items, ∀ path v, value ds c item path = .ok v → Holds ds c item v)
    (h : values ds items item path i = .ok vs) :
    items.length = vs.length ∧ ∀ p ∈ items.zip vs, Holds ds p.1 item p.2 := by
  induction items generalizing i vs with
  | nil =>
    cases h
    exact ⟨rfl, fun p hp => absurd hp List.not_mem_nil⟩
  | cons c cs ih =>
    rw [values] at h
    obtain ⟨v, hv, h⟩ := Outcome.bind_eq_ok.mp h
    obtain ⟨ws, hws, h⟩ := Outcome.bind_eq_ok.mp h
    cases h
    obtain ⟨hlength, hrest⟩ := ih (fun c hc => each c (List.mem_cons_of_mem _ hc)) hws
    refine ⟨by rw [List.length_cons, List.length_cons, hlength], ?_⟩
    rw [List.zip_cons_cons]
    exact List.forall_mem_cons.mpr ⟨each c List.mem_cons_self _ v hv, hrest⟩

/-- An instance that is made of the fields of an object is the value that the object holds. -/
theorem holds_instance {shape : Shape} {entries : List (String × Content)} {id : String}
    {fields : List FieldShape} {given : List (String × Value)} {path : Path}
    (hbelongs : instanceOf? entries shape.core = some id)
    (resolved : ds.fieldShapes id = .ok fields)
    (hgiven : (fields.mapM fun f => (f.attr, ·) <$> field ds entries f path) = .ok given)
    (each : ∀ e ∈ entries, ∀ s path v, value ds e.2 s path = .ok v → Holds ds e.2 s v) :
    Holds ds (.object entries) shape (ds.instantiate id given) := by
  have names : Entries.names given = fields.map (·.attr) :=
    Outcome.names_of_mapM hgiven fun f e he => by
      obtain ⟨w, -, rfl⟩ := Outcome.functorMap_eq_ok.mp he
      rfl
  obtain ⟨attrs, hattrs, hget⟩ := exists_attrs resolved names
  -- Every attribute is the value of its field, which is that of its entry.
  have hfield : ∀ f ∈ fields, ∃ w, Entries.get? attrs f.attr = some w ∧
      field ds entries f path = .ok w := by
    intro f hf
    obtain ⟨e, he, hfe⟩ := Outcome.exists_mem_right (Outcome.mapM_eq_ok.mp hgiven) hf
    obtain ⟨w, hw, rfl⟩ := Outcome.functorMap_eq_ok.mp hfe
    exact ⟨w, hget _ he, hw⟩
  rw [hattrs]
  refine .object hbelongs resolved (fun f hf => ?_) (fun f hf hnone => ?_)
    fun f hf c w hc hw => ?_
  · obtain ⟨w, hw, -⟩ := hfield f hf
    exact ⟨w, hw⟩
  · obtain ⟨w, hw, hvalue⟩ := hfield f hf
    rw [field_eq, hnone] at hvalue
    cases hoptional : f.optional with
    | true =>
      simp only [hoptional, if_true, Except.ok.injEq] at hvalue
      exact ⟨rfl, hvalue ▸ hw⟩
    | false => simp [hoptional] at hvalue
  · obtain ⟨u, hu, hvalue⟩ := hfield f hf
    rw [field_eq, hc] at hvalue
    rw [hu] at hw
    cases hw
    exact each (f.key, c) (Entries.mem_of_get? hc) _ _ _ hvalue

/-- Content holds the value that it is decoded to. -/
theorem holds_of_value (c : Content) {shape : Shape} {path : Path} {v : Value}
    (h : value ds c shape path = .ok v) : Holds ds c shape v := by
  induction c using Content.members_induction generalizing shape path v with
  | null =>
    cases gives_of_value h with
    | null optional => exact .null optional
    | leaf holds => exact holds_of_leafValue holds
  | bool | number | string =>
    cases gives_of_value h with
    | leaf holds => exact holds_of_leafValue holds
  | array items ih =>
    cases gives_of_value h with
    | leaf holds => exact holds_of_leafValue holds
    | items core each =>
      obtain ⟨hlength, heach⟩ := holds_values (fun c hc _ _ hv => ih c hc hv) each
      exact .array core hlength heach
  | object entries ih =>
    cases gives_of_value h with
    | leaf holds => exact holds_of_leafValue holds
    | made belongs resolved each =>
      exact holds_instance belongs resolved each fun e he _ _ _ hv => ih e he hv

end Decoding

theorem holds_of_decode {t : TypeExpr} {shape : Shape} {c : Content} {v : Value}
    (hshape : ds.shapeOf t = .ok shape) (h : decode ds c t = .ok v) : Holds ds c shape v := by
  rw [decode_eq hshape] at h
  exact Decoding.holds_of_value c h

end StructuredOutput

import StructuredOutput.Proofs.Schema.DistinctNames

/-!
What the schema of a type says of every shape that the type reaches: some node of the schema mirrors
it, and where the node is a reference, the node that defines the name does. So the records that are
reached have fields, and no case of a union has a field under the key of the discriminator.
-/

namespace StructuredOutput

variable {ds : Declarations} {names : RoleNames} {g : SchemaGraph} {s node : Schema}
  {shape : Shape} {rules : List Constraint}

/-! ### Parts -/

theorem Shape.core_of_records {id : String} (h : id ∈ shape.records) : shape.core = shape := by
  cases shape with
  | optional => cases h
  | _ => rfl

theorem MirrorsFields.forall₂ {properties : List (Property Schema)} {fields : List FieldShape}
    (h : MirrorsFields ds names properties fields) :
    List.Forall₂ (fun p f => p.key = f.key ∧ p.optional = f.optional ∧
      Mirrors ds names p.schema f.shape f.shape.constraints) properties fields := by
  obtain ⟨haligned, halike⟩ := List.forall₂_iff_zip.mp h.alike
  refine List.forall₂_iff_zip.mpr ⟨haligned, fun hmem => ?_⟩
  exact ⟨(halike hmem).1, (halike hmem).2, h.each _ _ hmem⟩

/-- What stands beside the properties of fields stands beside the fields. -/
theorem MirrorsFields.exists_of_zip {α : Type} {properties : List (Property Schema)}
    {fields : List FieldShape} (h : MirrorsFields ds names properties fields)
    {entries : List α} {e : α} {p : Property Schema} (hmem : (e, p) ∈ entries.zip properties) :
    ∃ f, (e, f) ∈ entries.zip fields ∧ p.optional = f.optional ∧
      Mirrors ds names p.schema f.shape f.shape.constraints := by
  obtain ⟨i, hi⟩ := List.getElem?_of_mem hmem
  obtain ⟨he, hp⟩ := List.getElem?_zip_eq_some.mp hi
  obtain ⟨f, hf, -, hoptional, hmirrors⟩ := Outcome.exists_getElem?_right h.forall₂ hp
  exact ⟨f, List.mem_of_getElem? (List.getElem?_zip_eq_some.mpr ⟨he, hf⟩), hoptional, hmirrors⟩

namespace Mirrors

/-- No schema says that null is a value. -/
theorem core_eq (h : Mirrors ds names s shape rules) : shape.core = shape := by
  cases h with
  | @ref role name _ named described =>
    cases shape with
    | optional inner => cases role <;> cases described
    | _ => rfl
  | _ => rfl

/-- What has fields has a name. -/
theorem exists_name (h : Mirrors ds names s shape rules) {id : String} (hid : id ∈ shape.records) :
    ∃ name, s.name? = some name := by
  cases h with
  | text | integer | real | bool | literal | array => cases hid
  | _ => exact ⟨_, rfl⟩

theorem part (h : Mirrors ds names s shape rules) {part : Schema} (hpart : part ∈ s.parts) :
    ∃ shape rules, Mirrors ds names part shape rules := by
  have hfields {properties : List (Property Schema)} {fields : List FieldShape}
      (hall : MirrorsFields ds names properties fields) {t : Schema}
      (ht : t ∈ properties.map (·.schema)) : ∃ shape rules, Mirrors ds names t shape rules := by
    obtain ⟨p, hp, rfl⟩ := List.mem_map.mp ht
    obtain ⟨f, -, -, -, hf⟩ := Outcome.exists_mem_right hall.forall₂ hp
    exact ⟨_, _, hf⟩
  cases h with
  | text | integer | real | bool | literal | ref => exact absurd hpart List.not_mem_nil
  | array items =>
    obtain rfl := List.mem_singleton.mp hpart
    exact ⟨_, _, items⟩
  | enum =>
    obtain ⟨w, -, rfl⟩ := List.mem_map.mp hpart
    exact ⟨_, _, .literal [] [w.1] []⟩
  | record named resolved alike each => exact hfields ⟨alike, each⟩ hpart
  | case named resolved untagged alike each =>
    rcases List.mem_cons.mp hpart with rfl | hpart
    · exact ⟨_, _, .literal [] [_] []⟩
    · exact hfields ⟨alike, each⟩ hpart
  | union named distinct aligned defined each =>
    have hall := List.forall₂_iff_zip.mpr ⟨aligned, fun hmem => each _ _ hmem⟩
    obtain ⟨id, -, hid⟩ := Outcome.exists_mem_right hall hpart
    exact ⟨_, _, hid⟩

/-- Every node of a schema that mirrors a shape mirrors some shape. -/
theorem within (h : Mirrors ds names s shape rules) (hnode : node.Within s) :
    ∃ shape rules, Mirrors ds names node shape rules := by
  obtain ⟨position, hposition⟩ := hnode
  induction position generalizing s shape rules with
  | nil =>
    cases hposition
    exact ⟨shape, rules, h⟩
  | cons i position ih =>
    rw [Schema.at?] at hposition
    obtain ⟨part, hpart, hrest⟩ := Option.bind_eq_some_iff.mp hposition
    obtain ⟨_, _, hinner⟩ := h.part (List.mem_of_getElem? hpart)
    exact ih hinner hrest

end Mirrors

/-! ### What defines a name -/

/-- A schema mirrors a shape, and its references resolve to what defines their names. -/
structure SchemaGraph.Closed (ds : Declarations) (names : RoleNames) (g : SchemaGraph)
    (shape : Shape) : Prop where
  distinct : (names.map (·.2)).Nodup
  root : Mirrors ds names g.root shape shape.constraints
  anchored : g.Anchored

theorem Declarations.closed_of_deriveSchema {t : TypeExpr}
    (hshape : ds.shapeOf t = .ok shape) (h : (ds.deriveSchema t).1 = .ok g) :
    ∃ names, g.Closed ds names shape := by
  obtain ⟨names, hmirrors⟩ := mirrors_of_deriveSchema hshape h
  obtain ⟨_, _, -, hfinished⟩ := finished_of_deriveSchema h
  exact ⟨names, hmirrors.distinct, hmirrors.root, hfinished.unambiguous.anchored⟩

namespace SchemaGraph.Closed

/-- What defines a name does so for the role of every node of the name. -/
theorem defines (hg : g.Closed ds names shape) {s node : Schema} {described : Shape}
    {rules : List Constraint} (hs : Mirrors ds names s described rules) {name : String}
    (hname : s.name? = some name) (hnode : node.Within g.root) (hdefines : node.defines = true)
    (hsame : node.name? = some name) :
    ∃ role, Defines ds names role node ∧ Entries.get? names role = some name ∧
      role.Describes ds described := by
  obtain ⟨_, _, hmirrors⟩ := hg.root.within hnode
  obtain ⟨role, hrole, -, -⟩ := hmirrors.exists_defines hg.distinct hdefines
  obtain ⟨name', hname', hnamed⟩ := hrole.named
  obtain rfl : name = name' := Option.some.inj (hsame.symm.trans hname')
  obtain ⟨role', hnamed', hdescribes⟩ := hs.exists_role hname
  obtain rfl := Derivation.role_unique hg.distinct hnamed hnamed'
  exact ⟨role, hrole, hnamed, hdescribes⟩

/-- The name of a node is defined by a node. -/
theorem exists_defines (hg : g.Closed ds names shape) {described : Shape}
    (hs : Mirrors ds names s described rules) (hwithin : s.Within g.root) {name : String}
    (hname : s.name? = some name) : ∃ node role, node.Within g.root ∧ node.name? = some name ∧
      Defines ds names role node ∧ role.Describes ds described := by
  obtain ⟨node, hnode, hdefines, hsame⟩ : ∃ node : Schema, node.Within g.root ∧
      node.defines = true ∧ node.name? = some name := by
    cases s with
    | object | union => exact ⟨_, hwithin, rfl, hname⟩
    | ref =>
      cases hname
      obtain ⟨node, -, hnode⟩ := hg.anchored name hwithin
      exact ⟨node, hnode⟩
    | _ => cases hname
  obtain ⟨role, hrole, -, hdescribes⟩ := hg.defines hs hname hnode hdefines hsame
  exact ⟨node, role, hnode, hsame, hrole, hdescribes⟩

end SchemaGraph.Closed

/-- The properties of what defines a name are those of the fields of its records. -/
theorem Defines.exists_fields {role : Role} (h : Defines ds names role node)
    {described : Shape} (hdescribes : role.Describes ds described) {id : String}
    (hid : id ∈ described.records) : ∃ fields properties, ds.fieldShapes id = .ok fields ∧
      MirrorsFields ds names properties fields ∧ (∀ p ∈ properties, p.schema.Within node) ∧
      ((∃ name description cases, described = .union name description cases) →
        discriminatorKey ∉ fields.map (·.key)) := by
  induction h generalizing described with
  | enum =>
    cases described <;> cases hdescribes
    cases hid
  | record named resolved fields =>
    cases described <;> cases hdescribes
    obtain rfl := List.mem_singleton.mp hid
    refine ⟨_, _, resolved, fields, fun p hp => ?_, ?_⟩
    · exact (Schema.Within.refl p.schema).of_part (Schema.mem_parts_of_mem_properties hp)
    · rintro ⟨_, _, _, hunion⟩
      cases hunion
  | case named resolved untagged fields =>
    cases described <;> cases hdescribes
    obtain rfl := List.mem_singleton.mp hid
    refine ⟨_, _, resolved, fields, fun p hp => ?_, fun _ => ?_⟩
    · exact (Schema.Within.refl p.schema).of_part
        (Schema.mem_parts_of_mem_properties (List.mem_cons_of_mem _ hp))
    · rwa [← keys_eq_of_alike fields.alike]
  | @union unionName _ records _ named distinct aligned each _ ih =>
    cases described <;> cases hdescribes
    have hmem : id ∈ records := by
      rw [Shape.records, List.map_map] at hid
      exact List.map_id records ▸ hid
    have hall := List.forall₂_iff_zip.mpr ⟨aligned, fun hmem => hmem⟩
    obtain ⟨s, hs, hzip⟩ := Outcome.exists_mem_left hall hmem
    have hone : id ∈ (Shape.union "" none [⟨id, ds.caseTag id⟩]).records :=
      List.mem_singleton_self id
    have hcase : (Role.case unionName records id).Describes ds
        (.union "" none [⟨id, ds.caseTag id⟩]) := rfl
    obtain ⟨fields, properties, hresolved, hfields, hwithin, huntagged⟩ := ih s id hzip hcase hone
    refine ⟨fields, properties, hresolved, hfields, fun p hp => ?_, fun _ => ?_⟩
    · exact (hwithin p hp).trans ((Schema.Within.refl s).of_part hs)
    · exact huntagged ⟨_, _, _, rfl⟩

/-! ### What a type reaches -/

/-- Some node of a schema mirrors a shape, null aside. -/
def SchemaGraph.Shows (ds : Declarations) (names : RoleNames) (g : SchemaGraph) (shape : Shape) :
    Prop :=
  ∃ node rules, node.Within g.root ∧ Mirrors ds names node shape.core rules

theorem SchemaGraph.Shows.item {item : Shape} {container : Container}
    {constraints : List Constraint} (h : g.Shows ds names (.array item container constraints)) :
    g.Shows ds names item := by
  obtain ⟨node, rules, hwithin, hmirrors⟩ := h
  cases hmirrors with
  | @array inner _ _ items =>
    have hinner : inner.Within g.root := hwithin.part (List.mem_singleton_self inner)
    exact ⟨inner, _, hinner, items.core_eq.symm ▸ items⟩
  | @ref role _ _ _ described => cases role <;> cases described

namespace SchemaGraph.Closed

/-- The records whose fields a shape reads have fields, and properties in its schema. -/
theorem exists_fields (hg : g.Closed ds names shape) {described : Shape}
    (hs : Mirrors ds names s described rules) (hwithin : s.Within g.root) {id : String}
    (hid : id ∈ described.records) : ∃ fields properties, ds.fieldShapes id = .ok fields ∧
      MirrorsFields ds names properties fields ∧ (∀ p ∈ properties, p.schema.Within g.root) ∧
      ((∃ name description cases, described = .union name description cases) →
        discriminatorKey ∉ fields.map (·.key)) := by
  obtain ⟨name, hname⟩ := hs.exists_name hid
  obtain ⟨node, role, hnode, -, hrole, hdescribes⟩ := hg.exists_defines hs hwithin hname
  obtain ⟨fields, properties, hresolved, hfields, hinside, huntagged⟩ :=
    hrole.exists_fields hdescribes hid
  exact ⟨fields, properties, hresolved, hfields, fun p hp => (hinside p hp).trans hnode, huntagged⟩

theorem shows_field (hg : g.Closed ds names shape) {whole : Shape} {id : String}
    {fields : List FieldShape} {f : FieldShape} (h : g.Shows ds names whole)
    (hid : id ∈ whole.records) (hfields : ds.fieldShapes id = .ok fields) (hf : f ∈ fields) :
    g.Shows ds names f.whole := by
  obtain ⟨node, rules, hwithin, hmirrors⟩ := h
  rw [Shape.core_of_records hid] at hmirrors
  obtain ⟨fields', properties, hfields', hall, hinside, -⟩ := hg.exists_fields hmirrors hwithin hid
  obtain rfl : fields = fields' := Except.ok.inj (hfields.symm.trans hfields')
  obtain ⟨p, hp, -, -, hmirrored⟩ := Outcome.exists_mem_left hall.forall₂ hf
  refine ⟨p.schema, f.shape.constraints, hinside p hp, ?_⟩
  rw [f.core_whole, hmirrored.core_eq]
  exact hmirrored

/-- What a shape reaches is in its schema. -/
theorem shows_of_reaches (hg : g.Closed ds names shape) {reached : Shape}
    (h : StructuredOutput.Reaches ds shape reached) : g.Shows ds names reached := by
  refine h.of_closed (fun inner hinner => hinner) (fun _ _ _ => .item)
    (fun _ _ _ _ => hg.shows_field) ?_
  exact ⟨g.root, shape.constraints, .refl _, hg.root.core_eq.symm ▸ hg.root⟩

theorem resolves (hg : g.Closed ds names shape) : Resolves ds shape := by
  intro reached hreached id hid
  obtain ⟨node, rules, hwithin, hmirrors⟩ := hg.shows_of_reaches hreached
  rw [Shape.core_of_records hid] at hmirrors
  obtain ⟨fields, -, hfields, -⟩ := hg.exists_fields hmirrors hwithin hid
  exact ⟨fields, hfields⟩

theorem untagged (hg : g.Closed ds names shape) : Untagged ds shape := by
  intro name description cases hreached c hc fields hfields
  obtain ⟨node, rules, hwithin, hmirrors⟩ := hg.shows_of_reaches hreached
  have hid : c.record ∈ (Shape.union name description cases).records := List.mem_map_of_mem hc
  obtain ⟨fields', -, hfields', -, -, huntagged⟩ := hg.exists_fields hmirrors hwithin hid
  obtain rfl : fields = fields' := Except.ok.inj (hfields.symm.trans hfields')
  exact huntagged ⟨_, _, _, rfl⟩

end SchemaGraph.Closed

end StructuredOutput

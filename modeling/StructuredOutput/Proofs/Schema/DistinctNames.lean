import StructuredOutput.Proofs.Backend.Clashes
import StructuredOutput.Proofs.Backend.Faults
import StructuredOutput.Proofs.Document.Decodes
import StructuredOutput.Proofs.Schema.Origins

/-!
The names in a derived schema are unambiguous: a name stands for one role, the nodes that define it
are equal, and a reference resolves to one of them. So no schema that is derived is refused because
two of its parts share a name.
-/

namespace StructuredOutput

/-! ### Names and roles -/

/-- The names in the schema of a shape are unambiguous. -/
structure SchemaGraph.Unambiguous (ds : Declarations) (shape : Shape) (g : SchemaGraph) : Prop where
  /-- What has a name comes from a declaration in a role. -/
  origin : ∀ position node, g.root.at? position = some node → node.name?.isSome →
    ∃ role, shape.roleAt? ds position = some role
  /-- Nodes have the same name if they have the same role, and only then. -/
  roles : ∀ position position' node node', g.root.at? position = some node →
    g.root.at? position' = some node' → node.name?.isSome → node'.name?.isSome →
    (node.name? = node'.name? ↔ shape.roleAt? ds position = shape.roleAt? ds position')
  /-- Objects and unions of the same name are equal. -/
  equal : ∀ position position' node node', g.root.at? position = some node →
    g.root.at? position' = some node' → node.defines = true → node'.defines = true →
    node.name? = node'.name? → node = node'
  /-- A reference resolves to an object or a union of its name in the schema. -/
  resolves : ∀ position name, g.root.at? position = some (.ref name) →
    ∃ node, g.resolve? name = some node ∧ node.Within g.root ∧ node.defines = true ∧
      node.name? = some name

theorem SchemaGraph.Unambiguous.anchored {ds : Declarations} {g : SchemaGraph} {shape : Shape}
    (h : g.Unambiguous ds shape) : g.Anchored :=
  fun name ⟨position, hposition⟩ => h.resolves position name hposition

namespace SchemaGraph.Finished

open StructuredOutput.Derivation

variable {ds : Declarations} {g : SchemaGraph} {d : Derivation} {shape : Shape}

theorem placed_at (hd : Consistent ds d) {s node : Schema} {source : Source}
    (h : d.Placed s source) {position : List Nat} (hnode : s.at? position = some node) :
    node.IsScalar ∨ ∃ inner, source.at? ds position = some inner ∧ d.Placed node inner := by
  induction position generalizing s source with
  | nil =>
    cases hnode
    exact .inr ⟨source, rfl, h⟩
  | cons i position ih =>
    rw [Schema.at?] at hnode
    obtain ⟨part, hpart, hrest⟩ := Option.bind_eq_some_iff.mp hnode
    rcases h.part hd hpart with hplain | ⟨inner, hinner, hplaced⟩
    · left
      exact hplain.eq_of_at? hrest ▸ hplain
    · rw [Source.at?, hinner, Option.bind_some]
      exact ih hplaced hrest

/-- What has a name in a schema is the definition of a role of that name or a reference to it. -/
theorem exists_role (h : g.Finished ds d shape) {position : List Nat} {node : Schema}
    (hnode : g.root.at? position = some node) {name : String} (hname : node.name? = some name) :
    ∃ role, shape.roleAt? ds position = some role ∧ Entries.get? d.names role = some name ∧
      (node.defines = true ∧ d.Defined role node ∨
        node = .ref name ∧ ∃ s, Entries.get? d.built role = some s) := by
  rcases placed_at h.consistent h.root hnode with hplain | ⟨source, hsource, hplaced⟩
  · cases hplain.2.symm.trans hname
  have hrole {role : Role} (horigin : source.role? = some role) :
      shape.roleAt? ds position = some role := by
    rw [Shape.roleAt?, hsource, Option.bind_some, horigin]
  cases hplaced with
  | scalar plain => cases plain.2.symm.trans hname
  | array => cases hname
  | ref origin named begun =>
    cases hname
    refine ⟨_, hrole origin, named, .inr ⟨rfl, ?_⟩⟩
    -- Nothing is being built any more.
    rcases begun with hbuilding | hbuilt
    · rw [h.idle] at hbuilding
      cases hbuilding
    · exact hbuilt
  | node origin defined =>
    have hlayer := h.consistent.layer defined
    obtain ⟨_, hnamed, hnode⟩ := hlayer.named
    cases hname.symm.trans hnode
    exact ⟨_, hrole origin, hnamed, .inl ⟨hlayer.defines, defined⟩⟩

/-- The names in the schema that a derivation leaves are unambiguous. -/
theorem unambiguous (h : g.Finished ds d shape) : g.Unambiguous ds shape where
  origin := by
    intro position node hnode hsome
    obtain ⟨name, hname⟩ := Option.isSome_iff_exists.mp hsome
    obtain ⟨role, hrole, -⟩ := h.exists_role hnode hname
    exact ⟨role, hrole⟩
  roles := by
    intro position position' node node' hnode hnode' hsome hsome'
    obtain ⟨name, hname⟩ := Option.isSome_iff_exists.mp hsome
    obtain ⟨name', hname'⟩ := Option.isSome_iff_exists.mp hsome'
    obtain ⟨role, hrole, hnamed, -⟩ := h.exists_role hnode hname
    obtain ⟨role', hrole', hnamed', -⟩ := h.exists_role hnode' hname'
    rw [hname, hname', hrole, hrole', Option.some.injEq, Option.some.injEq]
    constructor
    · rintro rfl
      exact role_unique h.consistent.names hnamed hnamed'
    · rintro rfl
      exact Option.some.inj (hnamed.symm.trans hnamed')
  equal := by
    intro position position' node node' hnode hnode' hdefines hdefines' hsame
    have hdefined {p : List Nat} {s : Schema} (hs : g.root.at? p = some s)
        (hdefines : s.defines = true) : ∃ role name, s.name? = some name ∧
          Entries.get? d.names role = some name ∧ d.Defined role s := by
      obtain ⟨name, hname⟩ := Schema.exists_name_of_defines hdefines
      obtain ⟨role, -, hnamed, ⟨-, hdefined⟩ | ⟨rfl, -⟩⟩ := h.exists_role hs hname
      · exact ⟨role, name, hname, hnamed, hdefined⟩
      · cases hdefines
    obtain ⟨role, name, hname, hnamed, hrole⟩ := hdefined hnode hdefines
    obtain ⟨role', name', hname', hnamed', hrole'⟩ := hdefined hnode' hdefines'
    obtain rfl : name = name' := Option.some.inj (hname.symm.trans (hsame.trans hname'))
    obtain rfl := role_unique h.consistent.names hnamed hnamed'
    exact hrole.unique h.consistent hrole'
  resolves := by
    intro position name hnode
    obtain ⟨role, -, hnamed, ⟨hdefines, -⟩ | ⟨-, s, hs⟩⟩ := h.exists_role hnode rfl
    · cases hdefines
    have hlayer := h.consistent.built role s hs
    obtain ⟨_, hnamed', hname⟩ := hlayer.named
    cases hnamed.symm.trans hnamed'
    refine ⟨s, ?_, h.within role s hs, hlayer.defines, hname⟩
    rw [resolve?, h.table]
    exact h.consistent.table role name s hnamed hs

end SchemaGraph.Finished

/-! ### Collecting the named schemas -/

/-- The named schemas of a schema whose names are unambiguous can be collected. -/
theorem SchemaGraph.Unambiguous.exists_collected {ds : Declarations} {g : SchemaGraph}
    {shape : Shape} (hg : g.Unambiguous ds shape) :
    ∃ named, NamedSchemas.collect g = .ok named := by
  cases hcollect : NamedSchemas.collect g with
  | ok named => exact ⟨named, rfl⟩
  | error fault =>
    obtain ⟨name, ⟨hs, ht, hsDefines, htDefines, hsName, htName, hdiffer⟩, -⟩ :=
      NamedSchemas.clashes_of_collect hg.anchored hcollect
    obtain ⟨position, hposition⟩ := hg.anchored.reaches_iff_within.mp hs
    obtain ⟨position', hposition'⟩ := hg.anchored.reaches_iff_within.mp ht
    obtain rfl := hg.equal _ _ _ _ hposition hposition' hsDefines htDefines
      (hsName.trans htName.symm)
    rw [Schema.same_refl] at hdiffer
    cases hdiffer

/-! ### Schemas of types -/

/-- What the cache holds after any calls, the first of which finds it empty. -/
inductive SchemaCache.Reached (ds : Declarations) : SchemaCache → Prop
  | empty : Reached ds []
  | call {cache : SchemaCache} (before : Reached ds cache) (t : TypeExpr) :
      Reached ds (ds.schemaFor cache t).2.1

variable {ds : Declarations} {cache : SchemaCache} {t : TypeExpr} {g : SchemaGraph}

/-- A call adds nothing to the cache but the schema that has been derived for its type. -/
theorem mem_cache_of_schemaFor {e : TypeExpr × SchemaGraph}
    (he : e ∈ (ds.schemaFor cache t).2.1) :
    e ∈ cache ∨ (ds.deriveSchema e.1).1 = .ok e.2 := by
  unfold Declarations.schemaFor at he
  split at he
  · exact .inl he
  split at he
  · exact .inl he
  split at he
  · exact .inl he
  next graph notices hderive =>
  rcases List.mem_append.mp he with he | he
  · exact .inl he
  · obtain rfl := List.mem_singleton.mp he
    exact .inr (congrArg Prod.fst hderive)

/-- Every schema in the cache has been derived for its type. -/
theorem SchemaCache.Reached.derived (h : Reached ds cache) :
    ∀ e ∈ cache, (ds.deriveSchema e.1).1 = .ok e.2 := by
  induction h with
  | empty => exact fun e he => absurd he List.not_mem_nil
  | call before t ih =>
    intro e he
    rcases mem_cache_of_schemaFor he with he | he
    · exact ih e he
    · exact he

/-- The schema of a type has been derived, for that type or for an equal one. -/
theorem exists_derived_of_schemaFor (hcache : cache.Reached ds)
    (h : (ds.schemaFor cache t).1 = .ok g) :
    ∃ written, (written = t ∨ written.same t = true) ∧ (ds.deriveSchema written).1 = .ok g := by
  unfold Declarations.schemaFor at h
  split at h
  · cases h
  split at h
  · next written known hfind =>
    cases h
    have hsame := List.find?_some hfind
    exact ⟨written, .inr hsame, hcache.derived _ (List.mem_of_find?_eq_some hfind)⟩
  split at h
  · cases h
  next graph notices hderive =>
  cases h
  exact ⟨t, .inl rfl, congrArg Prod.fst hderive⟩

/-- Whatever types have been asked for before, the names in the schema of a type are unambiguous:
objects and unions that share one come from one declaration in one role and are equal, references
resolve to nodes of the schema, and so no backend refuses the schema because of a name. -/
theorem names_unambiguous (hcache : cache.Reached ds) (h : (ds.schemaFor cache t).1 = .ok g) :
    ∃ written shape, (written = t ∨ written.same t = true) ∧ ds.shapeOf written = .ok shape ∧
      g.Unambiguous ds shape ∧ (∃ named, NamedSchemas.collect g = .ok named) ∧
      ∀ backend settings name, g.project backend settings ≠ .error (.sharedName name) := by
  obtain ⟨written, hwritten, hderive⟩ := exists_derived_of_schemaFor hcache h
  obtain ⟨shape, d, hshape, hfinished⟩ := Declarations.finished_of_deriveSchema hderive
  have hunambiguous : g.Unambiguous ds shape := hfinished.unambiguous
  obtain ⟨named, hnamed⟩ := hunambiguous.exists_collected
  refine ⟨written, shape, hwritten, hshape, hunambiguous, ⟨named, hnamed⟩, ?_⟩
  intro backend settings name hproject
  exact absurd (g.isClash_project hnamed hproject) Bool.noConfusion

open Forest in
theorem names_unambiguous_forest :
    SchemaCache.Reached forest (forest.schemaFor [] (.named "Leaf")).2.1 ∧
      (forest.schemaFor (forest.schemaFor [] (.named "Leaf")).2.1 (.named "Fork")).1 = .ok graph ∧
      ∃ written shape, (written = .named "Fork" ∨ written.same (.named "Fork") = true) ∧
        forest.shapeOf written = .ok shape ∧ graph.Unambiguous forest shape ∧
        (∃ named, NamedSchemas.collect graph = .ok named) ∧
        ∀ backend settings name, graph.project backend settings ≠ .error (.sharedName name) := by
  have hcache : SchemaCache.Reached forest (forest.schemaFor [] (.named "Leaf")).2.1 :=
    .call .empty _
  have hgraph : (forest.schemaFor (forest.schemaFor [] (.named "Leaf")).2.1 (.named "Fork")).1 =
      .ok graph := by cbv
  exact ⟨hcache, hgraph, names_unambiguous hcache hgraph⟩

/-- A record has a name of its own as a case of a union, and what refers to the union has its
role. -/
example :
    Forest.graph.root.name? = some "Fork" ∧
      (Forest.graph.root.at? [0, 1]).bind Schema.name? = some "Fork2" ∧
      Forest.fork.roleAt? forest [0, 1] =
        some (.case "LeafOrFork" ["Leaf", "Fork"] "Fork") ∧
      Forest.fork.roleAt? forest [0, 1, 1] = Forest.fork.roleAt? forest [1] := by
  refine ⟨?_, ?_, ?_, ?_⟩ <;> cbv

end StructuredOutput

import StructuredOutput.Proofs.Schema.Reachable

/-!
The order in which properties and alternatives are listed. Schemas that are equal are so in every
order, as long as all that have one name are listed in the same order, and what a schema reaches
does not depend on it.
-/

namespace StructuredOutput

/-- An order for the properties and the alternatives of the schemas of each name. -/
structure Arrangement where
  permute : {α : Type} → (name : String) → List α → List α
  natural {α β : Type} (f : α → β) (name : String) (xs : List α) :
    permute name (xs.map f) = (permute name xs).map f
  perm {α : Type} (name : String) (xs : List α) : (permute name xs).Perm xs

namespace Arrangement

variable (a : Arrangement)

/-- The last one comes first. -/
def reversed : Arrangement where
  permute _ xs := xs.reverse
  natural _ _ _ := List.map_reverse.symm
  perm _ xs := xs.reverse_perm

/-- What holds of the items of two lists in pairs does so in every order. -/
theorem forall₂_permute {α β : Type} {R : α → β → Prop} {xs : List α} {ys : List β}
    (name : String) :
    List.Forall₂ R (a.permute name xs) (a.permute name ys) ↔ List.Forall₂ R xs ys := by
  have hlength {γ : Type} (zs : List γ) : (a.permute name zs).length = zs.length :=
    (a.perm name zs).length_eq
  by_cases hlengths : xs.length = ys.length
  · obtain ⟨zs, rfl, rfl⟩ : ∃ zs : List (α × β), xs = zs.map Prod.fst ∧ ys = zs.map Prod.snd :=
      ⟨xs.zip ys, (List.map_fst_zip hlengths.le).symm, (List.map_snd_zip hlengths.ge).symm⟩
    rw [a.natural, a.natural]
    simp only [List.forall₂_map_left_iff, List.forall₂_map_right_iff, List.forall₂_same]
    exact forall_congr' fun z => imp_congr_left (a.perm name zs).mem_iff
  · refine iff_of_false (fun h => hlengths ?_) fun h => hlengths h.length_eq
    rw [← hlength xs, ← hlength ys, h.length_eq]

end Arrangement

namespace Schema

variable (a : Arrangement) {s t : Schema}

mutual

/-- A schema in another order. -/
def arrange (a : Arrangement) : Schema → Schema
  | array item counts => array (item.arrange a) counts
  | object name description properties =>
    object name description (a.permute name (arrangeProperties a properties))
  | union name description alternatives =>
    union name description (a.permute name (arrangeAll a alternatives))
  | s => s

def arrangeProperties (a : Arrangement) : List (Property Schema) → List (Property Schema)
  | [] => []
  | ⟨key, s, description, optional⟩ :: ps =>
    ⟨key, s.arrange a, description, optional⟩ :: arrangeProperties a ps

def arrangeAll (a : Arrangement) : List Schema → List Schema
  | [] => []
  | s :: ss => s.arrange a :: arrangeAll a ss

end

theorem arrangeProperties_eq (ps : List (Property Schema)) :
    arrangeProperties a ps = ps.map fun p => { p with schema := p.schema.arrange a } := by
  induction ps with
  | nil => rfl
  | cons p ps ih => rw [arrangeProperties, ih, List.map_cons]

theorem arrangeAll_eq (ss : List Schema) : arrangeAll a ss = ss.map (arrange a) := by
  induction ss with
  | nil => rfl
  | cons s ss ih => rw [arrangeAll, ih, List.map_cons]

@[simp] theorem name?_arrange (s : Schema) : (s.arrange a).name? = s.name? := by
  cases s <;> simp [arrange, name?]

@[simp] theorem defines_arrange (s : Schema) : (s.arrange a).defines = s.defines := by
  cases s <;> simp [arrange, defines]

@[simp] theorem arrange_eq_ref_iff {name : String} : s.arrange a = ref name ↔ s = ref name := by
  cases s <;> simp [arrange]

theorem parts_arrange (s : Schema) : (s.arrange a).parts.Perm (s.parts.map (arrange a)) := by
  cases s with
  | array item counts => simp [arrange, parts]
  | object name description properties =>
    rw [arrange, arrangeProperties_eq]
    simpa [parts, children, Function.comp_def] using
      (a.perm name (properties.map fun p => { p with schema := p.schema.arrange a })).map
        Property.schema
  | union name description alternatives =>
    rw [arrange, arrangeAll_eq]
    exact a.perm name (alternatives.map (arrange a))
  | _ => simp [arrange, parts, children]

theorem sameProperty_arrange {p q : Property Schema}
    (h : (p.schema.arrange a).same (q.schema.arrange a) = true ↔ p.schema.same q.schema = true) :
    SameProperty { p with schema := p.schema.arrange a } { q with schema := q.schema.arrange a } ↔
      SameProperty p q :=
  ⟨fun ⟨key, schema, description, optional⟩ => ⟨key, h.mp schema, description, optional⟩,
    fun ⟨key, schema, description, optional⟩ => ⟨key, h.mpr schema, description, optional⟩⟩

/-- Schemas are equal in every order if they are in one. -/
theorem same_arrange : (s.arrange a).same (t.arrange a) = true ↔ s.same t = true := by
  induction s using parts_induction generalizing t with
  | h s ih =>
    cases s with
    | array item counts =>
      cases t with
      | array item' counts' => simp [arrange, same, ih item (List.mem_singleton_self item)]
      | _ => simp [arrange, same]
    | object name description properties =>
      cases t with
      | object name' description' properties' =>
        simp only [arrange, same, Bool.and_eq_true, beq_iff_eq, sameProperties_iff,
          arrangeProperties_eq]
        refine and_congr_right fun hnames => ?_
        obtain rfl : name = name' := hnames.1
        rw [a.forall₂_permute, List.forall₂_map_left_iff, List.forall₂_map_right_iff]
        exact Outcome.forall₂_iff_of_mem fun p hp q =>
          sameProperty_arrange a (ih p.schema (mem_parts_of_mem_properties hp))
      | _ => simp [arrange, same]
    | union name description alternatives =>
      cases t with
      | union name' description' alternatives' =>
        simp only [arrange, same, Bool.and_eq_true, beq_iff_eq, sameAll_iff, arrangeAll_eq]
        refine and_congr_right fun hnames => ?_
        obtain rfl : name = name' := hnames.1
        rw [a.forall₂_permute, List.forall₂_map_left_iff, List.forall₂_map_right_iff]
        exact Outcome.forall₂_iff_of_mem fun s hs t => ih s hs
      | _ => simp [arrange, same]
    | _ => cases t <;> simp [arrange, same]

end Schema

namespace SchemaGraph

variable {a : Arrangement} {g : SchemaGraph} {s t : Schema} {name : String}

/-- A schema and its table in another order. -/
def arranged (a : Arrangement) (g : SchemaGraph) : SchemaGraph :=
  ⟨g.root.arrange a, g.table.map fun e => (e.1, e.2.arrange a)⟩

theorem resolve?_arranged (a : Arrangement) (g : SchemaGraph) (name : String) :
    (g.arranged a).resolve? name = (g.resolve? name).map (Schema.arrange a) :=
  Entries.get?_map (Schema.arrange a) g.table name

theorem Reaches.arrange (h : g.Reaches s) : (g.arranged a).Reaches (s.arrange a) := by
  induction h with
  | root => exact .root
  | part _ inside ih =>
    exact ih.part ((Schema.parts_arrange a _).mem_iff.mpr (List.mem_map_of_mem inside))
  | resolved _ found ih =>
    refine .resolved ih ?_
    rw [resolve?_arranged, found, Option.map_some]

/-- The same nodes are reached in every order. -/
theorem reaches_arranged_iff :
    (g.arranged a).Reaches t ↔ ∃ s, g.Reaches s ∧ s.arrange a = t := by
  refine ⟨fun h => ?_, fun ⟨s, hs, heq⟩ => heq ▸ hs.arrange⟩
  induction h with
  | root => exact ⟨g.root, .root, rfl⟩
  | part _ inside ih =>
    obtain ⟨s, hs, rfl⟩ := ih
    obtain ⟨part, hpart, rfl⟩ :=
      List.mem_map.mp ((Schema.parts_arrange a s).mem_iff.mp inside)
    exact ⟨part, hs.part hpart, rfl⟩
  | resolved _ found ih =>
    obtain ⟨s, hs, heq⟩ := ih
    obtain rfl := (Schema.arrange_eq_ref_iff a).mp heq
    rw [resolve?_arranged, Option.map_eq_some_iff] at found
    obtain ⟨node, hnode, rfl⟩ := found
    exact ⟨node, hs.resolved hnode, rfl⟩

theorem reaches_ref_arranged_iff : (g.arranged a).Reaches (.ref name) ↔ g.Reaches (.ref name) := by
  simp [reaches_arranged_iff]

theorem Resolving.arranged (hg : g.Resolving) (a : Arrangement) : (g.arranged a).Resolving := by
  intro name href
  obtain ⟨node, hnode, hdefines, hname⟩ := hg name (reaches_ref_arranged_iff.mp href)
  refine ⟨node.arrange a, ?_, ?_, ?_⟩
  · rw [resolve?_arranged, hnode, Option.map_some]
  · rwa [Schema.defines_arrange]
  · rwa [Schema.name?_arrange]

theorem Agreeing.arranged (hg : g.Agreeing) (a : Arrangement) : (g.arranged a).Agreeing := by
  intro name node s href hnode hs hdefines hname
  rw [resolve?_arranged, Option.map_eq_some_iff] at hnode
  obtain ⟨node, hnode, rfl⟩ := hnode
  obtain ⟨s, hs', rfl⟩ := reaches_arranged_iff.mp hs
  rw [Schema.defines_arrange] at hdefines
  rw [Schema.name?_arrange] at hname
  rw [Schema.same_arrange]
  exact hg name node s (reaches_ref_arranged_iff.mp href) hnode hs' hdefines hname

/-- There are the same clashes in every order. -/
theorem clashes_arranged_iff : (g.arranged a).Clashes name ↔ g.Clashes name := by
  constructor
  · rintro ⟨hs, ht, hsDefines, htDefines, hsName, htName, hdiffer⟩
    obtain ⟨s, hs', rfl⟩ := reaches_arranged_iff.mp hs
    obtain ⟨t, ht', rfl⟩ := reaches_arranged_iff.mp ht
    rw [Schema.defines_arrange] at hsDefines htDefines
    rw [Schema.name?_arrange] at hsName htName
    rw [Bool.eq_false_iff, Ne, Schema.same_arrange, ← Ne, ← Bool.eq_false_iff] at hdiffer
    exact .intro hs' ht' hsDefines htDefines hsName htName hdiffer
  · rintro ⟨hs, ht, hsDefines, htDefines, hsName, htName, hdiffer⟩
    refine .intro hs.arrange ht.arrange ?_ ?_ ?_ ?_ ?_
    · rwa [Schema.defines_arrange]
    · rwa [Schema.defines_arrange]
    · rwa [Schema.name?_arrange]
    · rwa [Schema.name?_arrange]
    · rwa [Bool.eq_false_iff, Ne, Schema.same_arrange, ← Ne, ← Bool.eq_false_iff]

end SchemaGraph

end StructuredOutput

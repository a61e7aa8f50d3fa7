import StructuredOutput.Proofs.Entries
import StructuredOutput.Proofs.Schema.Same

/-!
What a schema reaches: its root, the parts of what it reaches, and the nodes that references which
it reaches stand for. Where references resolve to what defines their names in the schema, nothing
is reached but what is in the root.
-/

namespace StructuredOutput

/-- A schema in which nothing is a reference. -/
def Schema.Unreferring (s : Schema) : Prop := ∀ name, ¬ (ref name).Within s

namespace SchemaGraph

/-- References in a schema resolve to what defines their name in the schema. -/
def Anchored (g : SchemaGraph) : Prop :=
  ∀ name, (Schema.ref name).Within g.root → ∃ node, g.resolve? name = some node ∧
    node.Within g.root ∧ node.defines = true ∧ node.name? = some name

/-- Whether a schema reaches a node, through parts and references. -/
inductive Reaches (g : SchemaGraph) : Schema → Prop
  | root : Reaches g g.root
  | part {s part : Schema} (reached : Reaches g s) (inside : part ∈ s.parts) : Reaches g part
  | resolved {name : String} {node : Schema} (reached : Reaches g (.ref name))
      (found : g.resolve? name = some node) : Reaches g node

/-- Two objects or unions that differ and that a schema reaches have the same name. -/
inductive Clashes (g : SchemaGraph) (name : String) : Prop
  | intro {s t : Schema} (first : g.Reaches s) (second : g.Reaches t)
      (firstDefines : s.defines = true) (secondDefines : t.defines = true)
      (firstName : s.name? = some name) (secondName : t.name? = some name)
      (differ : s.same t = false)

/-- References that a schema reaches resolve to what defines their names. -/
def Resolving (g : SchemaGraph) : Prop :=
  ∀ name, g.Reaches (.ref name) → ∃ node, g.resolve? name = some node ∧
    node.defines = true ∧ node.name? = some name

/-- References that a schema reaches stand for what equals all nodes with their names. -/
def Agreeing (g : SchemaGraph) : Prop :=
  ∀ name node s, g.Reaches (.ref name) → g.resolve? name = some node → g.Reaches s →
    s.defines = true → s.name? = some name → node.same s = true

variable {g : SchemaGraph} {s t : Schema}

theorem Reaches.within (h : g.Reaches t) (hs : s.Within t) : g.Reaches s := by
  obtain ⟨position, hposition⟩ := hs
  induction position generalizing t with
  | nil =>
    cases hposition
    exact h
  | cons i position ih =>
    rw [Schema.at?] at hposition
    obtain ⟨part, hpart, hrest⟩ := Option.bind_eq_some_iff.mp hposition
    exact ih (h.part (List.mem_of_getElem? hpart)) hrest

/-- Nothing is reached outside of nodes that have their parts and what references stand for among
them. -/
theorem Reaches.mem {nodes : List Schema} (h : g.Reaches s) (hroot : g.root ∈ nodes)
    (hparts : ∀ t ∈ nodes, t.parts ⊆ nodes) (htable : ∀ e ∈ g.table, e.2 ∈ nodes) :
    s ∈ nodes := by
  induction h with
  | root => exact hroot
  | part _ inside ih => exact hparts _ ih inside
  | resolved _ found => exact htable _ (Entries.mem_of_get? found)

/-- Where references stand for nodes of the schema, what is reached is in the root. -/
theorem Anchored.reaches_iff_within (hg : g.Anchored) : g.Reaches s ↔ s.Within g.root := by
  refine ⟨fun h => ?_, Reaches.root.within⟩
  induction h with
  | root => exact .refl g.root
  | @part t part _ inside ih => exact ih.part inside
  | @resolved name node _ found ih =>
    obtain ⟨node', hnode', hwithin, -⟩ := hg name ih
    obtain rfl := Option.some.inj (found.symm.trans hnode')
    exact hwithin

theorem Anchored.resolving (hg : g.Anchored) : g.Resolving := fun name href =>
  have ⟨node, hnode, _, hnamed⟩ := hg name (hg.reaches_iff_within.mp href)
  ⟨node, hnode, hnamed⟩

end SchemaGraph

theorem Schema.Unreferring.anchored {g : SchemaGraph} (h : g.root.Unreferring) : g.Anchored :=
  fun name href => absurd href (h name)

end StructuredOutput

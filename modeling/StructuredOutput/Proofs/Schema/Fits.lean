import StructuredOutput.Proofs.Shape.Reach
import StructuredOutput.Schema.Derive

/-!
When a schema fits a shape: node by node, where a named node stands for a declaration in one of
its roles and a reference stands for the node of its name. A schema that is refined still fits,
unless the refinement puts other options in the place of those of a literal.
-/

namespace StructuredOutput

/-! ### Refinements of literals -/

/-- Whether a rule says which texts there are. -/
def TextRule.isChoice : TextRule → Bool
  | .constant _ | .oneOf _ => true
  | .pattern _ | .length _ => false

namespace Shape

/-- The refinements of a shape. -/
def constraints : Shape → List Constraint
  | primitive _ constraints | literal _ constraints | array _ _ constraints => constraints
  | optional _ | record _ _ _ | enum _ _ _ | union _ _ _ => []

/-- Whether a refinement of a shape leaves the options of its literals alone. -/
def Spares : Shape → Constraint → Prop
  | literal _ _, .text rule => rule.isChoice = false
  | array item _ _, .element inner => item.Spares inner
  | _, _ => True

end Shape

/-- No refinement that a shape reaches sets the options of a literal. -/
def Unguided (ds : Declarations) (shape : Shape) : Prop :=
  ∀ s, Reaches ds shape s → ∀ c ∈ s.constraints, s.Spares c

theorem Unguided.of_reaches {ds : Declarations} {s t : Shape} (h : Unguided ds s)
    (hst : Reaches ds s t) : Unguided ds t :=
  fun u htu => h u (hst.trans htu)

theorem Unguided.field {ds : Declarations} {whole : Shape} {id : String}
    {fields : List FieldShape} {f : FieldShape} (h : Unguided ds whole) (hid : id ∈ whole.records)
    (hfields : ds.fieldShapes id = .ok fields) (hf : f ∈ fields) :
    Unguided ds f.shape ∧ ∀ c ∈ f.shape.constraints, f.shape.Spares c := by
  have hreach : Reaches ds whole f.shape := .field hid hfields hf (.shape_of_field f)
  exact ⟨h.of_reaches hreach, h f.shape hreach⟩

theorem Unguided.of_case {ds : Declarations} {name : String} {description : Option String}
    {cases : List Case} {one : Case} (h : Unguided ds (.union name description cases))
    (hone : one ∈ cases) : Unguided ds (.union "" none [one]) := by
  intro t ht c hc
  rcases ht.of_case hone with rfl | ht
  · cases hc
  · exact h t ht c hc

/-! ### Roles -/

/-- The names that the roles have. -/
abbrev RoleNames := List (Role × String)

/-- One table of names keeps all names of another. -/
def RoleNames.Extends (wide narrow : RoleNames) : Prop :=
  ∀ role name, Entries.get? narrow role = some name → Entries.get? wide role = some name

/-- Whether a shape is that of a declaration in a role. A case has the shape of a union of its
own. -/
def Role.Describes (ds : Declarations) : Role → Shape → Prop
  | .enum id, .enum id' _ _ => id' = id
  | .record id, .record id' _ _ => id' = id
  | .union _ records, .union _ _ cases => cases = records.map fun id => ⟨id, ds.caseTag id⟩
  | .case _ _ id, .union _ _ cases => cases = [⟨id, ds.caseTag id⟩]
  | _, _ => False

/-- The property of the discriminator. -/
def tagProperty (tag : String) : Property Schema :=
  ⟨discriminatorKey, .string [.constant tag], none, false⟩

/-- A schema describes the values of a shape, given the names of the roles. -/
inductive Fits (ds : Declarations) (names : RoleNames) : Schema → Shape → Prop
  | text (rules : List TextRule) (constraints : List Constraint) :
      Fits ds names (.string rules) (.primitive .text constraints)
  | integer (ranges : List Range) (constraints : List Constraint) :
      Fits ds names (.integer ranges) (.primitive .integer constraints)
  | real (ranges : List Range) (constraints : List Constraint) :
      Fits ds names (.number ranges) (.primitive .real constraints)
  | bool (constraints : List Constraint) :
      Fits ds names .boolean (.primitive .bool constraints)
  | literal {rules : List TextRule} (spared : ∀ rule ∈ rules, rule.isChoice = false)
      (values : List String) (constraints : List Constraint) :
      Fits ds names (.string (Derivation.choice values :: rules)) (.literal values constraints)
  | array {item : Schema} {shape : Shape} (items : Fits ds names item shape) (counts : List Span)
      (container : Container) (constraints : List Constraint) :
      Fits ds names (.array item counts) (.array shape container constraints)
  | ref {role : Role} {name : String} {shape : Shape}
      (named : Entries.get? names role = some name) (described : role.Describes ds shape) :
      Fits ds names (.ref name) shape
  | enum {id name : String} (named : Entries.get? names (.enum id) = some name)
      (description : Option String) (shapeName : String) (shapeDescription : Option String) :
      Fits ds names
        (.union name description ((ds.enumOf id).wires.map fun w => .string [.constant w.1]))
        (.enum id shapeName shapeDescription)
  | record {id name : String} {fields : List FieldShape} {properties : List (Property Schema)}
      (named : Entries.get? names (.record id) = some name)
      (resolved : ds.fieldShapes id = .ok fields)
      (alike : List.Forall₂ (fun p f => p.key = f.key ∧ p.optional = f.optional) properties fields)
      (each : ∀ p f, (p, f) ∈ properties.zip fields → Fits ds names p.schema f.shape)
      (description : Option String) (shapeName : String) (shapeDescription : Option String) :
      Fits ds names (.object name description properties)
        (.record id shapeName shapeDescription)
  | case {unionName id name : String} {records : List String} {fields : List FieldShape}
      {properties : List (Property Schema)}
      (named : Entries.get? names (.case unionName records id) = some name)
      (resolved : ds.fieldShapes id = .ok fields)
      (untagged : discriminatorKey ∉ properties.map (·.key))
      (alike : List.Forall₂ (fun p f => p.key = f.key ∧ p.optional = f.optional) properties fields)
      (each : ∀ p f, (p, f) ∈ properties.zip fields → Fits ds names p.schema f.shape)
      (description : Option String) (shapeName : String) (shapeDescription : Option String) :
      Fits ds names (.object name description (tagProperty (ds.caseTag id) :: properties))
        (.union shapeName shapeDescription [⟨id, ds.caseTag id⟩])
  | union {unionName name : String} {records : List String} {alternatives : List Schema}
      (named : Entries.get? names (.union unionName records) = some name)
      (distinct : (records.map ds.caseTag).Nodup)
      (aligned : alternatives.length = records.length)
      (each : ∀ s id, (s, id) ∈ alternatives.zip records →
        Fits ds names s (.union "" none [⟨id, ds.caseTag id⟩]))
      (description : Option String) (shapeName : String) (shapeDescription : Option String) :
      Fits ds names (.union name description alternatives)
        (.union shapeName shapeDescription (records.map fun id => ⟨id, ds.caseTag id⟩))

/-- What the properties of an object say of the fields that they come from. -/
structure FitsFields (ds : Declarations) (names : RoleNames) (properties : List (Property Schema))
    (fields : List FieldShape) : Prop where
  alike : List.Forall₂ (fun p f => p.key = f.key ∧ p.optional = f.optional) properties fields
  each : ∀ p f, (p, f) ∈ properties.zip fields → Fits ds names p.schema f.shape

theorem keys_eq_of_alike {properties : List (Property Schema)} {fields : List FieldShape}
    (h : List.Forall₂ (fun p f => p.key = f.key ∧ p.optional = f.optional) properties fields) :
    properties.map (·.key) = fields.map (·.key) := by
  induction h with
  | nil => rfl
  | cons hp _ ih => rw [List.map_cons, List.map_cons, hp.1, ih]

theorem FitsFields.forall₂ {ds : Declarations} {names : RoleNames}
    {properties : List (Property Schema)} {fields : List FieldShape}
    (h : FitsFields ds names properties fields) :
    List.Forall₂ (fun p f => p.key = f.key ∧ p.optional = f.optional ∧
      Fits ds names p.schema f.shape) properties fields := by
  obtain ⟨haligned, halike⟩ := List.forall₂_iff_zip.mp h.alike
  refine List.forall₂_iff_zip.mpr ⟨haligned, fun hmem => ?_⟩
  exact ⟨(halike hmem).1, (halike hmem).2, h.each _ _ hmem⟩

theorem FitsFields.keys_eq {ds : Declarations} {names : RoleNames}
    {properties : List (Property Schema)} {fields : List FieldShape}
    (h : FitsFields ds names properties fields) :
    properties.map (·.key) = fields.map (·.key) :=
  keys_eq_of_alike h.alike

namespace Fits

variable {ds : Declarations} {names : RoleNames} {s : Schema} {shape : Shape}

theorem extend {wide : RoleNames} (h : Fits ds names s shape) (hwide : wide.Extends names) :
    Fits ds wide s shape := by
  induction h with
  | text rules constraints => exact .text rules constraints
  | integer ranges constraints => exact .integer ranges constraints
  | real ranges constraints => exact .real ranges constraints
  | bool constraints => exact .bool constraints
  | literal spared values constraints => exact .literal spared values constraints
  | array _ counts container constraints ih => exact .array ih counts container constraints
  | ref named described => exact .ref (hwide _ _ named) described
  | enum named description _ _ => exact .enum (hwide _ _ named) description _ _
  | record named resolved alike _ description _ _ ih =>
    exact .record (hwide _ _ named) resolved alike ih description _ _
  | case named resolved untagged alike _ description _ _ ih =>
    exact .case (hwide _ _ named) resolved untagged alike ih description _ _
  | union named distinct aligned _ description _ _ ih =>
    exact .union (hwide _ _ named) distinct aligned ih description _ _

/-- The name of a schema is that of a role which describes what the schema fits. -/
theorem exists_role (h : Fits ds names s shape) {name : String} (hname : s.name? = some name) :
    ∃ role, Entries.get? names role = some name ∧ role.Describes ds shape := by
  cases h with
  | ref named described =>
    cases hname
    exact ⟨_, named, described⟩
  | enum named | record named | case named | union named =>
    cases hname
    exact ⟨_, named, rfl⟩
  | _ => cases hname

theorem refine (h : Fits ds names s shape) {c : Constraint} (hspares : shape.Spares c)
    {s' : Schema} (hs' : s.refine c = .ok s') : Fits ds names s' shape := by
  induction h generalizing c s' with
  | text rules constraints =>
    cases c <;> cases hs'
    exact .text _ constraints
  | integer ranges constraints =>
    cases c with
    | range r =>
      obtain ⟨whole, _, rfl⟩ := Outcome.map_eq_ok.mp hs'
      exact .integer _ constraints
    | _ => cases hs'
  | real ranges constraints =>
    cases c <;> cases hs'
    exact .real _ constraints
  | bool constraints => cases c <;> cases hs'
  | literal spared values constraints =>
    cases c with
    | text rule =>
      cases hs'
      refine .literal (fun r hr => ?_) values constraints
      rcases List.mem_append.mp hr with hr | hr
      · exact spared r hr
      · exact List.mem_singleton.mp hr ▸ hspares
    | _ => cases hs'
  | array items counts container constraints ih =>
    cases c with
    | count span =>
      cases hs'
      exact .array items _ container constraints
    | element inner =>
      obtain ⟨item, hitem, rfl⟩ := Outcome.map_eq_ok.mp hs'
      exact .array (ih hspares hitem) counts container constraints
    | text | range => cases hs'
  | ref | enum | record | case | union => cases c <;> cases hs'

theorem constrain (h : Fits ds names s shape) {cs : List Constraint}
    (hspares : ∀ c ∈ cs, shape.Spares c) {s' : Schema} (hs' : s.constrain cs = .ok s') :
    Fits ds names s' shape := by
  induction cs generalizing s with
  | nil =>
    cases hs'
    exact h
  | cons c cs ih =>
    rw [Schema.constrain, List.foldlM_cons] at hs'
    obtain ⟨next, hnext, hrest⟩ := Outcome.bind_eq_ok.mp hs'
    exact ih (h.refine (hspares c List.mem_cons_self) hnext)
      (fun c' hc' => hspares c' (List.mem_cons_of_mem c hc')) hrest

end Fits

end StructuredOutput

import StructuredOutput.Proofs.Schema.Fits
import StructuredOutput.Proofs.Schema.Positions

/-!
A schema with the refinements that are in force for it: those of its shape and those that enclosing
arrays have for their items, in order. A schema mirrors a shape when it says what the shape and
these refinements say, and nothing else; then it fits the shape, too. What defines a name mirrors
all shapes of one role.
-/

namespace StructuredOutput

/-! ### Refinements in force -/

namespace Constraint

/-- The refinement of the items of an array. -/
def inner? : Constraint → Option Constraint
  | element inner => some inner
  | _ => none

/-- The bounds of the number of items of an array. -/
def span? : Constraint → Option Span
  | count span => some span
  | _ => none

end Constraint

/-- The refinements in force for the items of an array: first their own, then those of the array. -/
def Shape.itemRules (item : Shape) (rules : List Constraint) : List Constraint :=
  item.constraints ++ rules.filterMap Constraint.inner?

theorem Shape.itemRules_append (item : Shape) (rules more : List Constraint) :
    item.itemRules (rules ++ more) = item.itemRules rules ++ more.filterMap Constraint.inner? := by
  rw [itemRules, itemRules, List.filterMap_append, List.append_assoc]

/-- A schema says what a shape and the refinements in force for it say, given the names of the
roles. -/
inductive Mirrors (ds : Declarations) (names : RoleNames) : Schema → Shape → List Constraint → Prop
  | text (rules : List TextRule) (constraints : List Constraint) :
      Mirrors ds names (.string rules) (.primitive .text constraints) (rules.map .text)
  | integer {ranges given : List Range}
      (whole : List.Forall₂ (fun r given => Schema.integerRange given = .ok r) ranges given)
      (constraints : List Constraint) :
      Mirrors ds names (.integer ranges) (.primitive .integer constraints) (given.map .range)
  | real (ranges : List Range) (constraints : List Constraint) :
      Mirrors ds names (.number ranges) (.primitive .real constraints) (ranges.map .range)
  | bool (constraints : List Constraint) :
      Mirrors ds names .boolean (.primitive .bool constraints) []
  | literal (rules : List TextRule) (values : List String) (constraints : List Constraint) :
      Mirrors ds names (.string (Derivation.choice values :: rules)) (.literal values constraints)
        (rules.map .text)
  | array {item : Schema} {shape : Shape} {rules : List Constraint}
      (items : Mirrors ds names item shape (shape.itemRules rules)) (container : Container)
      (constraints : List Constraint) :
      Mirrors ds names (.array item (rules.filterMap Constraint.span?))
        (.array shape container constraints) rules
  | ref {role : Role} {name : String} {shape : Shape}
      (named : Entries.get? names role = some name) (described : role.Describes ds shape) :
      Mirrors ds names (.ref name) shape []
  | enum {id name : String} (named : Entries.get? names (.enum id) = some name)
      (description : Option String) (shapeName : String) (shapeDescription : Option String) :
      Mirrors ds names
        (.union name description ((ds.enumOf id).wires.map fun w => .string [.constant w.1]))
        (.enum id shapeName shapeDescription) []
  | record {id name : String} {fields : List FieldShape} {properties : List (Property Schema)}
      (named : Entries.get? names (.record id) = some name)
      (resolved : ds.fieldShapes id = .ok fields)
      (alike : List.Forall₂ (fun p f => p.key = f.key ∧ p.optional = f.optional) properties fields)
      (each : ∀ p f, (p, f) ∈ properties.zip fields →
        Mirrors ds names p.schema f.shape f.shape.constraints)
      (description : Option String) (shapeName : String) (shapeDescription : Option String) :
      Mirrors ds names (.object name description properties)
        (.record id shapeName shapeDescription) []
  | case {unionName id name : String} {records : List String} {fields : List FieldShape}
      {properties : List (Property Schema)}
      (named : Entries.get? names (.case unionName records id) = some name)
      (resolved : ds.fieldShapes id = .ok fields)
      (untagged : discriminatorKey ∉ properties.map (·.key))
      (alike : List.Forall₂ (fun p f => p.key = f.key ∧ p.optional = f.optional) properties fields)
      (each : ∀ p f, (p, f) ∈ properties.zip fields →
        Mirrors ds names p.schema f.shape f.shape.constraints)
      (description : Option String) (shapeName : String) (shapeDescription : Option String) :
      Mirrors ds names (.object name description (tagProperty (ds.caseTag id) :: properties))
        (.union shapeName shapeDescription [⟨id, ds.caseTag id⟩]) []
  | union {unionName name : String} {records : List String} {alternatives : List Schema}
      (named : Entries.get? names (.union unionName records) = some name)
      (distinct : (records.map ds.caseTag).Nodup)
      (aligned : alternatives.length = records.length)
      (defined : ∀ s id, (s, id) ∈ alternatives.zip records → s.defines = true ∧
        ∃ name, s.name? = some name ∧
          Entries.get? names (.case unionName records id) = some name)
      (each : ∀ s id, (s, id) ∈ alternatives.zip records →
        Mirrors ds names s (.union "" none [⟨id, ds.caseTag id⟩]) [])
      (description : Option String) (shapeName : String) (shapeDescription : Option String) :
      Mirrors ds names (.union name description alternatives)
        (.union shapeName shapeDescription (records.map fun id => ⟨id, ds.caseTag id⟩)) []

/-- What the properties of an object say of the fields that they come from. -/
structure MirrorsFields (ds : Declarations) (names : RoleNames)
    (properties : List (Property Schema)) (fields : List FieldShape) : Prop where
  alike : List.Forall₂ (fun p f => p.key = f.key ∧ p.optional = f.optional) properties fields
  each : ∀ p f, (p, f) ∈ properties.zip fields →
    Mirrors ds names p.schema f.shape f.shape.constraints

namespace Mirrors

variable {ds : Declarations} {names : RoleNames} {s : Schema} {shape : Shape}
  {rules : List Constraint}

theorem extend {wide : RoleNames} (h : Mirrors ds names s shape rules)
    (hwide : wide.Extends names) : Mirrors ds wide s shape rules := by
  induction h with
  | text rules constraints => exact .text rules constraints
  | integer whole constraints => exact .integer whole constraints
  | real ranges constraints => exact .real ranges constraints
  | bool constraints => exact .bool constraints
  | literal rules values constraints => exact .literal rules values constraints
  | array _ container constraints ih => exact .array ih container constraints
  | ref named described => exact .ref (hwide _ _ named) described
  | enum named description _ _ => exact .enum (hwide _ _ named) description _ _
  | record named resolved alike _ description _ _ ih =>
    exact .record (hwide _ _ named) resolved alike ih description _ _
  | case named resolved untagged alike _ description _ _ ih =>
    exact .case (hwide _ _ named) resolved untagged alike ih description _ _
  | union named distinct aligned defined _ description _ _ ih =>
    refine .union (hwide _ _ named) distinct aligned (fun s id hmem => ?_) ih description _ _
    obtain ⟨hdefines, name, hname, hcase⟩ := defined s id hmem
    exact ⟨hdefines, name, hname, hwide _ _ hcase⟩

/-- The name of a schema is that of a role which describes what the schema mirrors. -/
theorem exists_role (h : Mirrors ds names s shape rules) {name : String}
    (hname : s.name? = some name) :
    ∃ role, Entries.get? names role = some name ∧ role.Describes ds shape := by
  cases h with
  | ref named described =>
    cases hname
    exact ⟨_, named, described⟩
  | enum named | record named | case named | union named =>
    cases hname
    exact ⟨_, named, rfl⟩
  | _ => cases hname

/-- A refinement comes into force when a schema is refined. -/
theorem refine (h : Mirrors ds names s shape rules) {c : Constraint} {s' : Schema}
    (hs' : s.refine c = .ok s') : Mirrors ds names s' shape (rules ++ [c]) := by
  induction h generalizing c s' with
  | text rules constraints =>
    cases c <;> cases hs'
    rw [← List.map_singleton, ← List.map_append]
    exact .text _ constraints
  | integer whole constraints =>
    cases c with
    | range r =>
      obtain ⟨wholeRange, hwhole, rfl⟩ := Outcome.map_eq_ok.mp hs'
      rw [← List.map_singleton, ← List.map_append]
      exact .integer (List.rel_append whole (.cons hwhole .nil)) constraints
    | _ => cases hs'
  | real ranges constraints =>
    cases c <;> cases hs'
    rw [← List.map_singleton, ← List.map_append]
    exact .real _ constraints
  | bool constraints => cases c <;> cases hs'
  | literal rules values constraints =>
    cases c <;> cases hs'
    rw [← List.map_singleton, ← List.map_append]
    exact .literal _ values constraints
  | @array item shape rules items container constraints ih =>
    cases c with
    | count span =>
      cases hs'
      have hrules : shape.itemRules (rules ++ [.count span]) = shape.itemRules rules := by
        rw [Shape.itemRules_append]
        exact List.append_nil _
      have hspans : (rules ++ [Constraint.count span]).filterMap Constraint.span? =
          rules.filterMap Constraint.span? ++ [span] := List.filterMap_append
      rw [← hspans]
      exact .array (hrules ▸ items) container constraints
    | element inner =>
      obtain ⟨item', hitem', rfl⟩ := Outcome.map_eq_ok.mp hs'
      have hrules : shape.itemRules (rules ++ [.element inner]) = shape.itemRules rules ++ [inner] :=
        Shape.itemRules_append shape rules [.element inner]
      have hspans : (rules ++ [Constraint.element inner]).filterMap Constraint.span? =
          rules.filterMap Constraint.span? := by
        rw [List.filterMap_append]
        exact List.append_nil _
      rw [← hspans]
      exact .array (hrules ▸ ih hitem') container constraints
    | text | range => cases hs'
  | ref | enum | record | case | union => cases c <;> cases hs'

theorem constrain (h : Mirrors ds names s shape rules) {cs : List Constraint} {s' : Schema}
    (hs' : s.constrain cs = .ok s') : Mirrors ds names s' shape (rules ++ cs) := by
  induction cs generalizing s rules with
  | nil =>
    cases hs'
    rwa [List.append_nil]
  | cons c cs ih =>
    rw [Schema.constrain, List.foldlM_cons] at hs'
    obtain ⟨next, hnext, hrest⟩ := Outcome.bind_eq_ok.mp hs'
    rw [List.append_cons]
    exact ih (h.refine hnext) hrest

/-- A schema that mirrors a shape fits it, if no refinement in force sets the options of a
literal. -/
theorem fits (h : Mirrors ds names s shape rules) (hguides : Unguided ds shape)
    (hrules : ∀ c ∈ rules, shape.Spares c) : Fits ds names s shape := by
  induction h with
  | text rules constraints => exact .text rules constraints
  | integer whole constraints => exact .integer _ constraints
  | real ranges constraints => exact .real ranges constraints
  | bool constraints => exact .bool constraints
  | literal rules values constraints =>
    exact .literal (fun rule hrule => hrules _ (List.mem_map_of_mem hrule)) values constraints
  | @array item shape rules items container constraints ih =>
    have hitem : Reaches ds (.array shape container constraints) shape := .item (.refl shape)
    refine .array (ih (hguides.of_reaches hitem) fun c hc => ?_) _ container constraints
    rcases List.mem_append.mp hc with hc | hc
    · exact hguides shape hitem c hc
    · obtain ⟨outer, houter, hinner⟩ := List.mem_filterMap.mp hc
      cases outer <;> cases hinner
      exact hrules _ houter
  | ref named described => exact .ref named described
  | enum named description shapeName shapeDescription =>
    exact .enum named description shapeName shapeDescription
  | record named resolved alike _ description shapeName shapeDescription ih =>
    refine .record named resolved alike (fun p f hmem => ?_) description shapeName shapeDescription
    obtain ⟨hshape, hown⟩ :=
      hguides.field (List.mem_singleton_self _) resolved (List.of_mem_zip hmem).2
    exact ih p f hmem hshape hown
  | case named resolved untagged alike _ description shapeName shapeDescription ih =>
    refine .case named resolved untagged alike (fun p f hmem => ?_) description shapeName
      shapeDescription
    obtain ⟨hshape, hown⟩ :=
      hguides.field (List.mem_singleton_self _) resolved (List.of_mem_zip hmem).2
    exact ih p f hmem hshape hown
  | @union unionName name records _ named distinct aligned defined _ description shapeName
      shapeDescription ih =>
    refine .union named distinct aligned (fun s id hmem => ?_) description shapeName
      shapeDescription
    have hone : (⟨id, ds.caseTag id⟩ : Case) ∈ records.map fun id => ⟨id, ds.caseTag id⟩ :=
      List.mem_map_of_mem (List.of_mem_zip hmem).2
    exact ih s id hmem (hguides.of_case hone) fun _ hc => absurd hc List.not_mem_nil

end Mirrors

/-! ### Definitions -/

/-- A name has one role. -/
theorem Derivation.role_unique {names : RoleNames} (h : (names.map (·.2)).Nodup) {r s : Role} {name : String}
    (hr : Entries.get? names r = some name) (hs : Entries.get? names s = some name) : r = s := by
  have hpair := List.inj_on_of_nodup_map h (Entries.mem_of_get? hr) (Entries.mem_of_get? hs) rfl
  exact (Prod.mk.inj hpair).1

/-- A schema defines the name of a role: it says what all shapes of the role do. -/
inductive Defines (ds : Declarations) (names : RoleNames) : Role → Schema → Prop
  | enum {id name : String} (named : Entries.get? names (.enum id) = some name)
      (description : Option String) :
      Defines ds names (.enum id)
        (.union name description ((ds.enumOf id).wires.map fun w => .string [.constant w.1]))
  | record {id name : String} {fields : List FieldShape} {properties : List (Property Schema)}
      (named : Entries.get? names (.record id) = some name)
      (resolved : ds.fieldShapes id = .ok fields)
      (fields : MirrorsFields ds names properties fields) (description : Option String) :
      Defines ds names (.record id) (.object name description properties)
  | case {unionName id name : String} {records : List String} {fields : List FieldShape}
      {properties : List (Property Schema)}
      (named : Entries.get? names (.case unionName records id) = some name)
      (resolved : ds.fieldShapes id = .ok fields)
      (untagged : discriminatorKey ∉ properties.map (·.key))
      (fields : MirrorsFields ds names properties fields) (description : Option String) :
      Defines ds names (.case unionName records id)
        (.object name description (tagProperty (ds.caseTag id) :: properties))
  | union {unionName name : String} {records : List String} {alternatives : List Schema}
      (named : Entries.get? names (.union unionName records) = some name)
      (distinct : (records.map ds.caseTag).Nodup)
      (aligned : alternatives.length = records.length)
      (each : ∀ s id, (s, id) ∈ alternatives.zip records →
        Defines ds names (.case unionName records id) s)
      (description : Option String) :
      Defines ds names (.union unionName records) (.union name description alternatives)

namespace Defines

variable {ds : Declarations} {names : RoleNames} {role : Role} {s : Schema} {shape : Shape}

theorem defines (h : Defines ds names role s) : s.defines = true := by
  cases h <;> rfl

theorem named (h : Defines ds names role s) :
    ∃ name, s.name? = some name ∧ Entries.get? names role = some name := by
  cases h with
  | enum named | record named | case named | union named => exact ⟨_, rfl, named⟩

theorem mirrors (h : Defines ds names role s) (hdescribes : role.Describes ds shape) :
    Mirrors ds names s shape [] := by
  induction h generalizing shape with
  | enum named description =>
    cases shape <;> cases hdescribes
    exact .enum named description _ _
  | record named resolved fields description =>
    cases shape <;> cases hdescribes
    exact .record named resolved fields.alike fields.each description _ _
  | case named resolved untagged fields description =>
    cases shape <;> cases hdescribes
    exact .case named resolved untagged fields.alike fields.each description _ _
  | union named distinct aligned each description ih =>
    cases shape <;> cases hdescribes
    refine .union named distinct aligned (fun s id hmem => ?_) (fun s id hmem => ih s id hmem rfl)
      description _ _
    exact ⟨(each s id hmem).defines, (each s id hmem).named⟩

end Defines

/-- What defines a name and mirrors a shape does so for a role of the shape. -/
theorem Mirrors.exists_defines {ds : Declarations} {names : RoleNames}
    (hdistinct : (names.map (·.2)).Nodup) {s : Schema} {shape : Shape} {rules : List Constraint}
    (h : Mirrors ds names s shape rules) (hdefines : s.defines = true) :
    ∃ role, Defines ds names role s ∧ role.Describes ds shape ∧ rules = [] := by
  induction h with
  | enum named description => exact ⟨_, .enum named description, rfl, rfl⟩
  | record named resolved alike each description =>
    exact ⟨_, .record named resolved ⟨alike, each⟩ description, rfl, rfl⟩
  | case named resolved untagged alike each description =>
    exact ⟨_, .case named resolved untagged ⟨alike, each⟩ description, rfl, rfl⟩
  | union named distinct aligned defined _ description _ _ ih =>
    refine ⟨_, .union named distinct aligned (fun s id hmem => ?_) description, rfl, rfl⟩
    -- Both the case and what the alternative defines have its name.
    obtain ⟨hs, name, hname, hcase⟩ := defined s id hmem
    obtain ⟨role, hrole, -, -⟩ := ih s id hmem hs
    obtain ⟨name', hname', hnamed⟩ := hrole.named
    obtain rfl : name = name' := Option.some.inj (hname.symm.trans hname')
    obtain rfl := Derivation.role_unique hdistinct hcase hnamed
    exact hrole
  | _ => cases hdefines

end StructuredOutput

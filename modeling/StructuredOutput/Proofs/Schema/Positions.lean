import StructuredOutput.Backend.NamedSchemas
import StructuredOutput.Proofs.Outcome
import StructuredOutput.Schema.Derive

/-!
Positions in schemas, and what stands at them. A position in the schema of a shape is at the same
time a position in the shape, so that a named node has the role in which it is derived. Refinement
moves nothing that defines a name.
-/

namespace StructuredOutput

/-! ### Positions -/

namespace Schema

/-- The schemas inside a schema. -/
def parts : Schema → List Schema
  | array item _ => [item]
  | s => s.children

/-- The node at a position: at every level, which of the parts it is in. -/
def at? : Schema → List Nat → Option Schema
  | s, [] => some s
  | s, i :: position => s.parts[i]?.bind fun part => part.at? position

/-- Whether a schema is in another one, at some position. -/
def Within (node s : Schema) : Prop := ∃ position, s.at? position = some node

/-- Whether a schema defines a name. -/
def defines : Schema → Bool
  | object _ _ _ | union _ _ _ => true
  | _ => false

/-- Whether a schema has neither parts nor a name. -/
def IsScalar (s : Schema) : Prop := s.parts = [] ∧ s.name? = none

variable {s t u node : Schema}

theorem Within.refl (s : Schema) : s.Within s := ⟨[], rfl⟩

theorem Within.of_part {part : Schema} (h : node.Within part) (hpart : part ∈ s.parts) :
    node.Within s := by
  obtain ⟨position, hposition⟩ := h
  obtain ⟨i, hi⟩ := List.getElem?_of_mem hpart
  refine ⟨i :: position, ?_⟩
  rw [at?, hi, Option.bind_some, hposition]

theorem Within.trans (hst : s.Within t) (htu : t.Within u) : s.Within u := by
  obtain ⟨position, hposition⟩ := htu
  induction position generalizing u with
  | nil =>
    obtain rfl : u = t := Option.some.inj hposition
    exact hst
  | cons i position ih =>
    rw [at?] at hposition
    obtain ⟨part, hpart, hrest⟩ := Option.bind_eq_some_iff.mp hposition
    exact (ih hrest).of_part (List.mem_of_getElem? hpart)

theorem Within.part {part : Schema} (h : s.Within t) (hpart : part ∈ s.parts) : part.Within t :=
  (Within.of_part (.refl part) hpart).trans h

theorem Within.eq_or_part (h : node.Within s) :
    node = s ∨ ∃ part ∈ s.parts, node.Within part := by
  obtain ⟨position, hposition⟩ := h
  cases position with
  | nil => exact .inl (Option.some.inj hposition).symm
  | cons i position =>
    obtain ⟨part, hpart, hrest⟩ := Option.bind_eq_some_iff.mp hposition
    exact .inr ⟨part, List.mem_of_getElem? hpart, position, hrest⟩

theorem mem_parts_of_mem_properties {name : String} {description : Option String}
    {properties : List (Property Schema)} {p : Property Schema} (h : p ∈ properties) :
    p.schema ∈ (object name description properties).parts :=
  List.mem_map_of_mem h

theorem exists_name_of_defines (h : s.defines = true) : ∃ name, s.name? = some name := by
  cases s with
  | object name | union name => exact ⟨name, rfl⟩
  | _ => cases h

theorem IsScalar.not_defines (h : s.IsScalar) : s.defines = false := by
  obtain ⟨-, hname⟩ := h
  cases s <;> first | rfl | cases hname

/-- A scalar has no node but itself. -/
theorem IsScalar.eq_of_at? (h : s.IsScalar) {position : List Nat}
    (hnode : s.at? position = some node) : node = s := by
  cases position with
  | nil => exact (Option.some.inj hnode).symm
  | cons i position =>
    rw [at?, h.1] at hnode
    cases hnode

/-! ### Refinement keeps what is named -/

theorem IsScalar.refine (h : s.IsScalar) {c : Constraint} (hs : s.refine c = .ok t) :
    t.IsScalar := by
  obtain ⟨hparts, hname⟩ := h
  cases s with
  | string rules =>
    cases c <;> cases hs
    exact ⟨rfl, rfl⟩
  | integer ranges =>
    cases c with
    | range r =>
      obtain ⟨whole, -, rfl⟩ := Outcome.map_eq_ok.mp hs
      exact ⟨rfl, rfl⟩
    | _ => cases hs
  | number ranges =>
    cases c <;> cases hs
    exact ⟨rfl, rfl⟩
  | boolean => cases c <;> cases hs
  | array item counts => cases hparts
  | object | union | ref => cases hname

/-- A schema with a name has no refinements. -/
theorem name?_eq_none_of_refine {c : Constraint} (hs : s.refine c = .ok t) : s.name? = none := by
  cases s with
  | object | union | ref => cases c <;> cases hs
  | _ => rfl

/-- A refinement moves no schema that defines a name. -/
theorem at?_of_refine {c : Constraint} (hs : s.refine c = .ok t) {position : List Nat}
    (hnode : node.defines = true) (h : s.at? position = some node) :
    t.at? position = some node := by
  induction c generalizing s t position with
  | element inner ih =>
    cases s with
    | array item counts =>
      obtain ⟨refined, hrefined, rfl⟩ := Outcome.map_eq_ok.mp hs
      match position with
      | [] =>
        cases h
        cases hnode
      | 0 :: position => exact ih hrefined h
      | (_ + 1) :: _ => cases h
    | _ => cases hs
  | count span =>
    cases s with
    | array item counts =>
      cases hs
      match position with
      | [] =>
        cases h
        cases hnode
      | 0 :: position => exact h
      | (_ + 1) :: _ => cases h
    | _ => cases hs
  | text | range =>
    -- What has a refinement of one of these kinds is a scalar, in which nothing has a name.
    have hplain : s.IsScalar := by
      cases s with
      | string | integer | number => exact ⟨rfl, rfl⟩
      | _ => cases hs
    obtain rfl := hplain.eq_of_at? h
    exact absurd (hplain.not_defines.symm.trans hnode) Bool.false_ne_true

theorem Within.refine {c : Constraint} (hs : s.refine c = .ok t) (hnode : node.defines = true)
    (h : node.Within s) : node.Within t := by
  obtain ⟨position, hposition⟩ := h
  exact ⟨position, at?_of_refine hs hnode hposition⟩

/-- What every refinement keeps is kept by refinements in order. -/
theorem keeps_of_constrain {P : Schema → Prop}
    (hrefine : ∀ s t c, P s → s.refine c = .ok t → P t) {cs : List Constraint} (h : P s)
    (hs : s.constrain cs = .ok t) : P t := by
  induction cs generalizing s with
  | nil =>
    cases hs
    exact h
  | cons c cs ih =>
    rw [constrain, List.foldlM_cons] at hs
    obtain ⟨next, hnext, hrest⟩ := Outcome.bind_eq_ok.mp hs
    exact ih (hrefine _ _ _ h hnext) hrest

end Schema

/-! ### Sources -/

/-- What a node is derived from: a shape, or a case of a union. -/
inductive Source where
  | shape (shape : Shape)
  | case (unionName : String) (records : List String) (record : String)

namespace Source

/-- The role in which a source is derived. -/
def role? : Source → Option Role
  | shape (.enum id _ _) => some (.enum id)
  | shape (.record id _ _) => some (.record id)
  | shape (.union name _ cases) => some (.union name (cases.map (·.record)))
  | case name records record => some (.case name records record)
  | shape (.primitive _ _) | shape (.literal _ _) | shape (.array _ _ _) | shape (.optional _) =>
    none

/-- The source of the `i`th property of a record. -/
def field? (ds : Declarations) (id : String) (i : Nat) : Option Source :=
  match ds.fieldShapes id with
  | .ok fields => fields[i]?.map fun f => shape f.shape
  | .error _ => none

/-- The source of the `i`th part of what is derived. The texts of an enumeration and the
discriminator of a case have none. -/
def part? (ds : Declarations) : Source → Nat → Option Source
  | shape (.array item _ _), 0 => some (shape item)
  | shape (.record id _ _), i => field? ds id i
  | shape (.union name _ cases), i =>
    cases[i]?.map fun c => case name (cases.map (·.record)) c.record
  | case _ _ id, i + 1 => field? ds id i
  | _, _ => none

/-- The source of the node at a position. -/
def at? (ds : Declarations) : Source → List Nat → Option Source
  | source, [] => some source
  | source, i :: position => (source.part? ds i).bind fun part => part.at? ds position

variable {ds : Declarations} {source : Source}

theorem part?_of_record {id : String} (h : source.role? = some (.record id)) {i : Nat} :
    source.part? ds i = field? ds id i := by
  cases source with
  | case => cases h
  | shape s => cases s <;> cases h; rfl

theorem part?_of_union {name : String} {records : List String}
    (h : source.role? = some (.union name records)) {i : Nat} {record : String}
    (hrecord : records[i]? = some record) :
    source.part? ds i = some (case name records record) := by
  cases source with
  | case => cases h
  | shape s =>
    cases s <;> cases h
    rw [List.getElem?_map, Option.map_eq_some_iff] at hrecord
    obtain ⟨c, hc, rfl⟩ := hrecord
    simp only [part?, hc, Option.map_some]

theorem eq_of_role?_case {name record : String} {records : List String}
    (h : source.role? = some (.case name records record)) :
    source = case name records record := by
  cases source with
  | case =>
    cases h
    rfl
  | shape s => cases s <;> cases h

end Source

/-- The role of the node at a position of the schema of a shape. -/
def Shape.roleAt? (ds : Declarations) (shape : Shape) (position : List Nat) : Option Role :=
  ((Source.shape shape).at? ds position).bind Source.role?

end StructuredOutput

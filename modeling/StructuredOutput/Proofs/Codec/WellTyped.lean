import StructuredOutput.Proofs.Codec.Instance
import StructuredOutput.Proofs.Shape.Reach

/-!
The values of a shape, said without encoding or decoding, and the equality of the values that
decoding yields.
-/

namespace StructuredOutput

/-- Whether a value is what the members of an enumeration are besides. -/
def Mixin.Holds : Mixin → Value → Prop
  | .text, v => ∃ s, v = .text s
  | .integer, v => ∃ n, v = .integer n

/-- An instance has all attributes of its record, and those that are not given when it is made
equal their defaults. -/
structure Populated (ds : Declarations) (id : String) (attrs : List (String × Value)) : Prop where
  names : Entries.names attrs = ds.attributes id
  defaults : ∀ f ∈ ds.fields id, f.init = false → ∀ d v, f.default = some d →
    Entries.get? attrs f.name = some v → d.same v = true

/-- The values of a shape. An integer is one that a double represents, a real number is finite, and
an instance is one of exactly the record, or of exactly one case. -/
inductive WellTyped (ds : Declarations) : Value → Shape → Prop
  | text (s : String) (constraints : List Constraint) :
      WellTyped ds (.text s) (.primitive .text constraints)
  | bool (b : Bool) (constraints : List Constraint) :
      WellTyped ds (.bool b) (.primitive .bool constraints)
  | integer {n : Int} {x : Double} (exact : x.signedUnits = n * (unitsPerOne : Int))
      (constraints : List Constraint) :
      WellTyped ds (.integer n) (.primitive .integer constraints)
  | real (x : Double) (constraints : List Constraint) :
      WellTyped ds (.real (.finite x)) (.primitive .real constraints)
  | literal {s : String} {values : List String} (option : s ∈ values)
      (constraints : List Constraint) :
      WellTyped ds (.text s) (.literal values constraints)
  | member {id : String} {m : String × Value} (declared : m ∈ (ds.enumOf id).canonical)
      (mixed : ∀ mixin, (ds.enumOf id).mixin = some mixin → mixin.Holds m.2)
      (name : String) (description : Option String) :
      WellTyped ds ((ds.enumOf id).memberValue id m) (.enum id name description)
  | list {items : List Value} {item : Shape} (each : ∀ v ∈ items, WellTyped ds v item)
      (constraints : List Constraint) :
      WellTyped ds (.list items) (.array item .list constraints)
  | tuple {items : List Value} {item : Shape} (each : ∀ v ∈ items, WellTyped ds v item)
      (constraints : List Constraint) :
      WellTyped ds (.tuple items) (.array item .tuple constraints)
  | record {id : String} {attrs : List (String × Value)} (populated : Populated ds id attrs)
      (given : ∀ fields, ds.fieldShapes id = .ok fields → ∀ f ∈ fields, ∀ v,
        Entries.get? attrs f.attr = some v → WellTyped ds v f.whole)
      (name : String) (description : Option String) :
      WellTyped ds (.record id attrs) (.record id name description)
  | union {id : String} {attrs : List (String × Value)} {cases : List Case}
      (case : id ∈ cases.map (·.record)) (populated : Populated ds id attrs)
      (given : ∀ fields, ds.fieldShapes id = .ok fields → ∀ f ∈ fields, ∀ v,
        Entries.get? attrs f.attr = some v → WellTyped ds v f.whole)
      (name : String) (description : Option String) :
      WellTyped ds (.record id attrs) (.union name description cases)
  | null (inner : Shape) : WellTyped ds .null (.optional inner)
  | present {v : Value} {inner : Shape} (inside : WellTyped ds v inner) :
      WellTyped ds v (.optional inner)

namespace Value

theorem same_text (s : String) : (text s).same (.text s) = true := by
  simp [same, asText?, base]

theorem same_bool (b : Bool) : (bool b).same (.bool b) = true := by
  simp [same, asNumber?, base, sameNumber]

theorem same_integer (n : Int) : (integer n).same (.integer n) = true := by
  simp [same, asNumber?, base, sameNumber]

theorem same_finite (x : Double) : (real (.finite x)).same (.real (.finite x)) = true := by
  simp [same, asNumber?, base, sameNumber, Floating.sameValue, Double.sameValue]

theorem same_member (e : EnumDecl) (id : String) (m : String × Value)
    (mixed : ∀ mixin, e.mixin = some mixin → mixin.Holds m.2) :
    (e.memberValue id m).same (e.memberValue id m) = true := by
  cases hmixin : e.mixin with
  | none => simp [EnumDecl.memberValue, hmixin, same, sameMember]
  | some mixin =>
    have hholds := mixed mixin hmixin
    cases mixin with
    | text =>
      obtain ⟨s, hs⟩ := hholds
      simp [EnumDecl.memberValue, hmixin, same, sameMember, hs, base, asText?]
    | integer =>
      obtain ⟨n, hn⟩ := hholds
      simp [EnumDecl.memberValue, hmixin, same, sameMember, hn, base, asNumber?, sameNumber]

theorem sameFields_iff {xs ys : List (String × Value)} :
    sameFields xs ys = true ↔
      List.Forall₂ (fun x y => x.1 = y.1 ∧ x.2.same y.2 = true) xs ys := by
  induction xs generalizing ys with
  | nil => cases ys <;> simp [sameFields]
  | cons x xs ih =>
    obtain ⟨m, v⟩ := x
    rcases ys with _ | ⟨⟨n, w⟩, ys⟩ <;> simp [sameFields, ih, and_assoc]

end Value

/-- An instance has a value for every field that travels. -/
theorem Populated.exists_value {ds : Declarations} {id : String} {attrs : List (String × Value)}
    {fields : List FieldShape} (h : Populated ds id attrs) (hfields : ds.Fielded id fields)
    {f : FieldShape} (hf : f ∈ fields) : ∃ v, Entries.get? attrs f.attr = some v := by
  obtain ⟨decl, hdecl, hinit, ht⟩ := hfields.exists_decl hf
  have hmem : f.attr ∈ Entries.names attrs := by
    rw [h.names, ht.attr]
    exact List.mem_map_of_mem (List.mem_filter.mpr ⟨hdecl, by simp [hinit]⟩)
  rw [← Option.ne_none_iff_exists']
  exact fun hnone => Entries.get?_eq_none.mp hnone hmem

/-- What is made from given attributes equals an instance when the given attributes do. -/
theorem Populated.same_instantiate {ds : Declarations} {id : String}
    {attrs given : List (String × Value)} {fields : List FieldShape}
    (h : Populated ds id attrs) (hfields : ds.Fielded id fields)
    (hnames : Entries.names given = fields.map (·.attr))
    (hgiven : ∀ f ∈ fields, ∀ w v, Entries.get? given f.attr = some w →
      Entries.get? attrs f.attr = some v → w.same v = true) :
    (ds.instantiate id given).same (.record id attrs) = true := by
  have hinit : Entries.names given = ((ds.fields id).filter (·.init)).map (·.name) :=
    hnames.trans hfields.attrs_eq
  have hall := Declarations.names_instantiate hinit
  rw [Declarations.instantiate_eq, Value.same, beq_self_eq_true, Bool.true_and,
    Value.sameFields_iff]
  refine Entries.forall₂_of_get? (R := fun w v => w.same v = true) (hall.trans h.names.symm)
    (hall ▸ ds.attributes_nodup id) fun n w v hw hv => ?_
  have hn : n ∈ ds.attributes id :=
    hall ▸ List.mem_map.mpr ⟨_, Entries.mem_of_get? hw, rfl⟩
  obtain ⟨decl, hdecl, rfl⟩ := List.mem_map.mp hn
  have hmem := (List.mem_filter.mp hdecl).1
  rw [Declarations.get?_instantiate hmem, Declarations.attributeValue] at hw
  cases hcase : decl.init with
  | true =>
    have hattr : decl.name ∈ fields.map (·.attr) := by
      rw [hfields.attrs_eq, Declarations.mem_given_iff hmem, hcase]
    obtain ⟨f, hf, hname⟩ := List.mem_map.mp hattr
    cases hget : Entries.get? given decl.name with
    | none => exact absurd (hnames ▸ hattr) (Entries.get?_eq_none.mp hget)
    | some u =>
      rw [hget, Option.some_or, Option.some.injEq] at hw
      exact hgiven f hf w v (hname ▸ hw ▸ hget) (hname ▸ hv)
  | false =>
    have hnot : decl.name ∉ Entries.names given := by
      rw [hinit, Declarations.mem_given_iff hmem, hcase]
      exact Bool.false_ne_true
    rw [Entries.get?_eq_none.mpr hnot, Option.none_or] at hw
    exact h.defaults decl hmem hcase w v hw hv

end StructuredOutput

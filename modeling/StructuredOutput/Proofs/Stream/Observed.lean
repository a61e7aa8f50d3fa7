import StructuredOutput.Proofs.Codec.Instance
import StructuredOutput.Proofs.Content.Members
import StructuredOutput.Proofs.Shape.Reach
import StructuredOutput.Proofs.Stream.Merge

/-!
What content tells about a value: a slot holds what its entry tells about the whole shape of its
field, one relation says all that content of whatever kind can tell, and it tells something when the
records that a shape reaches have fields.
-/

namespace StructuredOutput

variable {ds : Declarations}

namespace Snapshot

theorem value_of_isScalar {c : Content} (hc : c.isScalar = true) (shape : Shape) :
    value ds c shape =
      .ok (if shape.isOptional && c.isNull then .null else leaf ds shape.core c) := by
  cases c with
  | array | object => cases hc
  | _ => rw [value] <;> simp

theorem value_optional_null (inner : Shape) : value ds .null (.optional inner) = .ok .null := by
  simp [value, Shape.isOptional, Content.isNull, Content.kind]

theorem value_optional {c : Content} (hc : c.isNull = false) (inner : Shape) :
    value ds c (.optional inner) = value ds c inner := by
  cases c with
  | null => cases hc
  | array | object => simp only [value, Shape.core]
  | bool | number | string => simp [value, Shape.core, Content.isNull, Content.kind]

/-- A slot holds what its entry tells about the whole shape of the field. -/
theorem slot_eq (entries : List (String × Content)) (f : FieldShape) :
    slot ds entries f =
      match Entries.get? entries f.key with
      | none => .ok .unknown
      | some c => value ds c f.whole := by
  induction entries with
  | nil => simp [slot, Entries.get?]
  | cons e rest ih =>
    obtain ⟨k, c⟩ := e
    by_cases hk : k = f.key
    · by_cases hoptional : f.optional = true
      · cases hnull : c.isNull with
        | true =>
          obtain rfl := Content.isNull_eq_true.mp hnull
          simp [slot, Entries.get?, hk, FieldShape.whole, hoptional, value_optional_null]
        | false =>
          simp [slot, Entries.get?, hk, FieldShape.whole, hoptional, hnull, value_optional]
      · simp [slot, Entries.get?, hk, FieldShape.whole, hoptional]
    · simpa [slot, Entries.get?, hk] using ih

/-- The case that an object names is one of the union. -/
theorem mem_of_caseOf? {cases : List Case} {entries : List (String × Content)} {found : Case}
    (h : caseOf? cases entries = some found) : found ∈ cases := by
  unfold caseOf? at h
  split at h
  · exact List.mem_of_find?_eq_some h
  · cases h

end Snapshot

/-- The record that an object of a shape is an instance of: that of the shape itself, or that of the
case that the object names. -/
def instanceOf? (entries : List (String × Content)) : Shape → Option String
  | .record id _ _ => some id
  | .union _ _ cases => (Snapshot.caseOf? cases entries).map (·.record)
  | _ => none

theorem mem_of_instanceOf? {entries : List (String × Content)} {shape : Shape} {id : String}
    (h : instanceOf? entries shape = some id) : id ∈ shape.records := by
  cases shape with
  | record =>
    cases h
    exact List.mem_singleton_self _
  | union name description cases =>
    obtain ⟨found, named, rfl⟩ := Option.map_eq_some_iff.mp h
    exact List.mem_map_of_mem (Snapshot.mem_of_caseOf? named)
  | _ => cases h

namespace Snapshot

open Content (members_induction)
open Value (inSlot inSlot_of_get?)

/-! ### What content can tell -/

variable {shape : Shape} {entries : List (String × Content)} {id : String}

theorem leaf_of_parts (shape : Shape) {c : Content} (hc : c.isScalar = false) :
    leaf ds shape c = .unknown := by
  cases c with
  | array | object =>
    cases shape with
    | primitive type => cases type <;> rfl
    | _ => rfl
  | _ => cases hc

theorem value_array {item : Shape} {container : Container} {constraints : List Constraint}
    (core : shape.core = .array item container constraints) (items : List Content) :
    value ds (.array items) shape = (known ds items item).map .tuple := by
  simp only [value, core]

theorem value_array_of_ne
    (other : ∀ item container constraints, shape.core ≠ .array item container constraints)
    (items : List Content) : value ds (.array items) shape = .ok .unknown := by
  rw [value]
  cases core : shape.core with
  | array item container constraints => exact absurd core (other item container constraints)
  | _ => exact congrArg _ (leaf_of_parts _ rfl)

theorem value_object (belongs : instanceOf? entries shape.core = some id) :
    value ds (.object entries) shape = (do
      let fields ← ds.fieldShapes id
      let slots ← fields.mapM fun f => (f.attr, ·) <$> slot ds entries f
      .ok (.slots id slots)) := by
  rw [value]
  generalize shape.core = core at belongs
  cases core with
  | record =>
    cases belongs
    rfl
  | union name description cases =>
    obtain ⟨found, named, rfl⟩ := Option.map_eq_some_iff.mp belongs
    simp only [named]
  | _ => cases belongs

theorem value_object_of_none (h : instanceOf? entries shape.core = none) :
    value ds (.object entries) shape = .ok .unknown := by
  rw [value]
  generalize shape.core = core at h
  cases core with
  | record => cases h
  | union name description cases => simp only [Option.map_eq_none_iff.mp h]
  | _ => exact congrArg _ (leaf_of_parts _ rfl)

/-- The slots of a record are told one by one. -/
theorem slots_spec {fields : List FieldShape} {vs : List (String × Value)}
    (resolved : ds.fieldShapes id = .ok fields)
    (h : (fields.mapM fun f => (f.attr, ·) <$> slot ds entries f) = .ok vs) :
    Entries.names vs = fields.map (·.attr) ∧
      ∀ f ∈ fields, slot ds entries f = .ok (inSlot vs f.attr) := by
  have names : Entries.names vs = fields.map (·.attr) := by
    apply Outcome.names_of_mapM h
    intro f e he
    obtain ⟨v, -, rfl⟩ := Outcome.functorMap_eq_ok.mp he
    rfl
  refine ⟨names, fun f hf => ?_⟩
  obtain ⟨e, he, hslot⟩ := Outcome.exists_mem_right (Outcome.mapM_eq_ok.mp h) hf
  obtain ⟨v, hv, rfl⟩ := Outcome.functorMap_eq_ok.mp hslot
  have hnodup : (Entries.names vs).Nodup := by
    rw [names]
    exact (Declarations.fielded_of_fieldShapes resolved).attrs_nodup
  rw [inSlot_of_get? (Entries.get?_of_mem hnodup he), hv]

/-- All that content can tell about a value of a shape, but for what its parts tell: a scalar tells
the whole value or nothing, an array some items, and an object a slot for each field. -/
inductive Tells (ds : Declarations) : Content → Shape → Value → Prop
  | null {shape : Shape} (optional : shape.isOptional = true) : Tells ds .null shape .null
  | leaf {c : Content} (scalar : c.isScalar = true) (shape : Shape) :
      Tells ds c shape (leaf ds shape.core c)
  | noItems {shape : Shape}
      (other : ∀ item container constraints, shape.core ≠ .array item container constraints)
      (items : List Content) : Tells ds (.array items) shape .unknown
  | items {shape item : Shape} {container : Container} {constraints : List Constraint}
      {items : List Content} {vs : List Value}
      (core : shape.core = .array item container constraints)
      (known : known ds items item = .ok vs) : Tells ds (.array items) shape (.tuple vs)
  | noInstance {shape : Shape} {entries : List (String × Content)}
      (stranger : instanceOf? entries shape.core = none) :
      Tells ds (.object entries) shape .unknown
  | slots {shape : Shape} {entries : List (String × Content)} {id : String}
      {fields : List FieldShape} {vs : List (String × Value)}
      (belongs : instanceOf? entries shape.core = some id)
      (resolved : ds.fieldShapes id = .ok fields) (names : Entries.names vs = fields.map (·.attr))
      (each : ∀ f ∈ fields, slot ds entries f = .ok (inSlot vs f.attr)) :
      Tells ds (.object entries) shape (.slots id vs)

theorem tells_of_isScalar {c : Content} {v : Value} (scalar : c.isScalar = true)
    (h : value ds c shape = .ok v) : Tells ds c shape v := by
  rw [value_of_isScalar scalar] at h
  cases h
  split
  · next hnull =>
    rw [Bool.and_eq_true, Content.isNull_eq_true] at hnull
    obtain ⟨optional, rfl⟩ := hnull
    exact .null optional
  · exact .leaf scalar shape

theorem tells_of_value {c : Content} {v : Value} (h : value ds c shape = .ok v) :
    Tells ds c shape v := by
  cases c with
  | null | bool | number | string => exact tells_of_isScalar rfl h
  | array items =>
    by_cases other :
        ∀ item container constraints, shape.core ≠ .array item container constraints
    · rw [value_array_of_ne other] at h
      cases h
      exact .noItems other items
    · push Not at other
      obtain ⟨item, container, constraints, core⟩ := other
      rw [value_array core] at h
      obtain ⟨vs, hvs, rfl⟩ := Outcome.map_eq_ok.mp h
      exact .items core hvs
  | object entries =>
    cases belongs : instanceOf? entries shape.core with
    | none =>
      rw [value_object_of_none belongs] at h
      cases h
      exact .noInstance belongs
    | some id =>
      rw [value_object belongs] at h
      obtain ⟨fields, resolved, h⟩ := Outcome.bind_eq_ok.mp h
      obtain ⟨vs, hvs, h⟩ := Outcome.bind_eq_ok.mp h
      cases h
      obtain ⟨names, each⟩ := slots_spec resolved hvs
      exact .slots belongs resolved names each

/-! ### Content always tells something -/

theorem exists_slot {f : FieldShape} (each : ∀ e ∈ entries, ∃ v, value ds e.2 f.whole = .ok v) :
    ∃ v, slot ds entries f = .ok v := by
  rw [slot_eq]
  cases hget : Entries.get? entries f.key with
  | none => exact ⟨.unknown, rfl⟩
  | some c => exact each (f.key, c) (Entries.mem_of_get? hget)

theorem exists_known {items : List Content} {item : Shape}
    (each : ∀ c ∈ items, ∃ v, value ds c item = .ok v) : ∃ vs, known ds items item = .ok vs := by
  induction items with
  | nil => exact ⟨[], by rw [known]⟩
  | cons c cs ih =>
    obtain ⟨v, hv⟩ := each c List.mem_cons_self
    obtain ⟨vs, hvs⟩ := ih fun c hc => each c (List.mem_cons_of_mem _ hc)
    rw [known, hv]
    by_cases hunknown : v.isUnknown = true
    · exact ⟨[], by simp [bind, Except.bind, hunknown]⟩
    · exact ⟨v :: vs, by simp [bind, Except.bind, hunknown, hvs]⟩

theorem exists_value (c : Content) {shape : Shape} (h : Resolves ds shape) :
    ∃ v, value ds c shape = .ok v := by
  induction c using members_induction generalizing shape with
  | null | bool | number | string => exact ⟨_, value_of_isScalar rfl shape⟩
  | array items ih =>
    by_cases other :
        ∀ item container constraints, shape.core ≠ .array item container constraints
    · exact ⟨_, value_array_of_ne other items⟩
    · push Not at other
      obtain ⟨item, container, constraints, core⟩ := other
      have hitem : Resolves ds item := h.of_reaches (.item_of_core core)
      obtain ⟨vs, hvs⟩ := exists_known fun c hc => ih c hc hitem
      exact ⟨.tuple vs, by rw [value_array core, hvs, Except.map]⟩
  | object entries ih =>
    cases belongs : instanceOf? entries shape.core with
    | none => exact ⟨_, value_object_of_none belongs⟩
    | some id =>
      have hid := mem_of_instanceOf? belongs
      obtain ⟨fields, resolved⟩ := h _ (.core shape) id hid
      have hslots :
          ∃ vs, (fields.mapM fun f => (f.attr, ·) <$> slot ds entries f) = .ok vs := by
        apply Outcome.exists_mapM
        intro f hf
        have hfield : Resolves ds f.whole := h.of_reaches (.field_of_core hid resolved hf)
        obtain ⟨v, hv⟩ := exists_slot fun e he => ih e he hfield
        exact ⟨(f.attr, v), Outcome.functorMap_eq_ok.mpr ⟨v, hv, rfl⟩⟩
      obtain ⟨vs, hvs⟩ := hslots
      exact ⟨.slots id vs, by simp [value_object belongs, resolved, hvs]⟩

end Snapshot

/-- Content tells something about a value of every type whose records have fields. -/
theorem exists_snapshot {t : TypeExpr} {shape : Shape} (hshape : ds.shapeOf t = .ok shape)
    (hresolves : Resolves ds shape) (c : Content) : ∃ v, snapshot ds c t = .ok v := by
  obtain ⟨v, hv⟩ := Snapshot.exists_value c hresolves
  exact ⟨v, by simp [snapshot, hshape, hv]⟩

end StructuredOutput

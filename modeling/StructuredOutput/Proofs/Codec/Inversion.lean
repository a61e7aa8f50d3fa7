import StructuredOutput.Proofs.Stream.Observed

/-!
All that decoding can do with content, one level at a time: one relation says which values it gives,
another one how it fails. Proofs about decoding go by their cases and need not look into it.
-/

namespace StructuredOutput

variable {ds : Declarations}

namespace Decoding

variable {shape : Shape} {entries : List (String × Content)} {id : String} {path : Path}

theorem caseOf_eq_ok {cases : List Case} {found : Case} : caseOf cases entries path = .ok found ↔
    ∃ tag, Entries.get? entries discriminatorKey = some (.string tag) ∧
      caseFor? cases tag = some found := by
  unfold caseOf
  cases hget : Entries.get? entries discriminatorKey with
  | none => simp
  | some c =>
    cases c with
    | string tag => cases hfor : caseFor? cases tag <;> simp [Content.asString, hfor]
    | _ => simp [Content.asString, Content.mismatch]

theorem caseOf_eq_ok_iff {cases : List Case} {found : Case} :
    caseOf cases entries path = .ok found ↔ Snapshot.caseOf? cases entries = some found := by
  rw [caseOf_eq_ok, Snapshot.caseOf?]
  cases Entries.get? entries discriminatorKey with
  | none => simp
  | some c => cases c <;> simp

theorem value_of_isScalar {c : Content} (hc : c.isScalar = true) (shape : Shape) (path : Path) :
    value ds c shape path =
      if shape.isOptional && c.isNull then .ok .null else leaf ds shape.core c path := by
  cases c with
  | array | object => cases hc
  | _ => rw [value] <;> simp

theorem value_array_of_ne
    (other : ∀ item container constraints, shape.core ≠ .array item container constraints)
    (items : List Content) (path : Path) :
    value ds (.array items) shape path = leaf ds shape.core (.array items) path := by
  rw [value]
  cases core : shape.core with
  | array item container constraints => exact absurd core (other item container constraints)
  | _ => rfl

theorem value_object (belongs : instanceOf? entries shape.core = some id) (path : Path) :
    value ds (.object entries) shape path = (do
      let fields ← (ds.fieldShapes id).mapError .type
      let given ← fields.mapM fun f => (f.attr, ·) <$> field ds entries f path
      .ok (ds.instantiate id given)) := by
  rw [value]
  generalize shape.core = core at belongs
  cases core with
  | record =>
    cases belongs
    rfl
  | union name description cases =>
    obtain ⟨found, named, rfl⟩ := Option.map_eq_some_iff.mp belongs
    simp only [caseOf_eq_ok_iff.mpr named]
    rfl
  | _ => cases belongs

/-- An object that is no instance of a record names no case, or its shape has no fields. -/
theorem value_object_of_none (h : instanceOf? entries shape.core = none) (path : Path) :
    value ds (.object entries) shape path = leaf ds shape.core (.object entries) path ∨
      ∃ name description cases e, shape.core = .union name description cases ∧
        caseOf cases entries path = .error e ∧
          value ds (.object entries) shape path = .error e := by
  rw [value]
  cases core : shape.core with
  | record =>
    rw [core] at h
    cases h
  | union name description cases =>
    cases hcase : caseOf cases entries path with
    | error e => exact .inr ⟨name, description, cases, e, rfl, hcase, by simp only [hcase]; rfl⟩
    | ok found =>
      rw [core, instanceOf?, caseOf_eq_ok_iff.mp hcase] at h
      cases h
  | _ => exact .inl rfl

/-! ### Success -/

theorem LeafValue.isScalar {c : Content} {v : Value} (h : LeafValue ds shape c v) :
    c.isScalar = true := by
  cases h <;> rfl

/-- The values that decoding gives: null for an optional shape, the value of a scalar, the items of
an array, or an instance made of the fields of an object. -/
inductive Gives (ds : Declarations) (path : Path) : Content → Shape → Value → Prop
  | null {shape : Shape} (optional : shape.isOptional = true) : Gives ds path .null shape .null
  | leaf {c : Content} {shape : Shape} {v : Value} (holds : LeafValue ds shape.core c v) :
      Gives ds path c shape v
  | items {shape item : Shape} {container : Container} {constraints : List Constraint}
      {items : List Content} {vs : List Value}
      (core : shape.core = .array item container constraints)
      (each : values ds items item path 0 = .ok vs) :
      Gives ds path (.array items) shape (container.collect vs)
  | made {shape : Shape} {entries : List (String × Content)} {id : String}
      {fields : List FieldShape} {given : List (String × Value)}
      (belongs : instanceOf? entries shape.core = some id)
      (resolved : ds.fieldShapes id = .ok fields)
      (each : (fields.mapM fun f => (f.attr, ·) <$> field ds entries f path) = .ok given) :
      Gives ds path (.object entries) shape (ds.instantiate id given)

theorem gives_of_isScalar {c : Content} {v : Value} (scalar : c.isScalar = true)
    (h : value ds c shape path = .ok v) : Gives ds path c shape v := by
  rw [value_of_isScalar scalar] at h
  split at h
  · next hnull =>
    rw [Bool.and_eq_true, Content.isNull_eq_true] at hnull
    obtain ⟨optional, rfl⟩ := hnull
    cases h
    exact .null optional
  · exact .leaf (leaf_eq_ok.mp h)

theorem gives_of_value {c : Content} {v : Value} (h : value ds c shape path = .ok v) :
    Gives ds path c shape v := by
  cases c with
  | null | bool | number | string => exact gives_of_isScalar rfl h
  | array items =>
    by_cases other :
        ∀ item container constraints, shape.core ≠ .array item container constraints
    · rw [value_array_of_ne other] at h
      exact .leaf (leaf_eq_ok.mp h)
    · push Not at other
      obtain ⟨item, container, constraints, core⟩ := other
      rw [value_array core] at h
      obtain ⟨vs, hvs, rfl⟩ := Outcome.map_eq_ok.mp h
      exact .items core hvs
  | object entries =>
    cases belongs : instanceOf? entries shape.core with
    | none =>
      rcases value_object_of_none belongs path with hleaf | ⟨_, _, _, _, -, -, herror⟩
      · exact .leaf (leaf_eq_ok.mp (hleaf.symm.trans h))
      · cases herror.symm.trans h
    | some id =>
      rw [value_object belongs] at h
      simp only [Outcome.bind_eq_ok, Outcome.mapError_eq_ok] at h
      obtain ⟨fields, resolved, given, hgiven, h⟩ := h
      cases h
      exact .made belongs resolved hgiven

/-! ### Failure -/

/-- The errors that decoding ends with: that of a leaf or of an item, of a case that is not named, of
a record that does not resolve, or of a field. -/
inductive Fails (ds : Declarations) (path : Path) : Content → Shape → DecodeError → Prop
  | leaf {c : Content} {shape : Shape} {e : DecodeError}
      (failed : leaf ds shape.core c path = .error e) : Fails ds path c shape e
  | items {shape item : Shape} {container : Container} {constraints : List Constraint}
      {items : List Content} {e : DecodeError}
      (core : shape.core = .array item container constraints)
      (failed : values ds items item path 0 = .error e) : Fails ds path (.array items) shape e
  | case {shape : Shape} {entries : List (String × Content)} {name : String}
      {description : Option String} {cases : List Case} {e : DecodeError}
      (core : shape.core = .union name description cases)
      (unnamed : caseOf cases entries path = .error e) : Fails ds path (.object entries) shape e
  | type {shape : Shape} {entries : List (String × Content)} {id : String} {fault : TypeFault}
      (belongs : instanceOf? entries shape.core = some id)
      (unresolved : ds.fieldShapes id = .error fault) :
      Fails ds path (.object entries) shape (.type fault)
  | field {shape : Shape} {entries : List (String × Content)} {id : String}
      {fields : List FieldShape} {f : FieldShape} {e : DecodeError}
      (belongs : instanceOf? entries shape.core = some id)
      (resolved : ds.fieldShapes id = .ok fields) (mem : f ∈ fields)
      (failed : field ds entries f path = .error e) : Fails ds path (.object entries) shape e

theorem fails_of_value {c : Content} {e : DecodeError} (h : value ds c shape path = .error e) :
    Fails ds path c shape e := by
  cases c with
  | null | bool | number | string =>
    rw [value_of_isScalar rfl] at h
    split at h
    · cases h
    · exact .leaf h
  | array items =>
    by_cases other :
        ∀ item container constraints, shape.core ≠ .array item container constraints
    · rw [value_array_of_ne other] at h
      exact .leaf h
    · push Not at other
      obtain ⟨item, container, constraints, core⟩ := other
      rw [value_array core] at h
      exact .items core (Outcome.map_eq_error.mp h)
  | object entries =>
    cases belongs : instanceOf? entries shape.core with
    | none =>
      rcases value_object_of_none belongs path with hleaf | ⟨_, _, _, _, core, unnamed, herror⟩
      · exact .leaf (hleaf.symm.trans h)
      · cases herror.symm.trans h
        exact .case core unnamed
    | some id =>
      rw [value_object belongs] at h
      rcases Outcome.bind_eq_error.mp h with h | ⟨fields, resolved, h⟩
      · obtain ⟨fault, unresolved, rfl⟩ := Outcome.mapError_eq_error.mp h
        exact .type belongs unresolved
      · rcases Outcome.bind_eq_error.mp h with h | ⟨given, -, h⟩
        · obtain ⟨f, mem, h⟩ := Outcome.exists_of_mapM_eq_error h
          exact .field belongs (Outcome.mapError_eq_ok.mp resolved) mem
            (Outcome.functorMap_eq_error.mp h)
        · cases h

/-- A field fails for want of its entry, or as its entry fails. -/
theorem field_eq_error {f : FieldShape} {e : DecodeError}
    (h : field ds entries f path = .error e) :
    Entries.get? entries f.key = none ∧ f.optional = false ∧ e = .missing ⟨f.key, path⟩ ∨
      ∃ c, Entries.get? entries f.key = some c ∧
        value ds c f.whole (path.key f.key) = .error e := by
  rw [field_eq] at h
  cases hget : Entries.get? entries f.key with
  | none =>
    rw [hget] at h
    cases hoptional : f.optional with
    | true => simp [hoptional] at h
    | false =>
      simp only [hoptional, Bool.false_eq_true, ↓reduceIte] at h
      exact .inl ⟨rfl, rfl, (Except.error.inj h).symm⟩
  | some c =>
    rw [hget] at h
    exact .inr ⟨c, rfl, h⟩

end Decoding

end StructuredOutput

import StructuredOutput.Proofs.Codec.FirstFault

/-!
Where decoding fails, whether or not the records that a shape reaches have fields: at the node that
is decoded or inside it. So an object lacks a key at its own place only if it has no such entry.
-/

namespace StructuredOutput

variable {ds : Declarations}

namespace DecodeError

variable {e : DecodeError} {path : Path}

/-- An error stands at a place or further inside. -/
def Within (e : DecodeError) (path : Path) : Prop :=
  ∀ place, e.path? = some place → path.steps <+: place.steps

theorem Within.here (h : e.path? = some path) : e.Within path := by
  intro place hplace
  rw [h] at hplace
  cases hplace
  exact List.prefix_rfl

theorem Within.of_key {name : String} (h : e.Within (path.key name)) : e.Within path :=
  fun place hplace => (List.prefix_append _ _).trans (h place hplace)

theorem Within.of_index {i : Nat} (h : e.Within (path.index i)) : e.Within path :=
  fun place hplace => (List.prefix_append _ _).trans (h place hplace)

end DecodeError

namespace Decoding

variable {e : DecodeError} {path : Path}

theorem path_of_asString {c : Content} {m : KindMismatch} (h : c.asString path = .error m) :
    m.path = path := by
  cases c <;> cases h <;> rfl

theorem path_of_asNumber {c : Content} {m : KindMismatch} (h : c.asNumber path = .error m) :
    m.path = path := by
  cases c <;> cases h <;> rfl

theorem path_of_asBool {c : Content} {m : KindMismatch} (h : c.asBool path = .error m) :
    m.path = path := by
  cases c <;> cases h <;> rfl

theorem path_of_decodePrimitive {type : Primitive} {c : Content} {m : KindMismatch}
    (h : decodePrimitive type c path = .error m) : m.path = path := by
  cases type with
  | text => exact path_of_asString (Outcome.map_eq_error.mp h)
  | bool => exact path_of_asBool (Outcome.map_eq_error.mp h)
  | real => exact path_of_asNumber (Outcome.map_eq_error.mp h)
  | integer =>
    unfold decodePrimitive at h
    cases hnumber : c.asNumber path with
    | error m' =>
      rw [hnumber] at h
      cases h
      exact path_of_asNumber hnumber
    | ok x =>
      rw [hnumber] at h
      dsimp only at h
      split at h <;> cases h
      rfl

/-- Content without parts that are decoded fails at its own place. -/
theorem path?_of_leaf {shape : Shape} {c : Content} (h : leaf ds shape c path = .error e) :
    e.path? = some path := by
  cases shape with
  | primitive type constraints =>
    obtain ⟨m, hm, rfl⟩ := Outcome.mapError_eq_error.mp h
    exact congrArg some (path_of_decodePrimitive hm)
  | literal values constraints =>
    rw [leaf, literal] at h
    split at h
    · next m hm =>
      cases h
      exact congrArg some (path_of_asString hm)
    · split at h <;> cases h
      rfl
  | enum id name description =>
    rw [leaf, member] at h
    split at h
    · next m hm =>
      cases h
      exact congrArg some (path_of_asString hm)
    · split at h <;> cases h
      rfl
  | array | record | union | optional =>
    cases h
    rfl

theorem within_of_caseOf {cases : List Case} {entries : List (String × Content)}
    (h : caseOf cases entries path = .error e) : e.Within path := by
  unfold caseOf at h
  split at h
  · cases h
    exact .here rfl
  · split at h
    · next m hm =>
      cases h
      exact .of_key (.here (congrArg some (path_of_asString hm)))
    · split at h <;> cases h
      exact .of_key (.here rfl)

theorem within_of_values {items : List Content} {item : Shape} {i : Nat}
    (each : ∀ c ∈ items, ∀ path, value ds c item path = .error e → e.Within path)
    (h : values ds items item path i = .error e) : e.Within path := by
  induction items generalizing i with
  | nil => cases h
  | cons c cs ih =>
    rw [values] at h
    rcases Outcome.bind_eq_error.mp h with h | ⟨v, -, h⟩
    · exact .of_index (each c List.mem_cons_self _ h)
    · rcases Outcome.bind_eq_error.mp h with h | ⟨vs, -, h⟩
      · exact ih (fun d hd => each d (List.mem_cons_of_mem c hd)) h
      · cases h

theorem within_of_field {entries : List (String × Content)} {f : FieldShape}
    (each : ∀ c ∈ entries, ∀ shape path, value ds c.2 shape path = .error e → e.Within path)
    (h : field ds entries f path = .error e) : e.Within path := by
  rcases field_eq_error h with ⟨-, -, rfl⟩ | ⟨c, hget, hvalue⟩
  · exact .here rfl
  · exact .of_key (each (f.key, c) (Entries.mem_of_get? hget) _ _ hvalue)

/-- Decoding fails at the node that is decoded or inside it. -/
theorem within_of_value (c : Content) {shape : Shape} (h : value ds c shape path = .error e) :
    e.Within path := by
  induction c using Content.members_induction generalizing shape path with
  | null | bool | number | string =>
    cases fails_of_value h with
    | leaf failed => exact .here (path?_of_leaf failed)
  | array items ih =>
    cases fails_of_value h with
    | leaf failed => exact .here (path?_of_leaf failed)
    | items _ failed => exact within_of_values (fun c hc _ hvalue => ih c hc hvalue) failed
  | object entries ih =>
    cases fails_of_value h with
    | leaf failed => exact .here (path?_of_leaf failed)
    | case _ unnamed => exact within_of_caseOf unnamed
    | type =>
      intro place hplace
      cases hplace
    | field _ _ _ failed => exact within_of_field (fun c hc _ _ hvalue => ih c hc hvalue) failed

/-- A record lacks a key at its own place only as an object without such an entry, where the key is
that of a field that must be given. -/
theorem record_eq_missing {c : Content} {id name : String} {description : Option String}
    {k : String} (h : value ds c (.record id name description) path = .error (.missing ⟨k, path⟩)) :
    ∃ entries fields f, c = .object entries ∧ Entries.get? entries k = none ∧
      ds.fieldShapes id = .ok fields ∧ f ∈ fields ∧ f.key = k ∧ f.optional = false := by
  cases fails_of_value h with
  | leaf failed => cases failed
  | items core => cases core
  | case core => cases core
  | @field _ entries _ fields f _ belongs resolved mem failed =>
    cases belongs
    rcases field_eq_error failed with ⟨hget, hoptional, he⟩ | ⟨c, -, hvalue⟩
    · cases he
      exact ⟨entries, fields, f, rfl, hget, resolved, mem, rfl, hoptional⟩
    -- the entry of a field stands further inside than the record
    · have hlonger := (within_of_value c hvalue path rfl).length_le
      simp [Path.key] at hlonger

end Decoding

end StructuredOutput

import StructuredOutput.Content.Parse
import StructuredOutput.Proofs.Codec.Decodes
import StructuredOutput.Proofs.Content.Members
import StructuredOutput.Proofs.Shape.Reach

/-!
The value that a text holds, and why a text holds none: when the records that a type reaches have
fields, it is never for the type.
-/

namespace StructuredOutput

variable {ds : Declarations}

/-- Why a text holds no value of a type. -/
inductive TextError where
  | unreadable (fault : ParseFault)
  | undecoded (cause : DecodeError)

/-- The value of a type that a JSON text holds. -/
def decodeText (ds : Declarations) (text : List Char) (t : TypeExpr) : Except TextError Value :=
  match Content.parse text with
  | .error fault => .error (.unreadable fault)
  | .ok c => (decode ds c t).mapError .undecoded

theorem decodeText_eq_ok {text : List Char} {t : TypeExpr} {v : Value} :
    decodeText ds text t = .ok v ↔
      ∃ c, Content.parse text = .ok c ∧ decode ds c t = .ok v := by
  unfold decodeText
  cases Content.parse text with
  | error fault => simp
  | ok c => simp

theorem decode_eq {t : TypeExpr} {shape : Shape} (hshape : ds.shapeOf t = .ok shape)
    (c : Content) : decode ds c t = Decoding.value ds c shape .top := by
  rw [decode, hshape]
  rfl

namespace Decoding

/-- A fault that is not one of the type. -/
def IsOfContent (e : DecodeError) : Prop := ∀ fault, e ≠ .type fault

theorem isOfContent_caseOf {cases : List Case} {entries : List (String × Content)} {path : Path}
    {e : DecodeError} (h : caseOf cases entries path = .error e) : IsOfContent e := by
  intro fault
  rintro rfl
  unfold caseOf at h
  repeat' split at h
  all_goals cases h

theorem isOfContent_leaf {shape : Shape} {c : Content} {path : Path} {e : DecodeError}
    (h : leaf ds shape c path = .error e) : IsOfContent e := by
  intro fault
  rintro rfl
  unfold leaf at h
  split at h
  · obtain ⟨cause, -, hcause⟩ := Outcome.mapError_eq_error.mp h
    cases hcause
  · unfold literal at h
    repeat' split at h
    all_goals cases h
  · unfold member at h
    dsimp only at h
    repeat' split at h
    all_goals cases h
  · cases h
  · cases h

theorem isOfContent_values {cs : List Content} {item : Shape}
    (each : ∀ c ∈ cs, ∀ path e, value ds c item path = .error e → IsOfContent e) {path : Path}
    {i : Nat} {e : DecodeError} (h : values ds cs item path i = .error e) : IsOfContent e := by
  induction cs generalizing i with
  | nil => cases h
  | cons c cs ih =>
    rw [values] at h
    rcases Outcome.bind_eq_error.mp h with h | ⟨v, -, h⟩
    · exact each c List.mem_cons_self _ _ h
    · rcases Outcome.bind_eq_error.mp h with h | ⟨vs, -, h⟩
      · exact ih (fun c hc => each c (List.mem_cons_of_mem _ hc)) h
      · cases h

theorem isOfContent_field {entries : List (String × Content)} {f : FieldShape}
    (each : ∀ e ∈ entries, ∀ path cause, value ds e.2 f.whole path = .error cause →
      IsOfContent cause) {path : Path} {e : DecodeError}
    (h : field ds entries f path = .error e) : IsOfContent e := by
  rcases field_eq_error h with ⟨-, -, rfl⟩ | ⟨c, hget, hvalue⟩
  · exact fun _ => by simp
  · exact each (f.key, c) (Entries.mem_of_get? hget) _ _ hvalue

/-- When the records that a shape reaches have fields, content that does not decode is at fault
itself. -/
theorem isOfContent_value (c : Content) {shape : Shape} (hresolves : Resolves ds shape)
    {path : Path} {e : DecodeError} (h : value ds c shape path = .error e) : IsOfContent e := by
  induction c using Content.members_induction generalizing shape path e with
  | null | bool | number | string =>
    cases fails_of_value h with
    | leaf failed => exact isOfContent_leaf failed
  | array items ih =>
    cases fails_of_value h with
    | leaf failed => exact isOfContent_leaf failed
    | items core failed =>
      have hitem := hresolves.of_reaches (.item_of_core core)
      exact isOfContent_values (fun c hc _ _ he => ih c hc hitem he) failed
  | object entries ih =>
    cases fails_of_value h with
    | leaf failed => exact isOfContent_leaf failed
    | case _ unnamed => exact isOfContent_caseOf unnamed
    | type belongs unresolved =>
      obtain ⟨fields, resolved⟩ := hresolves _ (.core shape) _ (mem_of_instanceOf? belongs)
      cases unresolved.symm.trans resolved
    | field belongs resolved mem failed =>
      have hfield :=
        hresolves.of_reaches (.field_of_core (mem_of_instanceOf? belongs) resolved mem)
      exact isOfContent_field (fun e he _ _ hcause => ih e he hfield hcause) failed

end Decoding

end StructuredOutput

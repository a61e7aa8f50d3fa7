import Mathlib
import StructuredOutput.Proofs.Codec.Decodes
import StructuredOutput.Proofs.Codec.EncodedKeys

/-!
How an instance of a case of a union is encoded. The discriminator is put down first and the fields
after it, each under its key; so it stands as long as no field has its key, and a field that has
takes its place.
-/

namespace StructuredOutput

variable {ds : Declarations} {shape : Shape} {name id : String} {description : Option String}
  {cases : List Case} {attrs : List (String × Value)} {fields : List FieldShape}
  {path : Path} {c : Content}

namespace Encoding

/-- An instance of a case is encoded as its discriminator and its fields, put down in this order. -/
theorem exists_entries_of_case (hunion : shape.core = .union name description cases)
    (hcase : id ∈ cases.map (·.record)) (h : value ds (.record id attrs) shape path = .ok c) :
    ∃ found fields entries, found ∈ cases ∧ found.record = id ∧ ds.fieldShapes id = .ok fields ∧
      FieldEntries ds attrs path fields entries ∧
        c = .ofEntries ((discriminatorKey, .string found.tag) :: entries) := by
  obtain ⟨found, hfound, hmem, hrecord⟩ := exists_caseOf? hcase
  simp only [value, hunion, hfound, Outcome.bind_eq_ok, Outcome.mapError_eq_ok] at h
  obtain ⟨fields, hfields, entries, hentries, h⟩ := h
  cases h
  exact ⟨found, fields, entries, hmem, hrecord, hfields, fieldEntries_of_mapM hentries, rfl⟩

/-- What a field under the key of the discriminator is encoded to stands in its place. -/
theorem exists_ofEntries_of_tagged {entries : List (String × Content)} {tag : Content}
    (hkeys : (fields.map (·.key)).Nodup) (hentries : FieldEntries ds attrs path fields entries)
    {f : FieldShape} (hf : f ∈ fields) (hkey : f.key = discriminatorKey) :
    ∃ inner rest, field ds attrs f path = .ok inner ∧
      Content.ofEntries ((discriminatorKey, tag) :: entries) =
        .object ((discriminatorKey, inner) :: rest) := by
  obtain ⟨⟨key, inner⟩, hmem, rfl, hinner⟩ := Outcome.exists_mem_right hentries hf
  have hnodup : (Entries.names entries).Nodup := hentries.names ▸ hkeys
  obtain ⟨w, rest, hput⟩ := Entries.exists_putAll_cons discriminatorKey tag [] entries
  have hget : Entries.get? (Entries.putAll [(discriminatorKey, tag)] entries) discriminatorKey =
      some inner := Entries.get?_putAll_of_mem hnodup (hkey ▸ hmem)
  rw [hput, Entries.get?_cons_self, Option.some.injEq] at hget
  refine ⟨inner, rest, hinner, ?_⟩
  rw [← hget, ← hput]
  rfl

end Encoding

/-- An object leads to a case: it begins with the discriminator of the record, goes on with one entry
for each of its fields, and is decoded as that case. -/
def LeadsTo (ds : Declarations) (id : String) (attrs : List (String × Value)) (cases : List Case)
    (fields : List FieldShape) (c : Content) : Prop :=
  ∃ entries, c = .object ((discriminatorKey, .string (ds.caseTag id)) :: entries) ∧
    Encoding.FieldEntries ds attrs .top fields entries ∧
    ∃ found, Decoding.caseOf cases ((discriminatorKey, .string (ds.caseTag id)) :: entries) .top =
      .ok found ∧ found.record = id

/-! ### A field under the key of the discriminator -/

/-- A mail whose kind travels under the key of the discriminator, and a ping. -/
def signals : Declarations :=
  ⟨"signals", [
    ("Mail", .record ⟨"Mail", none, none,
      [⟨"kind", .atom .text, some (.text "type"), none, false, none, true⟩,
        ⟨"body", .atom .text, none, none, false, none, true⟩]⟩),
    ("Ping", .record ⟨"Ping", none, none, []⟩)]⟩

namespace Signals

def signalType : TypeExpr := .union [.named "Mail", .named "Ping"]

def signalCases : List Case := [⟨"Mail", "mail"⟩, ⟨"Ping", "ping"⟩]

def signal : Shape := .union "MailOrPing" none signalCases

def mailFields : List FieldShape :=
  [⟨"kind", "type", .primitive .text [], false, none⟩,
    ⟨"body", "body", .primitive .text [], false, none⟩]

def mailAttrs : List (String × Value) := [("kind", .text "ping"), ("body", .text "hello")]

def mailContent : Content := .object [("type", .string "ping"), ("body", .string "hello")]

theorem shapeOf_signal : signals.shapeOf signalType = .ok signal := by cbv

theorem fieldShapes_mail : signals.fieldShapes "Mail" = .ok mailFields := by cbv

theorem fieldShapes_ping : signals.fieldShapes "Ping" = .ok [] := by cbv

theorem encode_mail : encode signals (.record "Mail" mailAttrs) (some signalType) =
    .ok mailContent := by
  have hfound : caseOf? signalCases "Mail" = some ⟨"Mail", "mail"⟩ := by decide
  simp [encode, shapeOf_signal, Encoding.value, signal, Shape.core, hfound, fieldShapes_mail,
    Except.mapError, mailFields, mailAttrs, bind, Except.bind, pure, Except.pure, Functor.map,
    Except.map, Encoding.field, Encoding.leaf, Encoding.primitive, List.mapM_cons, Value.base,
    Content.ofEntries, Entries.ofList, Entries.putAll, Entries.put, discriminatorKey, mailContent]

end Signals

/-- An instance of a case is encoded as an object that leads to the case just if no field of the
case has the key of the discriminator; a field that has replaces the discriminator. -/
theorem leadsTo_iff {t : TypeExpr} (hshape : ds.shapeOf t = .ok shape)
    (hunion : shape.core = .union name description cases) (hcase : id ∈ cases.map (·.record))
    (hencode : encode ds (.record id attrs) (some t) = .ok c) :
    ∃ fields, ds.fieldShapes id = .ok fields ∧
      (LeadsTo ds id attrs cases fields c ↔ discriminatorKey ∉ fields.map (·.key)) ∧
      ∀ f ∈ fields, f.key = discriminatorKey → ∃ inner rest,
        Encoding.field ds attrs f .top = .ok inner ∧
          c = .object ((discriminatorKey, inner) :: rest) := by
  have hcoherent : (Shape.union name description cases).Coherent ds :=
    hunion ▸ (Reaches.core shape).coherent (Declarations.coherent_of_shapeOf hshape)
  simp only [encode, hshape, Except.mapError, Outcome.bind_eq_ok] at hencode
  obtain ⟨_, hok, hencode⟩ := hencode
  cases hok
  have hdiffer := Encoding.keysDiffer_value _ hencode
  obtain ⟨found, fields, entries, hmem, rfl, hfields, hentries, rfl⟩ :=
    Encoding.exists_entries_of_case hunion hcase hencode
  have hkeys := (Declarations.fielded_of_fieldShapes hfields).keys
  have htag : found.tag = ds.caseTag found.record := hcoherent.2 found hmem
  refine ⟨fields, hfields, ⟨?_, fun huntagged => ?_⟩, fun f hf hkey =>
    Encoding.exists_ofEntries_of_tagged hkeys hentries hf hkey⟩
  · rintro ⟨rest, hobject, hrest, -⟩
    rw [hobject] at hdiffer
    have hnodup := hdiffer.1
    rw [Entries.names_cons, List.nodup_cons, hrest.names] at hnodup
    exact hnodup.1
  · refine ⟨entries, ?_, hentries, found, ?_, rfl⟩
    · rw [htag, Encoding.ofEntries_of_untagged _ hkeys hentries huntagged]
    · rw [Decoding.caseOf_eq_ok]
      exact ⟨_, Entries.get?_cons_self .., htag ▸ caseFor?_of_mem hmem hcoherent.1⟩

open Signals in
theorem leadsTo_iff_mail :
    signals.shapeOf signalType = .ok signal ∧ signal.core = signal ∧
      "Mail" ∈ signalCases.map (·.record) ∧
      encode signals (.record "Mail" mailAttrs) (some signalType) = .ok mailContent ∧
      ∃ fields, signals.fieldShapes "Mail" = .ok fields ∧
        (LeadsTo signals "Mail" mailAttrs signalCases fields mailContent ↔
          discriminatorKey ∉ fields.map (·.key)) ∧
        ∀ f ∈ fields, f.key = discriminatorKey → ∃ inner rest,
          Encoding.field signals mailAttrs f .top = .ok inner ∧
            mailContent = .object ((discriminatorKey, inner) :: rest) :=
  ⟨shapeOf_signal, rfl, by decide, encode_mail,
    leadsTo_iff shapeOf_signal rfl (by decide) encode_mail⟩

open Signals in
/-- A mail loses its discriminator to its kind, and what it is encoded to is decoded as a ping. -/
theorem not_leadsTo_mail :
    signals.shapeOf signalType = .ok signal ∧ "Mail" ∈ signalCases.map (·.record) ∧
      encode signals (.record "Mail" mailAttrs) (some signalType) = .ok mailContent ∧
      ¬LeadsTo signals "Mail" mailAttrs signalCases mailFields mailContent ∧
      decode signals mailContent signalType = .ok (.record "Ping" []) := by
  refine ⟨shapeOf_signal, by decide, encode_mail, ?_, ?_⟩
  · rintro ⟨entries, hcontent, -⟩
    have htag : signals.caseTag "Mail" = "mail" := by cbv
    rw [htag] at hcontent
    injection hcontent with hentries
    injection hentries with hfirst
    injection hfirst with hkey htext
    injection htext with hping
    revert hping
    decide
  · have hping : caseFor? signalCases "ping" = some ⟨"Ping", "ping"⟩ := by decide
    have hfields : signals.fields "Ping" = [] := by cbv
    simp [decode, shapeOf_signal, Decoding.value, signal, Shape.core, mailContent,
      Decoding.caseOf, Entries.get?, discriminatorKey, Content.asString, hping, fieldShapes_ping,
      Except.mapError, bind, Except.bind, pure, Except.pure, Declarations.instantiate, hfields]

end StructuredOutput

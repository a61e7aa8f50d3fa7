import StructuredOutput.Proofs.Codec.Canonical

/-!
What a snapshot shows of content that decodes: the whole value, in the form that snapshots have.
Only what content does not mention is not known, even where decoding takes it for null.
-/

namespace StructuredOutput

variable {ds : Declarations}

namespace Value

mutual

/-- A value as a snapshot shows it that knows all of it: sequences are tuples, and an instance is
its slots. A field that the content of the value does not mention is unknown. -/
def image (ds : Declarations) (v : Value) (c : Content) : Value :=
  match v with
  | list vs | tuple vs => tuple (images ds vs c.items)
  | record id attrs =>
    slots id ((ds.travelling id).map fun f => (f.attr, slotImage ds attrs c.entries f))
  | v => v

def images (ds : Declarations) (vs : List Value) (cs : List Content) : List Value :=
  match vs, cs with
  | v :: vs, c :: cs => image ds v c :: images ds vs cs
  | _, _ => []

/-- The slot of a field. -/
def slotImage (ds : Declarations) (attrs : List (String × Value))
    (entries : List (String × Content)) (f : FieldShape) : Value :=
  match attrs with
  | [] => unknown
  | (n, v) :: rest =>
    if n == f.attr then
      match Entries.get? entries f.key with
      | none => unknown
      | some c => image ds v c
    else slotImage ds rest entries f

end

theorem slotImage_eq {attrs : List (String × Value)} {f : FieldShape} {v : Value}
    (given : Entries.get? attrs f.attr = some v) (entries : List (String × Content)) :
    slotImage ds attrs entries f =
      match Entries.get? entries f.key with
      | none => unknown
      | some c => image ds v c := by
  induction attrs with
  | nil => cases given
  | cons e rest ih =>
    obtain ⟨n, w⟩ := e
    by_cases hn : n = f.attr
    · simp only [Entries.get?, hn, beq_self_eq_true, if_true, Option.some.injEq] at given
      simp [slotImage, hn, given]
    · simp only [Entries.get?, beq_eq_false_iff_ne.mpr hn, Bool.false_eq_true, if_false] at given
      simpa [slotImage, hn] using ih given

end Value

namespace Snapshot

open Value

/-- What is held is no snapshot in which nothing is known. -/
theorem isUnknown_image_of_holds {c : Content} {shape : Shape} {v : Value}
    (h : Holds ds c shape v) (c' : Content) : (v.image ds c').isUnknown = false := by
  cases h with
  | @array _ _ container => cases container <;> simp [Container.collect, image, isUnknown]
  | _ => simp [image, isUnknown, EnumDecl.memberValue]

theorem known_of_holds {items : List Content} {vs : List Value} {item : Shape}
    (length : items.length = vs.length)
    (each : ∀ p ∈ items.zip vs, Holds ds p.1 item p.2 ∧
      value ds p.1 item = .ok (p.2.image ds p.1)) :
    known ds items item = .ok (images ds vs items) := by
  induction items generalizing vs with
  | nil =>
    obtain rfl := List.length_eq_zero_iff.mp length.symm
    simp [known, images]
  | cons c cs ih =>
    obtain ⟨v, vs, rfl⟩ := List.exists_cons_of_length_eq_add_one length.symm
    rw [List.zip_cons_cons, List.forall_mem_cons] at each
    obtain ⟨⟨hholds, hvalue⟩, hrest⟩ := each
    have hknown := isUnknown_image_of_holds hholds c
    simp [known, hvalue, hknown, ih (Nat.succ.inj length) hrest, images, bind, Except.bind]

theorem slot_of_holds {entries : List (String × Content)} {attrs : List (String × Value)}
    {f : FieldShape} (given : ∃ v, Entries.get? attrs f.attr = some v)
    (present : ∀ c v, Entries.get? entries f.key = some c → Entries.get? attrs f.attr = some v →
      value ds c f.whole = .ok (v.image ds c)) :
    slot ds entries f = .ok (slotImage ds attrs entries f) := by
  obtain ⟨v, hv⟩ := given
  rw [slot_eq, slotImage_eq hv]
  cases hget : Entries.get? entries f.key with
  | none => rfl
  | some c => exact present c v hget hv

/-- The slots of an instance are those of its fields. -/
theorem slots_of_holds {entries : List (String × Content)} {attrs : List (String × Value)}
    {fields : List FieldShape}
    (each : ∀ f ∈ fields, slot ds entries f = .ok (slotImage ds attrs entries f)) :
    (fields.mapM fun f => (f.attr, ·) <$> slot ds entries f) =
      .ok (fields.map fun f => (f.attr, slotImage ds attrs entries f)) := by
  rw [Outcome.mapM_eq_ok, List.forall₂_map_right_iff, List.forall₂_same]
  intro f hf
  exact Outcome.functorMap_eq_ok.mpr ⟨_, each f hf, rfl⟩

/-- Content that holds a value tells all of it. -/
theorem value_of_holds {c : Content} {shape : Shape} {v : Value} (h : Holds ds c shape v) :
    value ds c shape = .ok (v.image ds c) := by
  induction h with
  | null optional => simp [value, optional, Content.isNull, Content.kind, image]
  | text core s | bool core b | real core x =>
    simp [value, Content.isNull, Content.kind, core, leaf, primitive,
      image]
  | integer core integral =>
    simp [value, Content.isNull, Content.kind, core, leaf, primitive,
      Double.toInt?, integral, image]
  | literal core option =>
    simp [value, Content.isNull, Content.kind, core, leaf, option,
      image]
  | member core declared =>
    simp [value, Content.isNull, Content.kind, core, leaf, declared,
      image, EnumDecl.memberValue]
  | @array shape item container constraints items vs core length each ih =>
    have hknown := known_of_holds length fun p hp => ⟨each p hp, ih p hp⟩
    cases container <;>
      simp [value, core, hknown, Except.map, Container.collect, image, Content.items]
  | @object shape entries id fields attrs belongs resolved given absent present ih =>
    have hslots := slots_of_holds fun f hf => slot_of_holds (given f hf) (ih f hf)
    simp [value_object belongs, resolved, hslots, image, Declarations.travelling_eq resolved,
      Content.entries]

end Snapshot

/-- Content always tells something about a value, and of content that decodes it tells the whole
value as snapshots show it. -/
theorem snapshot_of_decode {t : TypeExpr} {shape : Shape} (hshape : ds.shapeOf t = .ok shape)
    (hresolves : Resolves ds shape) (c : Content) :
    (∃ seen, snapshot ds c t = .ok seen) ∧
      ∀ v, decode ds c t = .ok v → snapshot ds c t = .ok (v.image ds c) := by
  refine ⟨exists_snapshot hshape hresolves c, fun v hv => ?_⟩
  simp [snapshot, hshape, Snapshot.value_of_holds (holds_of_decode hshape hv)]

namespace Forest

def looseForkSlots : Value :=
  .slots "Fork" [("front", .slots "Leaf" [("size", .integer 3)]), ("back", .unknown)]

theorem image_looseFork :
    (forkValue (leafValue 3) .null).image forest looseFork = looseForkSlots := by
  simp [forkValue, leafValue, looseFork, Value.image, Declarations.travelling_eq fieldShapes_fork,
    Declarations.travelling_eq fieldShapes_leaf, forkFields, leafFields, Value.slotImage,
    Content.entries, Entries.get?, looseForkSlots]

end Forest

open Forest in
theorem snapshot_of_decode_looseFork :
    forest.shapeOf (.named "Fork") = .ok fork ∧ Resolves forest fork ∧
      decode forest looseFork (.named "Fork") = .ok (forkValue (leafValue 3) .null) ∧
      snapshot forest looseFork (.named "Fork") = .ok looseForkSlots :=
  ⟨shapeOf_fork, resolves, decode_looseFork,
    image_looseFork ▸ (snapshot_of_decode shapeOf_fork resolves looseFork).2 _ decode_looseFork⟩

end StructuredOutput

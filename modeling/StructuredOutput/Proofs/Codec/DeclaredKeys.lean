import Mathlib.Logic.Relation
import StructuredOutput.Proofs.Codec.Canonical

/-!
Decoding looks at the declared keys only: changes that leave them as they are change neither the
value nor the error.
-/

namespace StructuredOutput

variable {ds : Declarations}

/-- The fields that are looked up in an object of a shape: those of the record that it is an instance
of. An object that is no instance of any record has none. -/
def soughtFields (ds : Declarations) (entries : List (String × Content)) (shape : Shape) :
    List FieldShape :=
  match instanceOf? entries shape with
  | some id => ds.travelling id
  | none => []

/-- Whether the values of a shape are instances of records. -/
def Shape.isFielded : Shape → Bool
  | .record _ _ _ | .union _ _ _ => true
  | _ => false

/-- Whether the discriminator is looked up in the objects of a shape. -/
def Shape.isUnion : Shape → Bool
  | .union _ _ _ => true
  | _ => false

/-- One change to content of a shape at a place where decoding does not look: the entries of an
object are put in another order, an entry is dropped that nothing declares, or null is dropped for
an optional field. Such a change may stand inside an item or the entry of a field. -/
inductive Immaterial (ds : Declarations) : Shape → Content → Content → Prop
  | reorder {shape : Shape} {entries entries' : List (String × Content)}
      (fielded : shape.core.isFielded = true) (keys : (Entries.names entries).Nodup)
      (perm : entries.Perm entries') :
      Immaterial ds shape (.object entries) (.object entries')
  | undeclared {shape : Shape} (before after : List (String × Content)) {key : String}
      (fielded : shape.core.isFielded = true)
      (noField : key ∉ (soughtFields ds (before ++ after) shape.core).map (·.key))
      (noTag : shape.core.isUnion = true → key ≠ discriminatorKey) (c : Content) :
      Immaterial ds shape (.object (before ++ (key, c) :: after)) (.object (before ++ after))
  | null {shape : Shape} (before after : List (String × Content)) {f : FieldShape}
      (sought : f ∈ soughtFields ds (before ++ after) shape.core) (optional : f.optional = true)
      (absent : f.key ∉ Entries.names (before ++ after)) :
      Immaterial ds shape (.object (before ++ (f.key, .null) :: after)) (.object (before ++ after))
  | item {shape item : Shape} {container : Container} {constraints : List Constraint}
      (before after : List Content) {c d : Content}
      (core : shape.core = .array item container constraints) (inside : Immaterial ds item c d) :
      Immaterial ds shape (.array (before ++ c :: after)) (.array (before ++ d :: after))
  | entry {shape : Shape} (before after : List (String × Content)) {f : FieldShape} {c d : Content}
      (sought : f ∈ soughtFields ds (before ++ (f.key, c) :: after) shape.core)
      (inside : Immaterial ds f.whole c d) :
      Immaterial ds shape (.object (before ++ (f.key, c) :: after))
        (.object (before ++ (f.key, d) :: after))

/-! ### What is looked up -/

theorem exists_of_mem_soughtFields {entries : List (String × Content)} {shape : Shape}
    {f : FieldShape} (h : f ∈ soughtFields ds entries shape) :
    ∃ id ∈ shape.records, ∃ fields, ds.fieldShapes id = .ok fields ∧ f ∈ fields ∧
      soughtFields ds entries shape = fields := by
  unfold soughtFields at h ⊢
  cases hid : instanceOf? entries shape with
  | none =>
    rw [hid] at h
    cases h
  | some id =>
    simp only [hid] at h ⊢
    cases hfields : ds.fieldShapes id with
    | error fault =>
      rw [Declarations.travelling, hfields] at h
      cases h
    | ok fields =>
      rw [Declarations.travelling_eq hfields] at h ⊢
      exact ⟨id, mem_of_instanceOf? hid, fields, hfields, h, rfl⟩

/-- The fields that are looked up are reached, so that changes inside them are changes of shapes
that are reached. -/
theorem reaches_of_mem_soughtFields {entries : List (String × Content)} {shape : Shape}
    {f : FieldShape} (h : f ∈ soughtFields ds entries shape.core) : Reaches ds shape f.whole := by
  obtain ⟨id, hid, fields, hfields, hf, -⟩ := exists_of_mem_soughtFields h
  exact .field_of_core hid hfields hf

/-- A field that is looked up is told by its key. -/
theorem eq_of_mem_soughtFields {entries : List (String × Content)} {shape : Shape}
    {f g : FieldShape} (hf : f ∈ soughtFields ds entries shape)
    (hg : g ∈ soughtFields ds entries shape) (hkey : f.key = g.key) : f = g := by
  obtain ⟨id, -, fields, hfields, hmem, hsought⟩ := exists_of_mem_soughtFields hf
  exact List.inj_on_of_nodup_map (Declarations.fielded_of_fieldShapes hfields).keys hmem
    (hsought ▸ hg) hkey

/-- No field that is looked up in the object of a union has the key of the discriminator. -/
theorem Untagged.key_ne {shape : Shape} (huntagged : Untagged ds shape)
    {entries : List (String × Content)} {f : FieldShape}
    (h : f ∈ soughtFields ds entries shape.core) (hunion : shape.core.isUnion = true) :
    f.key ≠ discriminatorKey := by
  obtain ⟨id, hid, fields, hfields, hf, -⟩ := exists_of_mem_soughtFields h
  have hreach : Reaches ds shape shape.core := .core shape
  cases hcore : shape.core with
  | union name description cases =>
    rw [hcore] at hid hreach
    obtain ⟨one, hone, rfl⟩ := List.mem_map.mp hid
    intro hkey
    exact huntagged name description cases hreach one hone fields hfields
      (hkey ▸ List.mem_map_of_mem hf)
  | _ =>
    rw [hcore] at hunion
    cases hunion

/-- An entry is not looked at under any other key. -/
theorem get?_entry_of_ne {key n : String} (hn : key ≠ n) (before after : List (String × Content))
    (c : Content) : Entries.get? (before ++ (key, c) :: after) n =
      Entries.get? (before ++ after) n := by
  rw [Entries.get?_append, Entries.get?_append, Entries.get?_cons_of_ne c after hn]

/-- Objects that agree on the discriminator are instances of the same record. -/
theorem soughtFields_congr {entries entries' : List (String × Content)} {shape : Shape}
    (h : shape.isUnion = true →
      Entries.get? entries discriminatorKey = Entries.get? entries' discriminatorKey) :
    soughtFields ds entries shape = soughtFields ds entries' shape := by
  cases shape with
  | union name description cases =>
    simp only [soughtFields, instanceOf?, Snapshot.caseOf?, h rfl]
  | _ => rfl

namespace Decoding

/-- Objects decode alike if they agree on the discriminator and the fields that are looked up decode
alike. -/
theorem value_object_congr {entries entries' : List (String × Content)} {shape : Shape} {path : Path}
    (htag : shape.core.isUnion = true →
      Entries.get? entries discriminatorKey = Entries.get? entries' discriminatorKey)
    (hfields : ∀ f ∈ soughtFields ds entries shape.core,
      field ds entries f path = field ds entries' f path) :
    value ds (.object entries) shape path = value ds (.object entries') shape path := by
  -- An instance is made from the results for its fields.
  have hinstance {id : String} (hid : instanceOf? entries shape.core = some id) :
      ((ds.fieldShapes id).mapError DecodeError.type >>= fun fields =>
        (fields.mapM fun f => (f.attr, ·) <$> field ds entries f path) >>= fun given =>
          Except.ok (ds.instantiate id given)) =
      ((ds.fieldShapes id).mapError DecodeError.type >>= fun fields =>
        (fields.mapM fun f => (f.attr, ·) <$> field ds entries' f path) >>= fun given =>
          Except.ok (ds.instantiate id given)) := by
    cases hshapes : ds.fieldShapes id with
    | error fault => rfl
    | ok fields =>
      have hsought : soughtFields ds entries shape.core = fields := by
        simp only [soughtFields, hid, Declarations.travelling_eq hshapes]
      have hgiven : (fields.mapM fun f => (f.attr, ·) <$> field ds entries f path) =
          fields.mapM fun f => (f.attr, ·) <$> field ds entries' f path :=
        Outcome.mapM_congr fun f hf => by rw [hfields f (hsought ▸ hf)]
      exact congrArg (· >>= fun given => Except.ok (ds.instantiate id given)) hgiven
  rw [value, value]
  cases hcore : shape.core with
  | record id name description =>
    exact hinstance (by rw [hcore, instanceOf?])
  | union name description cases =>
    have hcase : caseOf cases entries path = caseOf cases entries' path := by
      rw [caseOf, caseOf, htag (by rw [hcore]; rfl)]
    simp only [← hcase]
    cases hfound : caseOf cases entries path with
    | error e => rfl
    | ok found =>
      exact hinstance (by rw [hcore, instanceOf?, caseOf_eq_ok_iff.mp hfound, Option.map_some])
  | primitive type constraints => cases type <;> rfl
  | _ => rfl

theorem field_congr {entries entries' : List (String × Content)} {f : FieldShape}
    (h : Entries.get? entries f.key = Entries.get? entries' f.key) (path : Path) :
    field ds entries f path = field ds entries' f path := by
  rw [field_eq, field_eq, h]

/-- An optional field that is null decodes like one that is absent. -/
theorem field_null {entries entries' : List (String × Content)} {f : FieldShape}
    (optional : f.optional = true) (present : Entries.get? entries f.key = some .null)
    (absent : Entries.get? entries' f.key = none) (path : Path) :
    field ds entries f path = field ds entries' f path := by
  rw [field_eq, field_eq, present, absent]
  simp only [FieldShape.whole, optional, if_true, value_optional_null]

theorem values_congr (before after : List Content) {c d : Content} {item : Shape}
    (h : ∀ path, value ds c item path = value ds d item path) (path : Path) (i : Nat) :
    values ds (before ++ c :: after) item path i =
      values ds (before ++ d :: after) item path i := by
  induction before generalizing i with
  | nil => rw [List.nil_append, List.nil_append, values, values, h]
  | cons b before ih => rw [List.cons_append, List.cons_append, values, values, ih]

end Decoding

/-! ### Immaterial changes -/

/-- A change where decoding does not look leaves the outcome as it is, wherever the content
stands. -/
theorem Immaterial.value_eq {shape : Shape} {c d : Content} (h : Immaterial ds shape c d)
    (huntagged : Untagged ds shape) (path : Path) :
    Decoding.value ds c shape path = Decoding.value ds d shape path := by
  induction h generalizing path with
  | reorder _ keys perm =>
    exact Decoding.value_object_congr (fun _ => Entries.get?_perm keys perm _)
      fun f _ => Decoding.field_congr (Entries.get?_perm keys perm f.key) path
  | @undeclared shape before after key _ noField noTag c =>
    have htag (hunion : shape.core.isUnion = true) :=
      get?_entry_of_ne (noTag hunion) before after c
    refine Decoding.value_object_congr htag fun f hf => ?_
    rw [soughtFields_congr htag] at hf
    have hkey : key ≠ f.key := fun hkey => noField (hkey ▸ List.mem_map_of_mem hf)
    exact Decoding.field_congr (get?_entry_of_ne hkey before after c) path
  | @null shape before after f sought optional absent =>
    have hnull : Entries.get? (before ++ (f.key, .null) :: after) f.key = some .null := by
      rw [Entries.names_append, List.mem_append, not_or] at absent
      rw [Entries.get?_append, Entries.get?_eq_none.mpr absent.1, Entries.get?_cons_self]
      rfl
    have htag (hunion : shape.core.isUnion = true) :=
      get?_entry_of_ne (huntagged.key_ne sought hunion) before after .null
    refine Decoding.value_object_congr htag fun g hg => ?_
    rw [soughtFields_congr htag] at hg
    by_cases hkey : f.key = g.key
    · obtain rfl := eq_of_mem_soughtFields sought hg hkey
      exact Decoding.field_null optional hnull (Entries.get?_eq_none.mpr absent) path
    · exact Decoding.field_congr (get?_entry_of_ne hkey before after .null) path
  | @item shape item container constraints before after c d core _ ih =>
    have hitem := huntagged.of_reaches (.item_of_core core)
    rw [Decoding.value_array core, Decoding.value_array core,
      Decoding.values_congr before after (ih hitem)]
  | @entry shape before after f c d sought _ ih =>
    have hget {n : String} (hn : f.key ≠ n) : Entries.get? (before ++ (f.key, c) :: after) n =
        Entries.get? (before ++ (f.key, d) :: after) n := by
      rw [get?_entry_of_ne hn, get?_entry_of_ne hn]
    refine Decoding.value_object_congr (fun hunion => hget (huntagged.key_ne sought hunion))
      fun g hg => ?_
    by_cases hkey : f.key = g.key
    · obtain rfl := eq_of_mem_soughtFields sought hg hkey
      rw [Decoding.field_eq, Decoding.field_eq, Entries.get?_append, Entries.get?_append,
        Entries.get?_cons_self, Entries.get?_cons_self]
      cases Entries.get? before f.key with
      | some _ => rfl
      | none => exact ih (huntagged.of_reaches (reaches_of_mem_soughtFields sought)) _
    · exact Decoding.field_congr (hget hkey) path

/-- Content that is changed, any number of times and in any direction, where decoding does not look
decodes to the same value or with the same error. -/
theorem decode_eq_of_immaterial {t : TypeExpr} {shape : Shape} {c d : Content}
    (hshape : ds.shapeOf t = .ok shape) (huntagged : Untagged ds shape)
    (h : Relation.EqvGen (Immaterial ds shape) c d) : decode ds c t = decode ds d t := by
  rw [decode_eq hshape, decode_eq hshape]
  induction h with
  | rel _ _ hstep => exact hstep.value_eq huntagged .top
  | refl => rfl
  | symm _ _ _ ih => exact ih.symm
  | trans _ _ _ _ _ ih ih' => exact ih.trans ih'

namespace Forest

theorem soughtFields_fork (entries : List (String × Content)) :
    soughtFields forest entries fork.core = forkFields := by
  rw [show fork.core = .record "Fork" "Fork" none from rfl, soughtFields, instanceOf?]
  exact Declarations.travelling_eq fieldShapes_fork

/-- The undeclared entry goes, the leaf is put in order, and null is told for what is behind. -/
theorem immaterial_looseFork : Relation.EqvGen (Immaterial forest fork) looseFork bareFork := by
  have hdrop : Immaterial forest fork looseFork
      (.object [("value", .object [("size", .number three), ("type", .string "leaf")])]) :=
    .undeclared [] _ rfl (by rw [soughtFields_fork]; decide) (fun h => by cases h) (.array [])
  have hfront : ⟨"front", "value", tree, false, none⟩ ∈ forkFields := List.mem_cons_self
  have hsort : Immaterial forest fork
      (.object [("value", .object [("size", .number three), ("type", .string "leaf")])])
      (.object [("value", .object [("type", .string "leaf"), ("size", .number three)])]) :=
    .entry [] _ (soughtFields_fork _ ▸ hfront) (.reorder rfl (by decide) (.swap _ _ _))
  have hback : ⟨"back", "behind", tree, true, none⟩ ∈ forkFields :=
    List.mem_cons_of_mem _ List.mem_cons_self
  have hnull : Immaterial forest fork bareFork
      (.object [("value", .object [("type", .string "leaf"), ("size", .number three)])]) :=
    .null [_] [] (soughtFields_fork _ ▸ hback) rfl (by decide)
  exact .trans _ _ _ (.trans _ _ _ (.rel _ _ hdrop) (.rel _ _ hsort)) (.symm _ _ (.rel _ _ hnull))

end Forest

open Forest in
theorem decode_looseFork_eq_bareFork :
    forest.shapeOf (.named "Fork") = .ok fork ∧ Untagged forest fork ∧
      Relation.EqvGen (Immaterial forest fork) looseFork bareFork ∧
      decode forest looseFork (.named "Fork") = decode forest bareFork (.named "Fork") :=
  ⟨shapeOf_fork, untagged, immaterial_looseFork,
    decode_eq_of_immaterial shapeOf_fork untagged immaterial_looseFork⟩

end StructuredOutput

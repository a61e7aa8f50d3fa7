import StructuredOutput.Proofs.Codec.Discriminator
import StructuredOutput.Proofs.Codec.Holds
import StructuredOutput.Proofs.Codec.Integers
import StructuredOutput.Proofs.Stream.Completion

/-!
The canonical form of content. Content may leave optional fields out, hold keys that nothing
declares and give its entries in any order; what it is decoded to is encoded without any of that, and
is otherwise the same.
-/

namespace StructuredOutput

namespace Content

mutual

/-- The canonical form of content of a shape: an object has one entry for each declared field, in
their order and after the discriminator if there is one; everything else is kept. -/
def canonical (ds : Declarations) (c : Content) (shape : Shape) : Content :=
  match c with
  | array items =>
    match shape.core with
    | .array item _ _ => array (canonicalItems ds items item)
    | _ => array items
  | object entries =>
    match shape.core with
    | .record id _ _ =>
      object ((ds.travelling id).map fun f => (f.key, canonicalEntry ds entries f))
    | .union _ _ cases =>
      match Snapshot.caseOf? cases entries with
      | some found =>
        object ((discriminatorKey, string found.tag) ::
          (ds.travelling found.record).map fun f => (f.key, canonicalEntry ds entries f))
      | none => object entries
    | _ => object entries
  | c => c

def canonicalItems (ds : Declarations) (items : List Content) (item : Shape) : List Content :=
  match items with
  | [] => []
  | c :: cs => canonical ds c item :: canonicalItems ds cs item

/-- The canonical form of the entry of a field, null if there is none. -/
def canonicalEntry (ds : Declarations) (entries : List (String × Content)) (f : FieldShape) :
    Content :=
  match entries with
  | [] => null
  | (k, c) :: rest => if k == f.key then canonical ds c f.shape else canonicalEntry ds rest f

end

variable {ds : Declarations}

theorem canonical_of_isScalar {c : Content} (h : c.isScalar = true) (shape : Shape) :
    canonical ds c shape = c := by
  cases c with
  | array | object => cases h
  | _ => rw [canonical] <;> simp

theorem canonical_array {items : List Content} {shape item : Shape} {container : Container}
    {constraints : List Constraint} (core : shape.core = .array item container constraints) :
    canonical ds (array items) shape = array (canonicalItems ds items item) := by
  rw [canonical, core]

theorem canonical_record {entries : List (String × Content)} {shape : Shape} {id name : String}
    {description : Option String} {fields : List FieldShape}
    (core : shape.core = .record id name description) (resolved : ds.fieldShapes id = .ok fields) :
    canonical ds (object entries) shape =
      object (fields.map fun f => (f.key, canonicalEntry ds entries f)) := by
  rw [canonical, core]
  simp only [Declarations.travelling_eq resolved]

theorem canonical_union {entries : List (String × Content)} {shape : Shape} {name : String}
    {description : Option String} {cases : List Case} {found : Case} {fields : List FieldShape}
    (core : shape.core = .union name description cases)
    (named : Snapshot.caseOf? cases entries = some found)
    (resolved : ds.fieldShapes found.record = .ok fields) :
    canonical ds (object entries) shape =
      object ((discriminatorKey, string found.tag) ::
        fields.map fun f => (f.key, canonicalEntry ds entries f)) := by
  rw [canonical, core]
  simp only [named, Declarations.travelling_eq resolved]

theorem canonical_congr (c : Content) {s t : Shape} (h : s.core = t.core) :
    canonical ds c s = canonical ds c t := by
  cases c with
  | array | object => rw [canonical, canonical, h]
  | _ => rw [canonical, canonical] <;> simp

theorem canonicalEntry_eq (entries : List (String × Content)) (f : FieldShape) :
    canonicalEntry ds entries f =
      match Entries.get? entries f.key with
      | none => null
      | some c => canonical ds c f.whole := by
  induction entries with
  | nil => rfl
  | cons e rest ih =>
    obtain ⟨k, c⟩ := e
    by_cases hk : k = f.key
    · simp [canonicalEntry, Entries.get?, hk, canonical_congr c f.core_whole]
    · simpa [canonicalEntry, Entries.get?, hk] using ih

end Content

/-- The integer of a whole double is the double of that integer again. -/
theorem Double.exists_ofInt_truncate {x : Double} (h : x.isIntegral = true) :
    ∃ y, Floating.ofInt x.truncate = .finite y ∧ y.sameValue x = true := by
  have hunits := signedUnits_truncate h
  obtain ⟨y, hy, hn⟩ := exists_ofInt_of_signedUnits hunits
  obtain ⟨hintegral, hn⟩ := toInt?_eq_some.mp hn
  refine ⟨y, hy, beq_iff_eq.mpr ?_⟩
  rw [hunits, ← hn, signedUnits_truncate hintegral]

/-- A value is encoded as content, numbers apart that have the same value. -/
def EncodesAs (ds : Declarations) (v : Value) (shape : Shape) (c : Content) : Prop :=
  ∀ path, ∃ c', Encoding.value ds v shape path = .ok c' ∧ c'.same c = true

namespace EncodesAs

open Content Encoding

variable {ds : Declarations} {shape item : Shape} {container : Container}
  {constraints : List Constraint} {id : String} {attrs : List (String × Value)}
  {entries : List (String × Content)} {fields : List FieldShape}

theorem scalar {c : Content} {v : Value} (hscalar : c.isScalar = true)
    (encoded : ∀ path, value ds v shape path = .ok c) :
    EncodesAs ds v shape (c.canonical ds shape) := by
  rw [canonical_of_isScalar hscalar]
  refine fun path => ⟨c, encoded path, ?_⟩
  cases c with
  | array | object => cases hscalar
  | _ => simp [same, Double.sameValue]

/-! ### Items -/

theorem values {items : List Content} {vs : List Value} (length : items.length = vs.length)
    (each : ∀ p ∈ items.zip vs, EncodesAs ds p.2 item (p.1.canonical ds item)) (path : Path)
    (i : Nat) : ∃ cs, Encoding.values ds vs item path i = .ok cs ∧
      sameItems cs (canonicalItems ds items item) = true := by
  induction items generalizing vs i with
  | nil =>
    obtain rfl := List.length_eq_zero_iff.mp length.symm
    exact ⟨[], rfl, by simp [canonicalItems, sameItems]⟩
  | cons c cs ih =>
    obtain ⟨v, vs, rfl⟩ := List.exists_cons_of_length_eq_add_one length.symm
    rw [List.zip_cons_cons, List.forall_mem_cons] at each
    obtain ⟨c', hc', hsame⟩ := each.1 (path.index i)
    obtain ⟨cs', hcs', hsames⟩ := ih (Nat.succ.inj length) each.2 (i + 1)
    exact ⟨c' :: cs', by simp [Encoding.values, hc', hcs'],
      by simp [canonicalItems, sameItems, hsame, hsames]⟩

theorem array {items : List Content} {vs : List Value}
    (core : shape.core = .array item container constraints) (length : items.length = vs.length)
    (each : ∀ p ∈ items.zip vs, EncodesAs ds p.2 item (p.1.canonical ds item)) :
    EncodesAs ds (container.collect vs) shape ((Content.array items).canonical ds shape) := by
  intro path
  obtain ⟨cs, hcs, hsame⟩ := values length each path 0
  refine ⟨.array cs, ?_, by rwa [canonical_array core, same]⟩
  rw [value_collect core, hcs, Except.map]

/-! ### Fields -/

theorem field {f : FieldShape} {v : Value} (given : Entries.get? attrs f.attr = some v)
    (h : EncodesAs ds v f.whole (canonicalEntry ds entries f)) (path : Path) :
    ∃ c, Encoding.field ds attrs f path = .ok c ∧
      c.same (canonicalEntry ds entries f) = true := by
  simpa only [field_eq, given] using h (path.key f.key)

theorem fieldEntries (each : ∀ f ∈ fields, ∃ v, Entries.get? attrs f.attr = some v ∧
      EncodesAs ds v f.whole (canonicalEntry ds entries f)) (path : Path) :
    ∃ es, (fields.mapM fun f => (f.key, ·) <$> Encoding.field ds attrs f path) = .ok es ∧
      sameEntries es (fields.map fun f => (f.key, canonicalEntry ds entries f)) = true := by
  induction fields with
  | nil => exact ⟨[], rfl, by simp [sameEntries]⟩
  | cons f fields ih =>
    obtain ⟨v, given, hv⟩ := each f List.mem_cons_self
    obtain ⟨c, hc, hsame⟩ := field given hv path
    obtain ⟨es, hes, hsames⟩ := ih fun g hg => each g (List.mem_cons_of_mem f hg)
    refine ⟨(f.key, c) :: es, ?_, by simp [sameEntries, hsame, hsames]⟩
    simp [List.mapM_cons, hc, hes]

/-! ### Instances -/

theorem record {name : String} {description : Option String}
    (core : shape.core = .record id name description) (resolved : ds.fieldShapes id = .ok fields)
    (each : ∀ f ∈ fields, ∃ v, Entries.get? attrs f.attr = some v ∧
      EncodesAs ds v f.whole (canonicalEntry ds entries f)) :
    EncodesAs ds (.record id attrs) shape ((Content.object entries).canonical ds shape) := by
  intro path
  obtain ⟨es, hes, hsame⟩ := fieldEntries each path
  exact ⟨.object es, value_record core resolved hes, by rwa [canonical_record core resolved, same]⟩

theorem union {name : String} {description : Option String} {cases : List Case} {found : Case}
    (core : shape.core = .union name description cases)
    (coherent : (Shape.union name description cases).Coherent ds)
    (named : Snapshot.caseOf? cases entries = some found)
    (resolved : ds.fieldShapes found.record = .ok fields)
    (untagged : discriminatorKey ∉ fields.map (·.key))
    (each : ∀ f ∈ fields, ∃ v, Entries.get? attrs f.attr = some v ∧
      EncodesAs ds v f.whole (canonicalEntry ds entries f)) :
    EncodesAs ds (.record found.record attrs) shape
      ((Content.object entries).canonical ds shape) := by
  intro path
  obtain ⟨es, hes, hsame⟩ := fieldEntries each path
  have hmem : found ∈ cases := Snapshot.mem_of_caseOf? named
  obtain ⟨found', hfound', hmem', hrecord⟩ := exists_caseOf? (List.mem_map_of_mem hmem)
  have htag : found'.tag = found.tag := by
    rw [coherent.2 found' hmem', coherent.2 found hmem, hrecord]
  refine ⟨.object ((discriminatorKey, .string found.tag) :: es),
    htag ▸ value_case core hfound' resolved untagged hes, ?_⟩
  rw [canonical_union core named resolved]
  simpa [same, sameEntries] using hsame

end EncodesAs

/-! ### Values -/

/-- The value that content holds is encoded as the canonical form of the content. -/
theorem Holds.encodesAs {ds : Declarations} {c : Content} {shape : Shape} {v : Value}
    (h : Holds ds c shape v) (coherent : shape.Coherent ds) (untagged : Untagged ds shape) :
    EncodesAs ds v shape (c.canonical ds shape) := by
  induction h with
  | null optional =>
    exact .scalar rfl fun path => by simp [Encoding.value, optional]
  | text core s => exact .scalar rfl (Encoding.value_text core s)
  | bool core b => exact .scalar rfl (Encoding.value_bool core b)
  | real core x => exact .scalar rfl (Encoding.value_real core x)
  | integer core integral =>
    obtain ⟨y, hy, hsame⟩ := Double.exists_ofInt_truncate integral
    exact fun path => ⟨.number y, Encoding.value_integer core hy path,
      by simpa [Content.canonical, Content.same] using hsame⟩
  | literal core option => exact .scalar rfl (Encoding.value_literal core _)
  | @member shape id name wire description m core declared =>
    obtain ⟨_, -, hwire⟩ := List.mem_map.mp (Entries.mem_of_get? declared)
    cases hwire
    exact .scalar rfl (Encoding.value_member core m)
  | @array shape item container constraints items vs core length each ih =>
    have hreach : Reaches ds shape item := .item_of_core core
    exact EncodesAs.array core length fun p hp =>
      ih p hp (hreach.coherent coherent) (untagged.of_reaches hreach)
  | @object shape entries id fields attrs belongs resolved given absent present ih =>
    have hcore : Reaches ds shape shape.core := .core shape
    have hid : id ∈ shape.core.records := mem_of_instanceOf? belongs
    have each : ∀ f ∈ fields, ∃ v, Entries.get? attrs f.attr = some v ∧
        EncodesAs ds v f.whole (Content.canonicalEntry ds entries f) := by
      intro f hf
      have hreach : Reaches ds shape f.whole := .field_of_core hid resolved hf
      obtain ⟨v, hv⟩ := given f hf
      refine ⟨v, hv, ?_⟩
      rw [Content.canonicalEntry_eq]
      cases hget : Entries.get? entries f.key with
      | some c => exact ih f hf c v hget hv (hreach.coherent coherent) (untagged.of_reaches hreach)
      | none =>
        obtain ⟨hoptional, hnull⟩ := absent f hf hget
        rw [hv] at hnull
        cases hnull
        rw [FieldShape.whole, if_pos hoptional]
        exact fun path => ⟨.null, Encoding.value_optional_null f.shape path, rfl⟩
    cases hshape : shape.core with
    | record id' name description =>
      rw [hshape] at belongs
      cases belongs
      exact EncodesAs.record hshape resolved each
    | union name description cases =>
      rw [hshape] at belongs hcore
      obtain ⟨found, named, rfl⟩ := Option.map_eq_some_iff.mp belongs
      have hkey := untagged name description cases hcore found (Snapshot.mem_of_caseOf? named)
        fields resolved
      exact EncodesAs.union hshape (hcore.coherent coherent) named resolved hkey each
    | _ =>
      rw [hshape] at belongs
      cases belongs

/-- What content is decoded to is encoded as the canonical form of the content. -/
theorem encode_of_decode {ds : Declarations} {t : TypeExpr} {shape : Shape} {c : Content}
    {v : Value} (hshape : ds.shapeOf t = .ok shape) (huntagged : Untagged ds shape)
    (h : decode ds c t = .ok v) :
    ∃ c', encode ds v (some t) = .ok c' ∧ c'.same (c.canonical ds shape) = true := by
  have hcoherent := Declarations.coherent_of_shapeOf hshape
  obtain ⟨c', hc', hsame⟩ := (holds_of_decode hshape h).encodesAs hcoherent huntagged .top
  exact ⟨c', by simp [encode, hshape, hc'], hsame⟩

namespace Forest

/-- A fork with its entries in another order, one of them undeclared, and nothing said of what is
behind. -/
def looseFork : Content :=
  .object [("note", .array []),
    ("value", .object [("size", .number three), ("type", .string "leaf")])]

theorem canonical_looseFork : looseFork.canonical forest fork = bareFork := by
  have hcase : Snapshot.caseOf? [⟨"Leaf", "leaf"⟩, ⟨"Fork", "fork"⟩]
      [("size", .number three), ("type", .string "leaf")] = some ⟨"Leaf", "leaf"⟩ := by
    simp [Snapshot.caseOf?, Entries.get?, discriminatorKey, caseFor?]
  have hleaf : (Content.object [("size", .number three), ("type", .string "leaf")]).canonical forest
      tree = .object [("type", .string "leaf"), ("size", .number three)] := by
    rw [Content.canonical_union rfl hcase fieldShapes_leaf]
    simp [leafFields, Content.canonicalEntry, Content.canonical, discriminatorKey]
  rw [looseFork, Content.canonical_record rfl fieldShapes_fork]
  simp [forkFields, Content.canonicalEntry, hleaf, bareFork]

theorem decode_looseFork :
    decode forest looseFork (.named "Fork") = .ok (forkValue (leafValue 3) .null) := by
  rw [decode_eq shapeOf_fork]
  simp [looseFork, Decoding.value, fork, Shape.core, fieldShapes_fork, Except.mapError, forkFields,
    bind, Except.bind, pure, Except.pure, Decoding.field, tree, fieldShapes_leaf, leafFields,
    Decoding.caseOf, Entries.get?, discriminatorKey, Content.asString, caseFor?, integer,
    Content.isNull, Content.kind, Shape.isOptional, Decoding.leaf, decodePrimitive,
    Content.asNumber, toInt?_three, List.mapM_cons]
  cbv

end Forest

open Forest in
theorem encode_of_decode_looseFork :
    forest.shapeOf (.named "Fork") = .ok fork ∧ Untagged forest fork ∧
      decode forest looseFork (.named "Fork") = .ok (forkValue (leafValue 3) .null) ∧
      ∃ c', encode forest (forkValue (leafValue 3) .null) (some (.named "Fork")) = .ok c' ∧
        c'.same bareFork = true :=
  ⟨shapeOf_fork, untagged, decode_looseFork,
    canonical_looseFork ▸ encode_of_decode shapeOf_fork untagged decode_looseFork⟩

end StructuredOutput

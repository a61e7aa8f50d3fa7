import Mathlib
import StructuredOutput.Proofs.Codec.WellTyped
import StructuredOutput.Proofs.Number.Rounding

/-!
Encoding a value of a shape succeeds, and decoding what comes out gives an equal value back.
-/

namespace StructuredOutput

/-- No case of a union that a shape reaches has a field under the key of the discriminator. -/
def Untagged (ds : Declarations) (shape : Shape) : Prop :=
  ∀ name description cases, Reaches ds shape (.union name description cases) →
    ∀ c ∈ cases, ∀ fields, ds.fieldShapes c.record = .ok fields →
      discriminatorKey ∉ fields.map (·.key)

theorem Untagged.of_reaches {ds : Declarations} {s t : Shape} (h : Untagged ds s)
    (hst : Reaches ds s t) : Untagged ds t :=
  fun name description cases hreach => h name description cases (hst.trans hreach)

/-- A value is encoded, as null only if it is null, and comes back equal. -/
def RoundTrips (ds : Declarations) (v : Value) (shape : Shape) : Prop :=
  ∀ path, ∃ c, Encoding.value ds v shape path = .ok c ∧ (c.isNull = true → v = .null) ∧
    ∀ path', ∃ w, Decoding.value ds c shape path' = .ok w ∧ w.same v = true

variable {ds : Declarations}

/-! ### Items -/

theorem values_roundTrip {items : List Value} {item : Shape}
    (each : ∀ v ∈ items, RoundTrips ds v item) (path : Path) (i : Nat) :
    ∃ cs, Encoding.values ds items item path i = .ok cs ∧
      ∀ path' i', ∃ ws, Decoding.values ds cs item path' i' = .ok ws ∧
        Value.sameAll ws items = true := by
  induction items generalizing i with
  | nil => exact ⟨[], rfl, fun _ _ => ⟨[], rfl, by simp [Value.sameAll]⟩⟩
  | cons v vs ih =>
    obtain ⟨c, hc, _, hback⟩ := each v List.mem_cons_self (path.index i)
    obtain ⟨cs, hcs, hbacks⟩ := ih (fun u hu => each u (List.mem_cons_of_mem v hu)) (i + 1)
    refine ⟨c :: cs, ?_, fun path' i' => ?_⟩
    · rw [Encoding.values, hc, Outcome.bind_eq_ok]
      exact ⟨c, rfl, Outcome.bind_eq_ok.mpr ⟨cs, hcs, rfl⟩⟩
    · obtain ⟨w, hw, hsame⟩ := hback (path'.index i')
      obtain ⟨ws, hws, hall⟩ := hbacks path' (i' + 1)
      refine ⟨w :: ws, ?_, by simp [Value.sameAll, hsame, hall]⟩
      rw [Decoding.values, hw, Outcome.bind_eq_ok]
      exact ⟨w, rfl, Outcome.bind_eq_ok.mpr ⟨ws, hws, rfl⟩⟩

/-! ### Fields -/

theorem field_roundTrip {attrs : List (String × Value)} {f : FieldShape} {v : Value}
    (hv : Entries.get? attrs f.attr = some v) (h : RoundTrips ds v f.whole) (path : Path) :
    ∃ c, Encoding.field ds attrs f path = .ok c ∧
      ∀ entries, Entries.get? entries f.key = some c → ∀ path', ∃ w,
        Decoding.field ds entries f path' = .ok w ∧ w.same v = true := by
  obtain ⟨c, hc, _, hback⟩ := h (path.key f.key)
  refine ⟨c, ?_, fun entries hget path' => ?_⟩
  · simp only [Encoding.field_eq, hv, hc]
  · simpa only [Decoding.field_eq, hget] using hback (path'.key f.key)

/-- The fields of an instance are encoded under their keys, and any entries that agree on these
keys make up an equal instance. -/
theorem fields_roundTrip {id : String} {attrs : List (String × Value)} {fields : List FieldShape}
    (hfields : ds.fieldShapes id = .ok fields) (populated : Populated ds id attrs)
    (each : ∀ f ∈ fields, ∀ v, Entries.get? attrs f.attr = some v → RoundTrips ds v f.whole)
    (path : Path) :
    ∃ entries, (fields.mapM fun f => (f.key, ·) <$> Encoding.field ds attrs f path) = .ok entries ∧
      ∀ more, (∀ f ∈ fields, Entries.get? more f.key = Entries.get? entries f.key) →
        ∀ path', ∃ given,
          (fields.mapM fun f => (f.attr, ·) <$> Decoding.field ds more f path') = .ok given ∧
            (ds.instantiate id given).same (.record id attrs) = true := by
  have hfielded := Declarations.fielded_of_fieldShapes hfields
  have hattr : ∀ f ∈ fields, ∃ v, Entries.get? attrs f.attr = some v :=
    fun f hf => populated.exists_value hfielded hf
  obtain ⟨entries, hentries⟩ := Outcome.exists_mapM
    (f := fun f : FieldShape => (f.key, ·) <$> Encoding.field ds attrs f path) fun f hf => by
      obtain ⟨v, hv⟩ := hattr f hf
      obtain ⟨c, hc, _⟩ := field_roundTrip hv (each f hf v hv) path
      exact ⟨(f.key, c), Outcome.functorMap_eq_ok.mpr ⟨c, hc, rfl⟩⟩
  have hnames := (Encoding.fieldEntries_of_mapM hentries).names
  refine ⟨entries, hentries, fun more hmore path' => ?_⟩
  -- The entry of a field is what the field is encoded to, since no other field has its key.
  have hback : ∀ f ∈ fields, ∀ v, Entries.get? attrs f.attr = some v → ∃ w,
      Decoding.field ds more f path' = .ok w ∧ w.same v = true := by
    intro f hf v hv
    obtain ⟨c, hc, hback⟩ := field_roundTrip hv (each f hf v hv) path
    obtain ⟨e, he, hfe⟩ := Outcome.exists_mem_right (Outcome.mapM_eq_ok.mp hentries) hf
    obtain ⟨c', hc', rfl⟩ := Outcome.functorMap_eq_ok.mp hfe
    obtain rfl : c = c' := Except.ok.inj (hc.symm.trans hc')
    refine hback more ?_ path'
    rw [hmore f hf]
    exact Entries.get?_of_mem (hnames ▸ hfielded.keys) he
  obtain ⟨given, hgiven⟩ := Outcome.exists_mapM
    (f := fun f : FieldShape => (f.attr, ·) <$> Decoding.field ds more f path') fun f hf => by
      obtain ⟨v, hv⟩ := hattr f hf
      obtain ⟨w, hw, _⟩ := hback f hf v hv
      exact ⟨(f.attr, w), Outcome.functorMap_eq_ok.mpr ⟨w, hw, rfl⟩⟩
  have hgivenNames : Entries.names given = fields.map (·.attr) :=
    Outcome.names_of_mapM hgiven fun f e he => by
      obtain ⟨w, _, rfl⟩ := Outcome.functorMap_eq_ok.mp he
      rfl
  refine ⟨given, hgiven, populated.same_instantiate hfielded hgivenNames fun f hf w v hw hv => ?_⟩
  obtain ⟨u, hu, hsame⟩ := hback f hf v hv
  obtain ⟨e, he, hfe⟩ := Outcome.exists_mem_right (Outcome.mapM_eq_ok.mp hgiven) hf
  obtain ⟨u', hu', rfl⟩ := Outcome.functorMap_eq_ok.mp hfe
  obtain rfl : u = u' := Except.ok.inj (hu.symm.trans hu')
  have hget := Entries.get?_of_mem (hgivenNames ▸ hfielded.attrs_nodup) he
  obtain rfl : u = w := Option.some.inj (hget.symm.trans hw)
  exact hsame

/-! ### Values -/

theorem RoundTrips.of_leaf {v : Value} {shape : Shape} {c : Content}
    (hnull : c ≠ .null) (hsame : v.same v = true)
    (hencode : ∀ path, Encoding.value ds v shape path = .ok c)
    (hdecode : ∀ path, Decoding.value ds c shape path = .ok v) : RoundTrips ds v shape :=
  fun path => ⟨c, hencode path, fun h => absurd (Content.isNull_eq_true.mp h) hnull,
    fun path' => ⟨v, hdecode path', hsame⟩⟩

theorem member_roundTrips {id : String} {m : String × Value}
    (declared : m ∈ (ds.enumOf id).canonical)
    (mixed : ∀ mixin, (ds.enumOf id).mixin = some mixin → mixin.Holds m.2)
    (hwires : ((ds.enumOf id).wires.map (·.1)).Nodup)
    (name : String) (description : Option String) :
    RoundTrips ds ((ds.enumOf id).memberValue id m) (.enum id name description) := by
  have hwire : Entries.get? (ds.enumOf id).wires (wireValue m) = some m :=
    Entries.get?_of_mem hwires (List.mem_map.mpr ⟨m, declared, rfl⟩)
  exact .of_leaf (by simp) (Value.same_member _ _ _ mixed)
    (Encoding.value_member rfl m) (Decoding.value_member rfl hwire)

theorem integer_roundTrips {n : Int} {x : Double}
    (h : x.signedUnits = n * (unitsPerOne : Int)) (constraints : List Constraint) :
    RoundTrips ds (.integer n) (.primitive .integer constraints) := by
  obtain ⟨y, hy, hn⟩ := Double.exists_ofInt_of_signedUnits h
  exact .of_leaf (by simp) (Value.same_integer n) (Encoding.value_integer rfl hy)
    (Decoding.value_integer rfl hn)

theorem array_roundTrips {items : List Value} {item : Shape} (container : Container)
    (constraints : List Constraint) (each : ∀ v ∈ items, RoundTrips ds v item) :
    RoundTrips ds (container.collect items) (.array item container constraints) := by
  intro path
  obtain ⟨cs, hcs, hback⟩ := values_roundTrip each path 0
  refine ⟨.array cs, ?_, by simp [Content.isNull, Content.kind], fun path' => ?_⟩
  · rw [Encoding.value_collect rfl, hcs, Except.map]
  · obtain ⟨ws, hws, hsame⟩ := hback path' 0
    refine ⟨container.collect ws, ?_, ?_⟩
    · rw [Decoding.value_array rfl, hws, Except.map]
    · cases container <;> simpa [Container.collect, Value.same] using hsame

theorem record_roundTrips {id : String} {attrs : List (String × Value)}
    {fields : List FieldShape} (hfields : ds.fieldShapes id = .ok fields)
    (populated : Populated ds id attrs)
    (each : ∀ f ∈ fields, ∀ v, Entries.get? attrs f.attr = some v → RoundTrips ds v f.whole)
    (name : String) (description : Option String) :
    RoundTrips ds (.record id attrs) (.record id name description) := by
  intro path
  obtain ⟨entries, hentries, hback⟩ := fields_roundTrip hfields populated each path
  refine ⟨.object entries, Encoding.value_record rfl hfields hentries,
    by simp [Content.isNull, Content.kind], fun path' => ?_⟩
  obtain ⟨given, hgiven, hsame⟩ := hback entries (fun _ _ => rfl) path'
  exact ⟨ds.instantiate id given, Decoding.value_record rfl hfields hgiven, hsame⟩

/-- The discriminator comes first and names the case. -/
theorem union_roundTrips {id : String} {attrs : List (String × Value)} {cases : List Case}
    {fields : List FieldShape} (hcase : id ∈ cases.map (·.record))
    (htags : (cases.map (·.tag)).Nodup) (hfields : ds.fieldShapes id = .ok fields)
    (huntagged : discriminatorKey ∉ fields.map (·.key)) (populated : Populated ds id attrs)
    (each : ∀ f ∈ fields, ∀ v, Entries.get? attrs f.attr = some v → RoundTrips ds v f.whole)
    (name : String) (description : Option String) :
    RoundTrips ds (.record id attrs) (.union name description cases) := by
  intro path
  obtain ⟨entries, hentries, hback⟩ := fields_roundTrip hfields populated each path
  obtain ⟨found, hfound, hmem, hrecord⟩ := exists_caseOf? hcase
  have htag : caseFor? cases found.tag = some found :=
    caseFor?_of_mem hmem htags
  refine ⟨.object ((discriminatorKey, .string found.tag) :: entries),
    Encoding.value_case rfl hfound hfields huntagged hentries,
    by simp [Content.isNull, Content.kind], fun path' => ?_⟩
  obtain ⟨given, hgiven, hsame⟩ := hback ((discriminatorKey, .string found.tag) :: entries)
    (fun f hf => Entries.get?_cons_of_ne _ _ fun h => huntagged (h ▸ List.mem_map_of_mem hf)) path'
  have hnamed : Decoding.caseOf cases ((discriminatorKey, .string found.tag) :: entries) path' =
      .ok found := by
    simp [Decoding.caseOf, Entries.get?_cons_self, Content.asString, htag]
  subst hrecord
  exact ⟨ds.instantiate found.record given, Decoding.value_case rfl hnamed hfields hgiven, hsame⟩

theorem optional_roundTrips {v : Value} {inner : Shape} (h : RoundTrips ds v inner) :
    RoundTrips ds v (.optional inner) := by
  intro path
  by_cases hv : v = .null
  · subst hv
    exact ⟨.null, Encoding.value_optional_null inner path, fun _ => rfl,
      fun path' => ⟨.null, Decoding.value_optional_null inner path', by simp [Value.same]⟩⟩
  · obtain ⟨c, hc, hnull, hback⟩ := h path
    have hc' : c.isNull = false := by
      rw [← Bool.not_eq_true]
      exact fun h => hv (hnull h)
    refine ⟨c, (Encoding.value_optional hv inner path).trans hc, hnull, fun path' => ?_⟩
    rw [Decoding.value_optional hc']
    exact hback path'

theorem WellTyped.roundTrips {v : Value} {shape : Shape} (h : WellTyped ds v shape)
    (hcoherent : shape.Coherent ds) (hresolves : Resolves ds shape)
    (huntagged : Untagged ds shape) : RoundTrips ds v shape := by
  induction h with
  | text s constraints =>
    exact .of_leaf (by simp) (Value.same_text s) (Encoding.value_text rfl s)
      (Decoding.value_text rfl s)
  | bool b constraints =>
    exact .of_leaf (by simp) (Value.same_bool b) (Encoding.value_bool rfl b)
      (Decoding.value_bool rfl b)
  | integer exact constraints => exact integer_roundTrips exact constraints
  | real x constraints =>
    exact .of_leaf (by simp) (Value.same_finite x) (Encoding.value_real rfl x)
      (Decoding.value_real rfl x)
  | @literal s values option constraints =>
    exact .of_leaf (by simp) (Value.same_text s) (Encoding.value_literal rfl s)
      (Decoding.value_literal rfl option)
  | member declared mixed name description =>
    exact member_roundTrips declared mixed hcoherent name description
  | @list items item each constraints ih =>
    have hitem : Reaches ds (.array item .list constraints) item := .item (.refl item)
    exact array_roundTrips .list constraints fun v hv =>
      ih v hv hcoherent.2 (hresolves.of_reaches hitem) (huntagged.of_reaches hitem)
  | @tuple items item each constraints ih =>
    have hitem : Reaches ds (.array item .tuple constraints) item := .item (.refl item)
    exact array_roundTrips .tuple constraints fun v hv =>
      ih v hv hcoherent.2 (hresolves.of_reaches hitem) (huntagged.of_reaches hitem)
  | @record id attrs populated given name description ih =>
    have hid : id ∈ (Shape.record id name description).records := List.mem_singleton_self id
    obtain ⟨fields, hfields⟩ := hresolves _ (.refl _) id hid
    refine record_roundTrips hfields populated (fun f hf v hv => ?_) name description
    have hreach : Reaches ds (.record id name description) f.whole :=
      .field hid hfields hf (.refl _)
    exact ih fields hfields f hf v hv (hreach.coherent hcoherent) (hresolves.of_reaches hreach)
      (huntagged.of_reaches hreach)
  | @union id attrs cases case populated given name description ih =>
    have hid : id ∈ (Shape.union name description cases).records := case
    obtain ⟨fields, hfields⟩ := hresolves _ (.refl _) id hid
    obtain ⟨c, hc, hrecord⟩ := List.mem_map.mp case
    have hkey := huntagged name description cases (.refl _) c hc fields (hrecord ▸ hfields)
    refine union_roundTrips case hcoherent.1 hfields hkey populated (fun f hf v hv => ?_)
      name description
    have hreach : Reaches ds (.union name description cases) f.whole :=
      .field hid hfields hf (.refl _)
    exact ih fields hfields f hf v hv (hreach.coherent hcoherent) (hresolves.of_reaches hreach)
      (huntagged.of_reaches hreach)
  | null inner =>
    intro path
    exact ⟨.null, Encoding.value_optional_null inner path, fun _ => rfl,
      fun path' => ⟨.null, Decoding.value_optional_null inner path', by simp [Value.same]⟩⟩
  | @present v inner inside ih =>
    have hinner : Reaches ds (.optional inner) inner := .optional (.refl inner)
    exact optional_roundTrips (ih hcoherent (hresolves.of_reaches hinner)
      (huntagged.of_reaches hinner))

/-- A well-typed value is encoded, and what it is encoded to is decoded to an equal value. -/
theorem decode_encode {t : TypeExpr} {shape : Shape} {v : Value}
    (hshape : ds.shapeOf t = .ok shape) (hresolves : Resolves ds shape)
    (huntagged : Untagged ds shape) (hv : WellTyped ds v shape) :
    ∃ c w, encode ds v (some t) = .ok c ∧ decode ds c t = .ok w ∧ w.same v = true := by
  have hcoherent := Declarations.coherent_of_shapeOf hshape
  obtain ⟨c, hc, _, hback⟩ := hv.roundTrips hcoherent hresolves huntagged .top
  obtain ⟨w, hw, hsame⟩ := hback .top
  refine ⟨c, w, ?_, ?_, hsame⟩
  · simp [encode, hshape, hc]
  · simp [decode, hshape, hw]

/-! ### A recursive record -/

namespace Forest

def leafDecls : List FieldDecl := [⟨"size", .atom .integer, none, none, false, none, true⟩]

def forkDecls : List FieldDecl :=
  [⟨"front", .union [.named "Leaf", .named "Fork"], none, none, true, none, true⟩,
    ⟨"back", .union [.named "Leaf", .named "Fork", .atom .none], some (.text "behind"), none, false,
      none, true⟩,
    ⟨"depth", .atom .integer, none, none, false, some (.integer 0), false⟩]

end Forest

/-- Forks with a leaf or another fork in front, and perhaps one behind. -/
def forest : Declarations :=
  ⟨"forest", [
    ("Leaf", .record ⟨"Leaf", none, none, Forest.leafDecls⟩),
    ("Fork", .record ⟨"Fork", none, none, Forest.forkDecls⟩)]⟩

namespace Forest

def fork : Shape := .record "Fork" "Fork" none

def tree : Shape := .union "LeafOrFork" none [⟨"Leaf", "leaf"⟩, ⟨"Fork", "fork"⟩]

def integer : Shape := .primitive .integer []

def leafFields : List FieldShape := [⟨"size", "size", integer, false, none⟩]

def forkFields : List FieldShape :=
  [⟨"front", "value", tree, false, none⟩, ⟨"back", "behind", tree, true, none⟩]

theorem fields_leaf : forest.fields "Leaf" = leafDecls := by cbv

theorem fields_fork : forest.fields "Fork" = forkDecls := by cbv

theorem shapeOf_fork : forest.shapeOf (.named "Fork") = .ok fork := by cbv

theorem fieldShapes_leaf : forest.fieldShapes "Leaf" = .ok leafFields := by cbv

theorem fieldShapes_fork : forest.fieldShapes "Fork" = .ok forkFields := by cbv

def leafValue (size : Int) : Value := .record "Leaf" [("size", .integer size)]

def forkValue (front back : Value) : Value :=
  .record "Fork" [("front", front), ("back", back), ("depth", .integer 0)]

/-- The shapes that a fork reaches. -/
def Within (s : Shape) : Prop := s = fork ∨ s = tree ∨ s = .optional tree ∨ s = integer

theorem fields_of_within {s : Shape} (hs : Within s) {id : String} (hid : id ∈ s.records) :
    ∃ fields, forest.fieldShapes id = .ok fields ∧ discriminatorKey ∉ fields.map (·.key) ∧
      ∀ f ∈ fields, Within f.whole := by
  have hid' : id = "Leaf" ∨ id = "Fork" := by
    rcases hs with rfl | rfl | rfl | rfl <;>
      simp_all [fork, tree, integer, Shape.records]
  rcases hid' with rfl | rfl
  · exact ⟨leafFields, fieldShapes_leaf, by decide, by
      simp [leafFields, FieldShape.whole, Within]⟩
  · exact ⟨forkFields, fieldShapes_fork, by decide, by
      simp [forkFields, FieldShape.whole, Within]⟩

theorem within_of_reaches {s : Shape} (h : Reaches forest fork s) : Within s := by
  refine h.of_closed (fun inner hinner => ?_) (fun item container constraints harray => ?_) ?_
    (.inl rfl)
  · rcases hinner with h | h | h | h <;> cases h
    exact .inr (.inl rfl)
  · rcases harray with h | h | h | h <;> cases h
  · intro whole id fields f hwhole hid hfields hf
    obtain ⟨fields', hfields', _, hwithin⟩ := fields_of_within hwhole hid
    obtain rfl : fields = fields' := Except.ok.inj (hfields.symm.trans hfields')
    exact hwithin f hf

theorem resolves : Resolves forest fork := by
  intro s hs id hid
  obtain ⟨fields, hfields, _⟩ := fields_of_within (within_of_reaches hs) hid
  exact ⟨fields, hfields⟩

theorem untagged : Untagged forest fork := by
  intro name description cases hreach c hc fields hfields
  have hid : c.record ∈ (Shape.union name description cases).records := List.mem_map_of_mem hc
  obtain ⟨fields', hfields', hkey, _⟩ := fields_of_within (within_of_reaches hreach) hid
  obtain rfl : fields = fields' := Except.ok.inj (hfields.symm.trans hfields')
  exact hkey

theorem populated_leaf (size : Int) : Populated forest "Leaf" [("size", .integer size)] where
  names := by cbv
  defaults := by simp [fields_leaf, leafDecls]

theorem populated_fork (front back : Value) :
    Populated forest "Fork" [("front", front), ("back", back), ("depth", .integer 0)] where
  names := by cbv
  defaults := by
    intro f hf hinit d v hd hv
    simp only [fields_fork, forkDecls, List.mem_cons, List.not_mem_nil, or_false] at hf
    rcases hf with rfl | rfl | rfl
    · cases hinit
    · cases hinit
    · cases hd
      cases hv
      exact Value.same_integer 0

theorem wellTyped_leaf {size : Int} (h : size.natAbs ≤ Nat.pow 2 53) :
    WellTyped forest (leafValue size) tree := by
  obtain ⟨x, hx⟩ := Double.exists_signedUnits h
  refine .union (by decide) (populated_leaf size) (fun fields hfields f hf v hv => ?_) _ _
  obtain rfl : fields = leafFields := Except.ok.inj (hfields.symm.trans fieldShapes_leaf)
  obtain rfl := List.mem_singleton.mp hf
  cases hv
  exact .integer hx []

theorem wellTyped_fork {front back : Value} (hfront : WellTyped forest front tree)
    (hback : WellTyped forest back (.optional tree)) :
    WellTyped forest (forkValue front back) fork := by
  refine .record (populated_fork front back) (fun fields hfields f hf v hv => ?_) _ _
  obtain rfl : fields = forkFields := Except.ok.inj (hfields.symm.trans fieldShapes_fork)
  rcases List.mem_cons.mp hf with rfl | hf
  · cases hv
    exact hfront
  · obtain rfl := List.mem_singleton.mp hf
    cases hv
    exact hback

end Forest

open Forest in
theorem decode_encode_forest :
    forest.shapeOf (.named "Fork") = .ok fork ∧ Resolves forest fork ∧ Untagged forest fork ∧
      WellTyped forest (forkValue (leafValue (-7)) (leafValue 12)) fork ∧
      ∃ c w, encode forest (forkValue (leafValue (-7)) (leafValue 12)) (some (.named "Fork")) =
        .ok c ∧ decode forest c (.named "Fork") = .ok w ∧
        w.same (forkValue (leafValue (-7)) (leafValue 12)) = true :=
  have hv := wellTyped_fork (wellTyped_leaf (by decide)) (.present (wellTyped_leaf (by decide)))
  ⟨shapeOf_fork, resolves, untagged, hv, decode_encode shapeOf_fork resolves untagged hv⟩

end StructuredOutput

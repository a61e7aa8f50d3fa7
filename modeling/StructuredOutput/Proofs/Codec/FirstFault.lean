import StructuredOutput.Proofs.Codec.DeclaredKeys

/-!
Where decoding fails: every fault of content is at one of its nodes, and the error that is reported
is the first fault in the order of items and of declared fields.
-/

namespace StructuredOutput

variable {ds : Declarations}

namespace Content

/-- The child that a step leads to. -/
def child? : Content → Step → Option Content
  | object entries, .key name => Entries.get? entries name
  | array items, .index i => items[i]?
  | _, _ => none

/-- The node that steps lead to. -/
def at? (c : Content) : List Step → Option Content
  | [] => some c
  | step :: steps => (c.child? step).bind (·.at? steps)

end Content

namespace DecodeError

/-- Where the node at fault stands. -/
def path? : DecodeError → Option Path
  | mismatch m => some m.path
  | missing m => some m.path
  | unknown u => some u.path
  | type _ => none

/-- What an error says is so of a node: it has the kind that is told and not the one that is
required, or is a number that is not whole; it is an object without the key; it is a text that is
none of the options. -/
def Describes (e : DecodeError) (node : Content) : Prop :=
  match e with
  | mismatch m => node.kind.name = m.actual ∧ m.actual ≠ m.expected ∧
      (m.expected = "integer" → ∃ x, node = .number x ∧ x.isIntegral = false)
  | missing m => ∃ entries, node = .object entries ∧ m.name ∉ Entries.names entries
  | unknown u => node = .string u.value ∧ u.value ∉ u.expected
  | type _ => False

/-- Steps from a node that stands at a path lead to a node that an error describes, and the error
tells the place of that node. -/
def PointsInto (e : DecodeError) (c : Content) (path : Path) : Prop :=
  ∃ steps node, e.path? = some ⟨path.root, path.steps ++ steps⟩ ∧ c.at? steps = some node ∧
    e.Describes node

theorem PointsInto.here {e : DecodeError} {c : Content} {path : Path} (hpath : e.path? = some path)
    (h : e.Describes c) : e.PointsInto c path :=
  ⟨[], c, by rw [List.append_nil, hpath], rfl, h⟩

theorem PointsInto.of_child {e : DecodeError} {c child : Content} {path path' : Path} (step : Step)
    (hpath : path' = ⟨path.root, path.steps ++ [step]⟩) (hchild : c.child? step = some child)
    (h : e.PointsInto child path') : e.PointsInto c path := by
  obtain ⟨steps, node, he, hnode, hdescribes⟩ := h
  refine ⟨step :: steps, node, ?_, ?_, hdescribes⟩
  · rw [he, hpath, List.append_assoc, List.singleton_append]
  · rw [Content.at?, hchild, Option.bind_some, hnode]

end DecodeError

/-! ### The faults of content -/

/-- The kind of content as which values of a shape travel, null apart. -/
def Shape.kind : Shape → Kind
  | primitive .text _ | literal _ _ | enum _ _ _ => .string
  | primitive .bool _ => .bool
  | primitive .integer _ | primitive .real _ => .number
  | array _ _ _ => .array
  | record _ _ _ | union _ _ _ => .object
  | optional inner => inner.kind

theorem Shape.exists_of_kind_array {shape : Shape} (h : shape.core.kind = .array) :
    ∃ item container constraints, shape.core = .array item container constraints := by
  induction shape with
  | optional inner ih => exact ih h
  | array item container constraints => exact ⟨item, container, constraints, rfl⟩
  | primitive type constraints => cases type <;> cases h
  | _ => cases h

theorem Shape.isFielded_of_kind_object {shape : Shape} (h : shape.core.kind = .object) :
    shape.core.isFielded = true := by
  induction shape with
  | optional inner ih => exact ih h
  | primitive type constraints => cases type <;> cases h
  | record | union => rfl
  | _ => cases h

/-- What is wrong with the discriminator of an object. -/
def tagFault? (cases : List Case) (entries : List (String × Content)) (path : Path) :
    Option DecodeError :=
  match Entries.get? entries discriminatorKey with
  | none => some (.missing ⟨discriminatorKey, path⟩)
  | some (.string tag) =>
    if tag ∈ cases.map (·.tag) then none
    else some (.unknown ⟨tag, cases.map (·.tag), path.key discriminatorKey⟩)
  | some c => some (.mismatch ⟨Kind.string.name, c.kind.name, path.key discriminatorKey⟩)

/-- What is wrong with a node of the right kind, whatever its items or fields hold. -/
def choiceFault? (ds : Declarations) (shape : Shape) (c : Content) (path : Path) :
    Option DecodeError :=
  match shape, c with
  | .primitive .integer _, .number x =>
    if x.isIntegral then none else some (.mismatch ⟨"integer", "number", path⟩)
  | .literal values _, .string s => if s ∈ values then none else some (.unknown ⟨s, values, path⟩)
  | .enum id _ _, .string s =>
    if s ∈ (ds.enumOf id).wires.map (·.1) then none
    else some (.unknown ⟨s, (ds.enumOf id).wires.map (·.1), path⟩)
  | .union _ _ cases, .object entries => tagFault? cases entries path
  | _, _ => none

/-- What is wrong with a node itself, whatever its items or fields hold. -/
def ownFault? (ds : Declarations) (shape : Shape) (c : Content) (path : Path) :
    Option DecodeError :=
  if c.kind = shape.kind then choiceFault? ds shape c path
  else some (.mismatch ⟨shape.kind.name, c.kind.name, path⟩)

mutual

/-- All that is wrong with content of a shape at a path: with the node itself, then with its items in
order or with the fields that are looked up in the order of their declaration. -/
def faults (ds : Declarations) (c : Content) (shape : Shape) (path : Path) : List DecodeError :=
  match c with
  | .array items =>
    (ownFault? ds shape.core (.array items) path).toList ++
      match shape.core with
      | .array item _ _ => itemFaults ds items item path 0
      | _ => []
  | .object entries =>
    (ownFault? ds shape.core (.object entries) path).toList ++
      (soughtFields ds entries shape.core).flatMap fun f => fieldFaults ds entries f path
  | c => if shape.isOptional && c.isNull then [] else (ownFault? ds shape.core c path).toList

/-- All that is wrong with array items, the first of which has index `i`. -/
def itemFaults (ds : Declarations) (items : List Content) (shape : Shape) (path : Path) (i : Nat) :
    List DecodeError :=
  match items with
  | [] => []
  | c :: cs => faults ds c shape (path.index i) ++ itemFaults ds cs shape path (i + 1)

/-- All that is wrong with a field: that it is missing, or what is wrong with its entry. -/
def fieldFaults (ds : Declarations) (entries : List (String × Content)) (f : FieldShape)
    (path : Path) : List DecodeError :=
  match entries with
  | [] => if f.optional then [] else [.missing ⟨f.key, path⟩]
  | (k, c) :: rest =>
    if k == f.key then
      if f.optional && c.isNull then [] else faults ds c f.shape (path.key f.key)
    else fieldFaults ds rest f path

end

theorem faults_optional_null (inner : Shape) (path : Path) :
    faults ds .null (.optional inner) path = [] := by
  simp [faults, Shape.isOptional, Content.isNull, Content.kind]

theorem faults_optional {c : Content} (hc : c.isNull = false) (inner : Shape) (path : Path) :
    faults ds c (.optional inner) path = faults ds c inner path := by
  cases c with
  | null => cases hc
  | array | object => simp only [faults, Shape.core]
  | bool | number | string => simp [faults, Shape.core, Content.isNull, Content.kind]

theorem fieldFaults_eq (entries : List (String × Content)) (f : FieldShape) (path : Path) :
    fieldFaults ds entries f path =
      match Entries.get? entries f.key with
      | none => if f.optional then [] else [.missing ⟨f.key, path⟩]
      | some c => faults ds c f.whole (path.key f.key) := by
  induction entries with
  | nil => simp [fieldFaults, Entries.get?]
  | cons e rest ih =>
    obtain ⟨k, c⟩ := e
    by_cases hk : k = f.key
    · cases hoptional : f.optional with
      | true =>
        cases hnull : c.isNull with
        | true =>
          obtain rfl := Content.isNull_eq_true.mp hnull
          simp [fieldFaults, Entries.get?, hk, FieldShape.whole, hoptional, hnull,
            faults_optional_null]
        | false =>
          simp [fieldFaults, Entries.get?, hk, FieldShape.whole, hoptional, hnull,
            faults_optional hnull]
      | false => simp [fieldFaults, Entries.get?, hk, FieldShape.whole, hoptional]
    · simpa [fieldFaults, Entries.get?, hk] using ih

/-! ### Every fault is at a node -/

theorem Kind.name_injective : Function.Injective Kind.name := by
  intro k l h
  cases k <;> cases l <;> first | rfl | exact absurd h (by decide)

theorem Kind.name_ne_integer (k : Kind) : k.name ≠ "integer" := by
  cases k <;> decide

/-- A mismatch of kinds describes the node whose kind it tells. -/
theorem describes_mismatch {c : Content} {k : Kind} (h : c.kind ≠ k) (path : Path) :
    (DecodeError.mismatch ⟨k.name, c.kind.name, path⟩).Describes c :=
  ⟨rfl, fun hname => h (Kind.name_injective hname), fun hname => absurd hname k.name_ne_integer⟩

theorem pointsInto_of_tagFault? {cases : List Case} {entries : List (String × Content)} {path : Path}
    {e : DecodeError} (h : tagFault? cases entries path = some e) :
    e.PointsInto (.object entries) path := by
  unfold tagFault? at h
  split at h
  · next hget =>
    cases h
    exact .here rfl ⟨entries, rfl, Entries.get?_eq_none.mp hget⟩
  · next tag hget =>
    split at h
    · cases h
    · next hunknown =>
      cases h
      exact .of_child (.key discriminatorKey) rfl hget (.here rfl ⟨rfl, hunknown⟩)
  · next c hstring hget =>
    cases h
    have hkind : c.kind ≠ .string := by
      intro hkind
      cases c with
      | string s => exact hstring s rfl
      | _ => cases hkind
    exact .of_child (.key discriminatorKey) rfl hget (.here rfl (describes_mismatch hkind _))

theorem pointsInto_of_choiceFault? {shape : Shape} {c : Content} {path : Path} {e : DecodeError}
    (h : choiceFault? ds shape c path = some e) : e.PointsInto c path := by
  unfold choiceFault? at h
  split at h
  · next x =>
    split at h
    · cases h
    · next hfraction =>
      cases h
      exact .here rfl ⟨rfl, Kind.name_ne_integer .number, fun _ => ⟨x, rfl, by simpa using hfraction⟩⟩
  · split at h
    · cases h
    · next hunknown =>
      cases h
      exact .here rfl ⟨rfl, hunknown⟩
  · split at h
    · cases h
    · next hunknown =>
      cases h
      exact .here rfl ⟨rfl, hunknown⟩
  · exact pointsInto_of_tagFault? h
  · cases h

theorem pointsInto_of_ownFault? {shape : Shape} {c : Content} {path : Path} {e : DecodeError}
    (h : ownFault? ds shape c path = some e) : e.PointsInto c path := by
  unfold ownFault? at h
  split at h
  · exact pointsInto_of_choiceFault? h
  · next hkind =>
    cases h
    exact .here rfl (describes_mismatch hkind path)

theorem exists_of_mem_itemFaults {items : List Content} {item : Shape} {path : Path} {i : Nat}
    {e : DecodeError} (h : e ∈ itemFaults ds items item path i) :
    ∃ j c, items[j]? = some c ∧ e ∈ faults ds c item (path.index (i + j)) := by
  induction items generalizing i with
  | nil => cases h
  | cons c cs ih =>
    rw [itemFaults, List.mem_append] at h
    rcases h with h | h
    · exact ⟨0, c, rfl, h⟩
    · obtain ⟨j, d, hd, he⟩ := ih h
      exact ⟨j + 1, d, hd, by rwa [Nat.add_right_comm, Nat.add_assoc] at he⟩

/-- A fault of content is at one of its nodes. -/
theorem pointsInto_of_mem_faults (c : Content) {shape : Shape} {path : Path} {e : DecodeError}
    (h : e ∈ faults ds c shape path) : e.PointsInto c path := by
  induction c using Content.members_induction generalizing shape path with
  | array items ih =>
    rw [faults, List.mem_append, Option.mem_toList] at h
    rcases h with h | h
    · exact pointsInto_of_ownFault? h
    · split at h
      · obtain ⟨j, c, hc, he⟩ := exists_of_mem_itemFaults h
        rw [Nat.zero_add] at he
        exact .of_child (.index j) rfl hc (ih c (List.mem_of_getElem? hc) he)
      · cases h
  | object entries ih =>
    rw [faults, List.mem_append, Option.mem_toList, List.mem_flatMap] at h
    rcases h with h | ⟨f, -, h⟩
    · exact pointsInto_of_ownFault? h
    · rw [fieldFaults_eq] at h
      split at h
      · next hget =>
        split at h
        · cases h
        · obtain rfl := List.mem_singleton.mp h
          exact .here rfl ⟨entries, rfl, Entries.get?_eq_none.mp hget⟩
      · next c hget =>
        exact .of_child (.key f.key) rfl hget (ih (f.key, c) (Entries.mem_of_get? hget) h)
  | _ =>
    rw [faults] at h
    · split at h
      · cases h
      · exact pointsInto_of_ownFault? (Option.mem_toList.mp h)
    all_goals simp

/-! ### The first fault is reported -/

/-- A result is the error that comes first in a list, and no error if there is none. -/
def Reports {α : Type} (r : Except DecodeError α) (es : List DecodeError) : Prop :=
  ∀ e, r = .error e ↔ es.head? = some e

namespace Reports

variable {α β : Type} {r : Except DecodeError α} {es fs : List DecodeError}

theorem ok (a : α) : Reports (.ok a : Except DecodeError α) [] := fun e => by simp

theorem error (e : DecodeError) : Reports (.error e : Except DecodeError α) [e] :=
  fun e' => by simp

theorem nil_of_ok {a : α} (h : Reports (.ok a : Except DecodeError α) es) : es = [] := by
  cases es with
  | nil => rfl
  | cons e es => cases (h e).mpr rfl

/-- What fails first in a chain of two steps is what fails in the first one, or else in the second
one. -/
theorem bind {f : α → Except DecodeError β} (h : Reports r es)
    (hf : ∀ a, r = .ok a → Reports (f a) fs) : Reports (r >>= f) (es ++ fs) := by
  cases r with
  | ok a =>
    rw [h.nil_of_ok, List.nil_append]
    exact hf a rfl
  | error e =>
    have hhead := (h e).mp rfl
    cases es with
    | nil => cases hhead
    | cons e' es =>
      obtain rfl : e' = e := Option.some.inj hhead
      intro e''
      simp [Bind.bind, Except.bind]

theorem map {f : α → β} (h : Reports r es) : Reports (f <$> r) es := by
  intro e
  rw [Outcome.functorMap_eq_error]
  exact h e

theorem mapM {xs : List α} {f : α → Except DecodeError β} {g : α → List DecodeError}
    (h : ∀ x ∈ xs, Reports (f x) (g x)) : Reports (xs.mapM f) (xs.flatMap g) := by
  induction xs with
  | nil => exact ok []
  | cons x xs ih =>
    rw [List.mapM_cons, List.flatMap_cons]
    refine (h x List.mem_cons_self).bind fun y _ => ?_
    have hrest : Reports (xs.mapM f >>= fun ys => pure (y :: ys)) (xs.flatMap g ++ []) :=
      (ih fun z hz => h z (List.mem_cons_of_mem x hz)).bind fun ys _ => ok (y :: ys)
    rwa [List.append_nil] at hrest

end Reports

namespace Decoding

theorem reports_caseOf (cases : List Case) (entries : List (String × Content)) (path : Path) :
    Reports (caseOf cases entries path) (tagFault? cases entries path).toList := by
  unfold caseOf tagFault?
  cases Entries.get? entries discriminatorKey with
  | none => exact .error _
  | some c =>
    cases c with
    | string tag =>
      simp only [Content.asString]
      cases hfor : caseFor? cases tag with
      | some found =>
        obtain ⟨hmem, rfl⟩ := mem_of_caseFor? hfor
        rw [if_pos (List.mem_map_of_mem hmem)]
        exact .ok found
      | none =>
        have hunknown : tag ∉ cases.map (·.tag) := by
          intro htag
          obtain ⟨one, hone, rfl⟩ := List.mem_map.mp htag
          simpa using List.find?_eq_none.mp hfor one hone
        rw [if_neg hunknown]
        exact .error _
    | _ => exact .error _

/-- A scalar of the right kind is at fault only by the choice that it makes. -/
theorem reports_leaf_of_kind {shape : Shape} {c : Content} (path : Path) (hscalar : c.isScalar = true)
    (hkind : c.kind = shape.core.kind) :
    Reports (leaf ds shape.core c path) (choiceFault? ds shape.core c path).toList := by
  induction shape with
  | optional inner ih => exact ih hkind
  | primitive type constraints =>
    cases type with
    | integer =>
      cases c with
      | number x =>
        simp only [Shape.core, leaf, decodePrimitive, Content.asNumber, Double.toInt?, choiceFault?]
        by_cases hwhole : x.isIntegral = true
        · simp only [if_pos hwhole]
          exact .ok _
        · simp only [if_neg hwhole]
          exact .error _
      | _ => cases hkind
    | _ => cases c <;> first | exact .ok _ | cases hkind
  | literal values constraints =>
    cases c with
    | string text =>
      simp only [Shape.core, leaf, literal, Content.asString, choiceFault?]
      by_cases hoption : text ∈ values
      · simp only [if_pos (List.contains_iff_mem.mpr hoption), if_pos hoption]
        exact .ok _
      · simp only [if_neg (mt List.contains_iff_mem.mp hoption), if_neg hoption]
        exact .error _
    | _ => cases hkind
  | enum id name description =>
    cases c with
    | string text =>
      simp only [Shape.core, leaf, member, Content.asString, choiceFault?]
      cases hget : Entries.get? (ds.enumOf id).wires text with
      | some m =>
        have hoption : text ∈ (ds.enumOf id).wires.map (·.1) :=
          List.mem_map_of_mem (Entries.mem_of_get? hget)
        simp only [if_pos hoption]
        exact .ok _
      | none =>
        have hunknown : text ∉ (ds.enumOf id).wires.map (·.1) := Entries.get?_eq_none.mp hget
        simp only [if_neg hunknown]
        exact .error _
    | _ => cases hkind
  | array | record | union =>
    cases c with
    | array | object => cases hscalar
    | _ => cases hkind

/-- Content of another kind than that of the shape is at fault as such. -/
theorem reports_leaf_of_kind_ne {shape : Shape} {c : Content} (path : Path)
    (hkind : c.kind ≠ shape.core.kind) :
    Reports (leaf ds shape.core c path) [.mismatch ⟨shape.core.kind.name, c.kind.name, path⟩] := by
  induction shape with
  | optional inner ih => exact ih hkind
  | primitive type constraints =>
    cases type <;> cases c <;> first | exact .error _ | exact absurd rfl hkind
  | literal | enum => cases c <;> first | exact .error _ | exact absurd rfl hkind
  | array | record | union => exact .error _

theorem reports_leaf {shape : Shape} {c : Content} (path : Path)
    (h : c.isScalar = true ∨ c.kind ≠ shape.core.kind) :
    Reports (leaf ds shape.core c path) (ownFault? ds shape.core c path).toList := by
  unfold ownFault?
  split
  · next hkind => exact reports_leaf_of_kind path (h.resolve_right (not_not_intro hkind)) hkind
  · next hkind => exact reports_leaf_of_kind_ne path hkind

theorem reports_field {entries : List (String × Content)} {f : FieldShape} (path : Path)
    (h : ∀ e ∈ entries, ∀ path,
      Reports (value ds e.2 f.whole path) (faults ds e.2 f.whole path)) :
    Reports (field ds entries f path) (fieldFaults ds entries f path) := by
  rw [field_eq, fieldFaults_eq]
  cases hget : Entries.get? entries f.key with
  | none =>
    cases f.optional with
    | true => exact .ok _
    | false => exact .error _
  | some c => exact h (f.key, c) (Entries.mem_of_get? hget) _

/-- An instance is made unless a field is at fault. -/
theorem reports_instance {shape : Shape} {entries : List (String × Content)} {id : String}
    {fields : List FieldShape} (path : Path) (hid : instanceOf? entries shape = some id)
    (hfields : ds.fieldShapes id = .ok fields)
    (h : ∀ f ∈ fields, Reports (field ds entries f path) (fieldFaults ds entries f path)) :
    Reports ((ds.fieldShapes id).mapError DecodeError.type >>= fun fields =>
        (fields.mapM fun f => (f.attr, ·) <$> field ds entries f path) >>= fun given =>
          Except.ok (ds.instantiate id given))
      ((soughtFields ds entries shape).flatMap fun f => fieldFaults ds entries f path) := by
  have hsought : soughtFields ds entries shape = fields := by
    simp only [soughtFields, hid, Declarations.travelling_eq hfields]
  have hgiven : Reports (fields.mapM fun f => (f.attr, ·) <$> field ds entries f path)
      (fields.flatMap fun f => fieldFaults ds entries f path) :=
    .mapM fun f hf => (h f hf).map
  rw [hsought, hfields]
  exact hgiven.map

theorem reports_values {items : List Content} {item : Shape} (path : Path)
    (h : ∀ c ∈ items, ∀ path, Reports (value ds c item path) (faults ds c item path)) (i : Nat) :
    Reports (values ds items item path i) (itemFaults ds items item path i) := by
  induction items generalizing i with
  | nil => exact .ok []
  | cons c cs ih =>
    rw [values, itemFaults]
    refine (h c List.mem_cons_self _).bind fun v _ => ?_
    exact (ih (fun d hd => h d (List.mem_cons_of_mem c hd)) (i + 1)).map

/-- Decoding reports the first fault, and succeeds if there is none. -/
theorem reports_value (c : Content) {shape : Shape} (hresolves : Resolves ds shape) (path : Path) :
    Reports (value ds c shape path) (faults ds c shape path) := by
  induction c using Content.members_induction generalizing shape path with
  | array items ih =>
    rw [value, faults]
    cases hcore : shape.core with
    | array item container constraints =>
      have hitem := hresolves.of_reaches (.item_of_core hcore)
      exact (reports_values path (fun c hc => ih c hc hitem) 0).map
    | _ =>
      have hkind : (Content.array items).kind ≠ shape.core.kind := by
        intro hkind
        obtain ⟨item, container, constraints, harray⟩ := Shape.exists_of_kind_array hkind.symm
        cases hcore.symm.trans harray
      simpa [hcore] using reports_leaf path (.inr hkind)
  | object entries ih =>
    rw [value, faults]
    have hfield {id : String} {fields : List FieldShape} (hid : id ∈ shape.core.records)
        (hfields : ds.fieldShapes id = .ok fields) (f : FieldShape) (hf : f ∈ fields) :
        Reports (field ds entries f path) (fieldFaults ds entries f path) := by
      have hwhole := hresolves.of_reaches (.field_of_core hid hfields hf)
      exact reports_field path fun e he => ih e he hwhole
    have hrecords := hresolves _ (.core shape)
    cases hcore : shape.core with
    | record id name description =>
      rw [hcore] at hfield hrecords
      have hid : id ∈ (Shape.record id name description).records := List.mem_singleton_self id
      obtain ⟨fields, hfields⟩ := hrecords id hid
      exact reports_instance path rfl hfields (hfield hid hfields)
    | union name description cases =>
      rw [hcore] at hfield hrecords
      refine (reports_caseOf cases entries path).bind fun found hfound => ?_
      have hnamed := caseOf_eq_ok_iff.mp hfound
      have hid : found.record ∈ (Shape.union name description cases).records :=
        List.mem_map_of_mem (Snapshot.mem_of_caseOf? hnamed)
      obtain ⟨fields, hfields⟩ := hrecords found.record hid
      exact reports_instance path (by rw [instanceOf?, hnamed, Option.map_some]) hfields
        (hfield hid hfields)
    | _ =>
      have hkind : (Content.object entries).kind ≠ shape.core.kind := by
        intro hkind
        have hfielded := Shape.isFielded_of_kind_object hkind.symm
        rw [hcore] at hfielded
        cases hfielded
      simpa [hcore, soughtFields, instanceOf?] using reports_leaf path (.inr hkind)
  | _ =>
    rw [value, faults]
    · split
      · exact .ok _
      · exact reports_leaf path (.inl rfl)
    all_goals simp

end Decoding

theorem decode_eq_error_iff {t : TypeExpr} {shape : Shape} {c : Content} {e : DecodeError}
    (hshape : ds.shapeOf t = .ok shape) (hresolves : Resolves ds shape) :
    decode ds c t = .error e ↔ (faults ds c shape .top).head? = some e := by
  rw [decode_eq hshape]
  exact Decoding.reports_value c hresolves .top e

/-- The error that decoding ends with is the first fault of the content. Its path, as it is written,
gives steps from the root to the node that the error describes, and so does every fault after it. -/
theorem first_fault_of_decode {t : TypeExpr} {shape : Shape} {c : Content} {e : DecodeError}
    (hshape : ds.shapeOf t = .ok shape) (hresolves : Resolves ds shape)
    (h : decode ds c t = .error e) :
    ∃ rest, faults ds c shape .top = e :: rest ∧ ∀ fault ∈ e :: rest, ∃ steps node,
      fault.path?.map Path.text = some ("$" ++ String.join (steps.map Step.text)) ∧
        c.at? steps = some node ∧ fault.Describes node := by
  have hhead := (decode_eq_error_iff hshape hresolves).mp h
  obtain ⟨rest, hrest⟩ := List.head?_eq_some_iff.mp hhead
  refine ⟨rest, hrest, fun fault hfault => ?_⟩
  obtain ⟨steps, node, hpath, hnode, hdescribes⟩ := pointsInto_of_mem_faults c (hrest ▸ hfault)
  exact ⟨steps, node, by rw [hpath]; rfl, hnode, hdescribes⟩

namespace Forest

/-- A fork in front of which is a leaf without a size, and behind which is nothing that is known. -/
def brokenFork : Content :=
  .object [("behind", .object [("type", .string "twig")]),
    ("value", .object [("size", .string "three"), ("type", .string "leaf")])]

theorem decode_brokenFork :
    decode forest brokenFork (.named "Fork") =
      .error (.mismatch ⟨"number", "string", ⟨"$", [.key "value", .key "size"]⟩⟩) := by
  rw [decode_eq shapeOf_fork]
  simp [brokenFork, Decoding.value, fork, Shape.core, fieldShapes_fork, Except.mapError, forkFields,
    bind, Except.bind, Decoding.field, tree, fieldShapes_leaf, leafFields, Decoding.caseOf,
    Entries.get?, discriminatorKey, Content.asString, caseFor?, integer, Content.isNull,
    Content.kind, Shape.isOptional, Decoding.leaf, decodePrimitive, Content.asNumber,
    Content.mismatch, Kind.name, Path.key, Path.top, List.mapM_cons, Except.map]

end Forest

open Forest in
theorem first_fault_brokenFork :
    forest.shapeOf (.named "Fork") = .ok fork ∧ Resolves forest fork ∧
      decode forest brokenFork (.named "Fork") =
        .error (.mismatch ⟨"number", "string", ⟨"$", [.key "value", .key "size"]⟩⟩) ∧
      ∃ rest, faults forest brokenFork fork .top =
          .mismatch ⟨"number", "string", ⟨"$", [.key "value", .key "size"]⟩⟩ :: rest ∧
        ∀ fault ∈ .mismatch ⟨"number", "string", ⟨"$", [.key "value", .key "size"]⟩⟩ :: rest,
          ∃ steps node,
            fault.path?.map Path.text = some ("$" ++ String.join (steps.map Step.text)) ∧
              brokenFork.at? steps = some node ∧ fault.Describes node :=
  ⟨shapeOf_fork, resolves, decode_brokenFork,
    first_fault_of_decode shapeOf_fork resolves decode_brokenFork⟩

end StructuredOutput

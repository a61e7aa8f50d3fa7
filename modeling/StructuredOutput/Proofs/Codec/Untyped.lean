import StructuredOutput.Proofs.Codec.Integers
import StructuredOutput.Proofs.Codec.RoundTrip

/-!
Encoding without a type. A value of a class of its own is encoded like a value of that class, alone
and as an item, but for a member that is an integer besides: this is taken for the integer.
-/

namespace StructuredOutput

/-! ### Places in a tree around a tree -/

/-- The path to a node of a tree that stands at a path itself. -/
def Path.below (base p : Path) : Path := ⟨base.root, base.steps ++ p.steps⟩

@[simp] theorem Path.below_top (base : Path) : base.below .top = base := by
  simp [below, top]

theorem Path.below_key (base p : Path) (name : String) :
    (base.below p).key name = base.below (p.key name) := by
  simp [below, key]

theorem Path.below_index (base p : Path) (i : Nat) :
    (base.below p).index i = base.below (p.index i) := by
  simp [below, index]

/-- What is said of a value that does not encode if its tree stands at a path. -/
def EncodeError.below (base : Path) : EncodeError → EncodeError
  | .mismatch cause => .mismatch { cause with path := base.below cause.path }
  | e => e

namespace Encoding

variable {ds : Declarations} {base : Path}

theorem mapError_number (r : Except NumberFault Content) :
    (r.mapError .number).mapError (EncodeError.below base) = r.mapError .number :=
  Outcome.mapError_mapError r _ _

theorem mapError_type {α : Type} (r : Except TypeFault α) :
    (r.mapError .type).mapError (EncodeError.below base) = r.mapError .type :=
  Outcome.mapError_mapError r _ _

theorem primitive_below (type : Primitive) (v : Value) (path : Path) :
    primitive ds type v (base.below path) =
      (primitive ds type v path).mapError (.below base) := by
  unfold primitive
  split
  · rfl
  · rfl
  · exact (mapError_number _).symm
  · exact (mapError_number _).symm
  · exact (mapError_number _).symm
  · rfl

theorem leaf_below (shape : Shape) (v : Value) (path : Path) :
    leaf ds shape v (base.below path) = (leaf ds shape v path).mapError (.below base) := by
  cases shape with
  | primitive type constraints => exact primitive_below type v path
  | literal values constraints =>
    simp only [leaf]
    split <;> rfl
  | enum id name description =>
    cases v with
    | member enum name value mixed =>
      simp only [leaf]
      split <;> rfl
    | _ => rfl
  | array | record | union | optional => rfl

/-- The place of a record matters to its fields if it matters to its attributes. -/
theorem entries_below {attrs : List (String × Value)}
    (each : ∀ e ∈ attrs, ∀ shape path,
      value ds e.2 shape (base.below path) = (value ds e.2 shape path).mapError (.below base))
    (fields : List FieldShape) (path : Path) :
    (fields.mapM fun f => (f.key, ·) <$> field ds attrs f (base.below path)) =
      (fields.mapM fun f => (f.key, ·) <$> field ds attrs f path).mapError (.below base) := by
  rw [← Outcome.mapM_mapError]
  refine Outcome.mapM_congr fun f _ => ?_
  refine Eq.trans ?_ (Outcome.map_mapError _ _ _).symm
  refine congrArg (Except.map _) ?_
  rw [field_eq, field_eq]
  cases hget : Entries.get? attrs f.attr with
  | none => rfl
  | some v =>
    dsimp only
    rw [Path.below_key]
    exact each (f.attr, v) (Entries.mem_of_get? hget) _ _

mutual

/-- The place of a value shows in an error only. -/
theorem value_below (v : Value) (shape : Shape) (path : Path) :
    value ds v shape (base.below path) = (value ds v shape path).mapError (.below base) := by
  match v with
  | .list items | .tuple items =>
    rw [value, value]
    cases hcore : shape.core with
    | array item container constraints =>
      dsimp only
      rw [values_below items, Outcome.map_mapError]
    | _ => exact leaf_below _ _ _
  | .record id attrs =>
    have each : ∀ e ∈ attrs, ∀ shape path,
        value ds e.2 shape (base.below path) = (value ds e.2 shape path).mapError (.below base) :=
      fun e he => attrs_below attrs he
    rw [value, value]
    cases hcore : shape.core with
    | record declared name description =>
      dsimp only
      split
      · simp only [Outcome.bind_mapError, mapError_type, entries_below each]
        rfl
      · exact leaf_below _ _ _
    | union name description cases =>
      dsimp only
      split
      · simp only [Outcome.bind_mapError, mapError_type, entries_below each]
        rfl
      · exact leaf_below _ _ _
    | _ => exact leaf_below _ _ _
  | .null =>
    rw [value, value]
    split
    · rfl
    · exact leaf_below _ _ _
  | .text _ | .bool _ | .integer _ | .real _ | .bytes _ | .set _ | .dict _ | .unknown | .object
  | .type _ | .member _ _ _ _ | .slots _ _ =>
    rw [value, value]
    · exact leaf_below _ _ _
    all_goals simp

theorem values_below (vs : List Value) (item : Shape) (path : Path) (i : Nat) :
    values ds vs item (base.below path) i = (values ds vs item path i).mapError (.below base) := by
  match vs with
  | [] => rfl
  | v :: vs =>
    rw [values, values, Path.below_index, value_below v, values_below vs]
    simp only [Outcome.bind_mapError]
    rfl

theorem attrs_below (attrs : List (String × Value)) {e : String × Value} (he : e ∈ attrs)
    (shape : Shape) (path : Path) :
    value ds e.2 shape (base.below path) = (value ds e.2 shape path).mapError (.below base) := by
  match attrs with
  | [] => cases he
  | (n, v) :: rest =>
    rcases List.mem_cons.mp he with rfl | he
    · exact value_below v shape path
    · exact attrs_below rest he shape path

end

/-- The content of an instance is the same wherever it stands. -/
theorem ofClass_below (v : Value) (id : String) (path : Path) :
    ofClass ds v id path = (encode ds v (some (.named id))).mapError (.below path) := by
  simp only [ofClass, encode, Outcome.bind_mapError, mapError_type]
  congr 1
  funext shape
  rw [← value_below, Path.below_top]

theorem mapError_below_top (v : Value) (id : String) :
    (encode ds v (some (.named id))).mapError (.below .top) = encode ds v (some (.named id)) :=
  (ofClass_below v id .top).symm

end Encoding

/-! ### Values with a class of their own -/

/-- The members of the enumerations that have a shape, and the instances of the records that are not
declared as a case. -/
inductive OwnClass (ds : Declarations) : Value → String → Prop
  | member {id : String} {m : String × Value} {shape : Shape}
      (supported : ds.shapeOf (.named id) = .ok shape) (declared : m ∈ (ds.enumOf id).canonical)
      (mixed : ∀ mixin, (ds.enumOf id).mixin = some mixin → mixin.Holds m.2) :
      OwnClass ds ((ds.enumOf id).memberValue id m) id
  | record {id : String} (untagged : (ds.naming id).case = none) (attrs : List (String × Value)) :
      OwnClass ds (.record id attrs) id

variable {ds : Declarations} {id : String} {m : String × Value} {shape : Shape} {v : Value}

/-- The shape of an enumeration with members is its own. -/
theorem eq_enum_of_shapeOf (supported : ds.shapeOf (.named id) = .ok shape)
    (declared : m ∈ (ds.enumOf id).canonical) :
    shape = .enum id (ds.schemaName id) (ds.naming id).description := by
  cases henum : ds.enum? id with
  | none =>
    rw [Declarations.enumOf, henum] at declared
    cases declared
  | some e =>
    have hfind : ds.find? id = some (.enum e) := by
      unfold Declarations.enum? at henum
      split at henum
      · next h => exact Option.some.inj henum ▸ h
      · cases henum
    simp only [Declarations.shapeOf, Declarations.resolve, hfind, Declarations.notUnion,
      Declarations.classShape, List.isEmpty_nil, Bool.not_true, Bool.false_eq_true, if_false,
      Outcome.mapError_eq_ok] at supported
    split at supported
    · cases supported
    split at supported
    · cases supported
    · exact (Except.ok.inj supported).symm

theorem encode_member (supported : ds.shapeOf (.named id) = .ok shape)
    (declared : m ∈ (ds.enumOf id).canonical) :
    encode ds ((ds.enumOf id).memberValue id m) (some (.named id)) =
      .ok (.string (wireValue m)) := by
  rw [eq_enum_of_shapeOf supported declared] at supported
  simp [encode, supported, Except.mapError, bind, Except.bind, Encoding.value,
    EnumDecl.memberValue, Shape.core, Encoding.leaf]

/-- A value that is no integer is encoded like a value of its own class, wherever it stands. -/
theorem OwnClass.untyped (h : OwnClass ds v id) (hplain : v.asInteger? = none) (path : Path) :
    Encoding.untyped ds v path =
      (encode ds v (some (.named id))).mapError (.below path) := by
  cases h with
  | @member _ m _ supported declared mixed =>
    cases hmixin : (ds.enumOf id).mixin with
    | none =>
      rw [← Encoding.ofClass_below]
      simp [EnumDecl.memberValue, hmixin, Encoding.untyped, Content.ofScalar?, Value.base]
    | some mixin =>
      have hholds := mixed mixin hmixin
      cases mixin with
      | text =>
        obtain ⟨s, hs⟩ := hholds
        rw [encode_member supported declared]
        simp [EnumDecl.memberValue, hmixin, Encoding.untyped, Content.ofScalar?, Value.base, hs,
          wireValue, Value.asText?, Except.mapError]
      | integer =>
        obtain ⟨n, hn⟩ := hholds
        simp [EnumDecl.memberValue, hmixin, Value.asInteger?, Value.base, hn] at hplain
  | record untagged attrs =>
    rw [← Encoding.ofClass_below]
    simp [Encoding.untyped, Content.ofScalar?, Value.base, Encoding.record, untagged]

theorem Content.ofInteger_ne_string (n : Int) (s : String) :
    Content.ofInteger n ≠ .ok (.string s) := by
  intro h
  obtain ⟨x, -, hx⟩ := ofInteger_eq_ok.mp h
  cases hx

/-- An integer member is encoded like the integer. -/
theorem OwnClass.untyped_integer (h : OwnClass ds v id) {n : Int} (hn : v.asInteger? = some n)
    (path : Path) :
    Encoding.untyped ds v path = (Content.ofInteger n).mapError .number ∧
      ∃ s, encode ds v (some (.named id)) = .ok (.string s) := by
  cases h with
  | @member _ m _ supported declared mixed =>
    refine ⟨?_, wireValue m, encode_member supported declared⟩
    unfold Value.asInteger? at hn
    split at hn
    · next k hbase =>
      cases hn
      rw [Encoding.untyped.eq_def, Content.ofScalar?, hbase]
    · cases hn
  | record untagged attrs => cases hn

theorem OwnClass.untyped_eq_ok_iff (h : OwnClass ds v id) {c : Content}
    (hc : encode ds v (some (.named id)) = .ok c) (path : Path) :
    Encoding.untyped ds v path = .ok c ↔ v.asInteger? = none := by
  constructor
  · intro huntyped
    cases hinteger : v.asInteger? with
    | none => rfl
    | some n =>
      obtain ⟨heq, s, hs⟩ := h.untyped_integer hinteger path
      rw [heq, Outcome.mapError_eq_ok] at huntyped
      obtain rfl : c = .string s := Except.ok.inj (hc.symm.trans hs)
      exact absurd huntyped (Content.ofInteger_ne_string n s)
  · intro hplain
    rw [h.untyped hplain, hc, Except.mapError]

/-! ### Items -/

/-- The items of an array are encoded like values of their own classes. An error says at which item
it is. -/
theorem untypedItems_eq {items : List (Value × String)}
    (each : ∀ e ∈ items, OwnClass ds e.1 e.2) (plain : ∀ e ∈ items, e.1.asInteger? = none)
    (path : Path) (i : Nat) :
    Encoding.untypedItems ds (items.map (·.1)) path i =
      (items.zipIdx i).mapM fun e =>
        (encode ds e.1.1 (some (.named e.1.2))).mapError (.below (path.index e.2)) := by
  induction items generalizing i with
  | nil => rfl
  | cons e items ih =>
    obtain ⟨hown, each⟩ := List.forall_mem_cons.mp each
    obtain ⟨hplain, plain⟩ := List.forall_mem_cons.mp plain
    rw [List.map_cons, Encoding.untypedItems, hown.untyped hplain, ih each plain, List.zipIdx_cons,
      List.mapM_cons]
    rfl

theorem untypedItems_eq_ok_iff {items : List (Value × String)} {cs : List Content}
    (each : ∀ e ∈ items, OwnClass ds e.1 e.2)
    (typed : List.Forall₂ (fun e c => encode ds e.1 (some (.named e.2)) = .ok c) items cs)
    (path : Path) (i : Nat) :
    Encoding.untypedItems ds (items.map (·.1)) path i = .ok cs ↔
      ∀ e ∈ items, e.1.asInteger? = none := by
  induction typed generalizing i with
  | nil => simp [Encoding.untypedItems]
  | @cons e c items cs hc _ ih =>
    obtain ⟨hown, each⟩ := List.forall_mem_cons.mp each
    rw [List.forall_mem_cons, ← hown.untyped_eq_ok_iff hc (path.index i), ← ih each (i + 1),
      List.map_cons, Encoding.untypedItems]
    simp only [Outcome.bind_eq_ok, Except.ok.injEq, List.cons.injEq]
    constructor
    · rintro ⟨d, hd, ds, hds, rfl, rfl⟩
      exact ⟨hd, hds⟩
    · rintro ⟨hd, hds⟩
      exact ⟨c, hd, cs, hds, rfl, rfl⟩

/-! ### Members -/

/-- A number is no member of an enumeration, not even of one of integers. -/
theorem decode_number_ne_ok {name : String} {description : Option String}
    (supported : ds.shapeOf (.named id) = .ok (.enum id name description)) (x : Double)
    (w : Value) : decode ds (.number x) (.named id) ≠ .ok w := by
  intro h
  rw [decode_eq supported] at h
  simp [Decoding.value, Content.isNull, Content.kind, Shape.core, Decoding.leaf, Decoding.member,
    Content.asString, Content.mismatch] at h

/-- What a member is encoded to without a type is decoded to the member, unless this is an
integer. -/
theorem decode_untyped_member_iff (supported : ds.shapeOf (.named id) = .ok shape)
    (declared : m ∈ (ds.enumOf id).canonical)
    (mixed : ∀ mixin, (ds.enumOf id).mixin = some mixin → mixin.Holds m.2) :
    (∃ c w, encode ds ((ds.enumOf id).memberValue id m) none = .ok c ∧
        decode ds c (.named id) = .ok w ∧
          w.same ((ds.enumOf id).memberValue id m) = true) ↔
      ((ds.enumOf id).memberValue id m).asInteger? = none := by
  have hown : OwnClass ds ((ds.enumOf id).memberValue id m) id := .member supported declared mixed
  have hshape := eq_enum_of_shapeOf supported declared
  constructor
  · rintro ⟨c, w, hc, hw, -⟩
    cases hinteger : ((ds.enumOf id).memberValue id m).asInteger? with
    | none => rfl
    | some n =>
      rw [encode, (hown.untyped_integer hinteger .top).1, Outcome.mapError_eq_ok] at hc
      obtain ⟨x, -, rfl⟩ := ofInteger_eq_ok.mp hc
      exact absurd hw (decode_number_ne_ok (hshape ▸ supported) x w)
  · intro hplain
    have hcoherent : Shape.Coherent ds (.enum id _ _) :=
      hshape ▸ Declarations.coherent_of_shapeOf supported
    obtain ⟨c, hc, -, hback⟩ := member_roundTrips declared mixed hcoherent (ds.schemaName id)
      (ds.naming id).description .top
    obtain ⟨w, hw, hsame⟩ := hback .top
    have htyped : encode ds ((ds.enumOf id).memberValue id m) (some (.named id)) = .ok c := by
      rw [hshape] at supported
      simp [encode, supported, hc]
    refine ⟨c, w, (hown.untyped_eq_ok_iff htyped .top).mpr hplain, ?_, hsame⟩
    rw [decode_eq supported, hshape, hw]

/-- Encoding without a type and encoding as a value of the own class agree for all members that are
no integers, and for all instances, alone and as the items of an array: such an array has the
contents of its items in order, or the first error among them, at the index of the item. They
disagree for integer members, which no longer decode. -/
theorem encode_untyped_iff (ds : Declarations) :
    (∀ v id, OwnClass ds v id →
      (encode ds v none = encode ds v (some (.named id)) ↔ v.asInteger? = none)) ∧
    (∀ items : List (Value × String), (∀ e ∈ items, OwnClass ds e.1 e.2) →
      ∀ whole ∈ [Value.list (items.map (·.1)), .tuple (items.map (·.1))],
        ((∀ e ∈ items, e.1.asInteger? = none) →
          encode ds whole none =
            ((items.zipIdx.mapM fun e =>
              (encode ds e.1.1 (some (.named e.1.2))).mapError (.below (Path.top.index e.2))).map
                .array)) ∧
        ∀ cs, List.Forall₂ (fun e c => encode ds e.1 (some (.named e.2)) = .ok c) items cs →
          (encode ds whole none = .ok (.array cs) ↔ ∀ e ∈ items, e.1.asInteger? = none)) ∧
    ∀ id m shape, ds.shapeOf (.named id) = .ok shape → m ∈ (ds.enumOf id).canonical →
      (∀ mixin, (ds.enumOf id).mixin = some mixin → mixin.Holds m.2) →
      ((∃ c w, encode ds ((ds.enumOf id).memberValue id m) none = .ok c ∧
          decode ds c (.named id) = .ok w ∧
            w.same ((ds.enumOf id).memberValue id m) = true) ↔
        ((ds.enumOf id).memberValue id m).asInteger? = none) := by
  refine ⟨fun v id hown => ⟨fun h => ?_, fun hplain => ?_⟩, fun items each whole hwhole => ?_,
    fun id m shape => decode_untyped_member_iff⟩
  · cases hinteger : v.asInteger? with
    | none => rfl
    | some n =>
      obtain ⟨-, s, hs⟩ := hown.untyped_integer hinteger .top
      exact absurd ((hown.untyped_eq_ok_iff hs .top).mp (h.trans hs)) (by simp [hinteger])
  · rw [encode, hown.untyped hplain, Encoding.mapError_below_top]
  · have harray : encode ds whole none =
        (Encoding.untypedItems ds (items.map (·.1)) .top 0).map .array := by
      simp only [List.mem_cons, List.not_mem_nil, or_false] at hwhole
      rcases hwhole with rfl | rfl <;>
        simp [encode, Encoding.untyped, Content.ofScalar?, Value.base]
    refine ⟨fun plain => by rw [harray, untypedItems_eq each plain], fun cs typed => ?_⟩
    rw [harray, ← untypedItems_eq_ok_iff each typed .top 0, Outcome.map_eq_ok]
    simp

/-- Levels that are texts, ranks that are integers, and tasks that have a level. -/
def tasks : Declarations :=
  ⟨"tasks", [
    ("Level", .enum ⟨"Level", none, some .text, [("LOW", .text "low"), ("HIGH", .text "high")]⟩),
    ("Rank", .enum ⟨"Rank", none, some .integer, [("FIRST", .integer 1)]⟩),
    ("Task", .record ⟨"Task", none, none,
      [⟨"level", .named "Level", none, none, false, none, true⟩]⟩)]⟩

namespace Tasks

def low : Value := .member "Level" "LOW" (.text "low") true

def first : Value := .member "Rank" "FIRST" (.integer 1) true

def task : Value := .record "Task" [("level", low)]

theorem shapeOf_level : tasks.shapeOf (.named "Level") = .ok (.enum "Level" "Level" none) := by cbv

theorem shapeOf_rank : tasks.shapeOf (.named "Rank") = .ok (.enum "Rank" "Rank" none) := by cbv

theorem declared_low : ("LOW", .text "low") ∈ (tasks.enumOf "Level").canonical := by
  have hcanonical : (tasks.enumOf "Level").canonical =
      [("LOW", .text "low"), ("HIGH", .text "high")] := by cbv
  exact hcanonical ▸ List.mem_cons_self

theorem declared_first : ("FIRST", .integer 1) ∈ (tasks.enumOf "Rank").canonical := by
  have hcanonical : (tasks.enumOf "Rank").canonical = [("FIRST", .integer 1)] := by cbv
  exact hcanonical ▸ List.mem_cons_self

theorem own_low : OwnClass tasks low "Level" :=
  .member shapeOf_level declared_low fun _ h => Option.some.inj h ▸ ⟨"low", rfl⟩

theorem own_first : OwnClass tasks first "Rank" :=
  .member shapeOf_rank declared_first fun _ h => Option.some.inj h ▸ ⟨1, rfl⟩

theorem own_task : OwnClass tasks task "Task" := .record rfl _

end Tasks

open Tasks in
theorem encode_untyped_iff_tasks :
    OwnClass tasks low "Level" ∧ OwnClass tasks task "Task" ∧ OwnClass tasks first "Rank" ∧
      encode tasks low none = encode tasks low (some (.named "Level")) ∧
      encode tasks (.list [low, task]) none =
        .ok (.array [.string "low", .object [("level", .string "low")]]) ∧
      encode tasks first none ≠ encode tasks first (some (.named "Rank")) := by
  obtain ⟨halone, hitems, -⟩ := encode_untyped_iff tasks
  refine ⟨own_low, own_task, own_first, (halone _ _ own_low).mpr rfl, ?_,
    fun h => nomatch (halone _ _ own_first).mp h⟩
  have each : ∀ e ∈ [(low, "Level"), (task, "Task")], OwnClass tasks e.1 e.2 := by
    simp [own_low, own_task]
  obtain ⟨-, htyped⟩ := hitems _ each (.list [low, task]) List.mem_cons_self
  refine (htyped _ (.cons (by cbv) (.cons (by cbv) .nil))).mpr ?_
  simp [low, task, Value.asInteger?, Value.base]

open Tasks in
/-- An integer member is encoded as a number without a type and as its name with one, and the number
does not decode. -/
theorem not_encode_untyped_first :
    ∃ x, encode tasks first none = .ok (.number x) ∧
      encode tasks first (some (.named "Rank")) = .ok (.string "FIRST") ∧
      ∀ w, decode tasks (.number x) (.named "Rank") ≠ .ok w := by
  obtain ⟨x, hx⟩ := Double.exists_signedUnits (n := 1) (by decide)
  obtain ⟨y, hy, -⟩ := Double.exists_ofInt_of_signedUnits hx
  have huntyped : encode tasks first none = (Content.ofInteger 1).mapError .number :=
    (own_first.untyped_integer rfl .top).1
  refine ⟨y, ?_, encode_member shapeOf_rank declared_first, decode_number_ne_ok shapeOf_rank y⟩
  rw [huntyped, ofInteger_eq_ok.mpr ⟨y, hy, rfl⟩, Except.mapError]

end StructuredOutput

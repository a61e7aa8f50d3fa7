import StructuredOutput.Proofs.Codec.Inversion

/-!
The text of a tree does not tell a negative zero from a positive one. Neither does equality of
values, so decoding a tree and decoding what its text tells come to the same.
-/

namespace StructuredOutput

namespace Double

/-- The same number, a zero without its sign. -/
def positiveZero (x : Double) : Double := if x.units = 0 then zero else x

theorem signedUnits_positiveZero (x : Double) : x.positiveZero.signedUnits = x.signedUnits := by
  by_cases h : x.units = 0 <;> simp [positiveZero, signedUnits, zero, h]

theorem toInt?_positiveZero (x : Double) : x.positiveZero.toInt? = x.toInt? := by
  by_cases h : x.units = 0 <;> simp [positiveZero, toInt?, isIntegral, truncate, zero, h]

end Double

namespace Content

mutual

/-- A tree with zeros without a sign. -/
def positiveZeros : Content → Content
  | null => null
  | bool b => bool b
  | number x => number x.positiveZero
  | string s => string s
  | array items => array (positiveZerosItems items)
  | object entries => object (positiveZerosEntries entries)

def positiveZerosItems : List Content → List Content
  | [] => []
  | c :: cs => positiveZeros c :: positiveZerosItems cs

def positiveZerosEntries : List (String × Content) → List (String × Content)
  | [] => []
  | (k, c) :: cs => (k, positiveZeros c) :: positiveZerosEntries cs

end

theorem kind_positiveZeros (c : Content) : c.positiveZeros.kind = c.kind := by
  cases c <;> rfl

theorem positiveZerosEntries_eq_map (entries : List (String × Content)) :
    positiveZerosEntries entries = entries.map fun e => (e.1, e.2.positiveZeros) := by
  induction entries with
  | nil => rfl
  | cons e entries ih => rw [positiveZerosEntries, ih, List.map_cons]

end Content

/-! ### Values up to the signs of zeros -/

mutual

/-- Values that differ in the signs of zeros only. -/
inductive Value.Alike : Value → Value → Prop
  | same (v : Value) : Alike v v
  | real {x y : Double} (h : x.signedUnits = y.signedUnits) :
    Alike (.real (.finite x)) (.real (.finite y))
  | list {xs ys : List Value} (h : AlikeItems xs ys) : Alike (.list xs) (.list ys)
  | tuple {xs ys : List Value} (h : AlikeItems xs ys) : Alike (.tuple xs) (.tuple ys)
  | record (id : String) {xs ys : List (String × Value)} (h : AlikeFields xs ys) :
    Alike (.record id xs) (.record id ys)

inductive Value.AlikeItems : List Value → List Value → Prop
  | nil : AlikeItems [] []
  | cons {x y : Value} {xs ys : List Value} (h : Alike x y) (hs : AlikeItems xs ys) :
    AlikeItems (x :: xs) (y :: ys)

inductive Value.AlikeFields : List (String × Value) → List (String × Value) → Prop
  | nil : AlikeFields [] []
  | cons (name : String) {x y : Value} {xs ys : List (String × Value)} (h : Alike x y)
    (hs : AlikeFields xs ys) : AlikeFields ((name, x) :: xs) ((name, y) :: ys)

end

namespace Value

theorem same_real {x y : Double} (h : x.signedUnits = y.signedUnits) (u : Value) :
    same (.real (.finite x)) u = same (.real (.finite y)) u := by
  have hnumber (n : Int ⊕ Floating) :
      sameNumber (.inr (.finite x)) n = sameNumber (.inr (.finite y)) n := by
    rcases n with m | z
    · simp only [sameNumber, h]
    · cases z <;> simp [sameNumber, Floating.sameValue, Double.sameValue, h]
  cases u with
  | member enum name v mixed =>
    simp only [same]
    generalize (member enum name v mixed).asNumber? = n
    cases n with
    | none => rfl
    | some n => exact hnumber n
  | _ => simp only [same, asNumber?, base, hnumber]

mutual

/-- Values that differ in the signs of zeros only are equal to the same values. -/
theorem Alike.same_left {v w : Value} (h : Alike v w) (u : Value) (hu : v.same u = true) :
    w.same u = true := by
  cases h with
  | same => exact hu
  | real h => rwa [same_real h] at hu
  | list h =>
    cases u with
    | list us => simpa only [Value.same] using h.sameAll us (by simpa only [Value.same] using hu)
    | _ => simp [Value.same, asNumber?, base] at hu
  | tuple h =>
    cases u with
    | tuple us => simpa only [Value.same] using h.sameAll us (by simpa only [Value.same] using hu)
    | _ => simp [Value.same, asNumber?, base] at hu
  | record id h =>
    cases u with
    | record c us =>
      simp only [Value.same, Bool.and_eq_true] at hu ⊢
      exact ⟨hu.1, h.sameFields us hu.2⟩
    | _ => simp [Value.same, asNumber?, base] at hu

theorem AlikeItems.sameAll {xs ys : List Value} (h : AlikeItems xs ys) (us : List Value)
    (hus : sameAll xs us = true) : sameAll ys us = true := by
  cases h with
  | nil => exact hus
  | cons h hs =>
    cases us with
    | nil => simp [Value.sameAll] at hus
    | cons u us =>
      simp only [Value.sameAll, Bool.and_eq_true] at hus ⊢
      exact ⟨h.same_left u hus.1, hs.sameAll us hus.2⟩

theorem AlikeFields.sameFields {xs ys : List (String × Value)} (h : AlikeFields xs ys)
    (us : List (String × Value)) (hus : sameFields xs us = true) : sameFields ys us = true := by
  cases h with
  | nil => exact hus
  | cons name h hs =>
    cases us with
    | nil => simp [Value.sameFields] at hus
    | cons u us =>
      obtain ⟨n, u⟩ := u
      simp only [Value.sameFields, Bool.and_eq_true] at hus ⊢
      exact ⟨⟨hus.1.1, h.same_left u hus.1.2⟩, hs.sameFields us hus.2⟩

end

end Value

/-! ### Decoding -/

variable {ds : Declarations}

theorem alikeFields_of_mapM {fields : List FieldShape} {given : List (String × Value)}
    {read read' : FieldShape → Except DecodeError Value}
    (h : (fields.mapM fun f => (f.attr, ·) <$> read f) = .ok given)
    (each : ∀ f v, read f = .ok v → ∃ w, read' f = .ok w ∧ v.Alike w) :
    ∃ given', (fields.mapM fun f => (f.attr, ·) <$> read' f) = .ok given' ∧
      Value.AlikeFields given given' := by
  rw [Outcome.mapM_eq_ok] at h
  induction h with
  | nil => exact ⟨[], rfl, .nil⟩
  | @cons f e _ _ he _ ih =>
    obtain ⟨v, hv, rfl⟩ := Outcome.functorMap_eq_ok.mp he
    obtain ⟨w, hw, halike⟩ := each f v hv
    obtain ⟨rest, hrest, halikes⟩ := ih
    rw [Outcome.mapM_eq_ok] at hrest
    refine ⟨(f.attr, w) :: rest, ?_, .cons f.attr halike halikes⟩
    rw [Outcome.mapM_eq_ok]
    exact .cons (Outcome.functorMap_eq_ok.mpr ⟨w, hw, rfl⟩) hrest

theorem Value.AlikeFields.get? {xs ys : List (String × Value)} (h : AlikeFields xs ys)
    (name : String) : (Entries.get? xs name = none ∧ Entries.get? ys name = none) ∨
      ∃ v w, Entries.get? xs name = some v ∧ Entries.get? ys name = some w ∧ v.Alike w := by
  induction xs generalizing ys with
  | nil =>
    cases h
    exact .inl ⟨rfl, rfl⟩
  | cons x xs ih =>
    cases h with
    | cons n hxy hs =>
      by_cases hn : n = name
      · subst hn
        exact .inr ⟨_, _, Entries.get?_cons_self .., Entries.get?_cons_self .., hxy⟩
      · rw [Entries.get?_cons_of_ne _ _ hn, Entries.get?_cons_of_ne _ _ hn]
        exact ih hs

theorem Declarations.alike_instantiate (id : String) {given given' : List (String × Value)}
    (h : Value.AlikeFields given given') :
    (ds.instantiate id given).Alike (ds.instantiate id given') := by
  refine .record id ?_
  induction ds.fields id with
  | nil => exact .nil
  | cons f fs ih =>
    simp only [List.filterMap_cons]
    rcases h.get? f.name with ⟨hnone, hnone'⟩ | ⟨v, w, hv, hw, halike⟩
    · rw [hnone, hnone']
      cases f.default with
      | none => exact ih
      | some v => exact .cons f.name (.same v) ih
    · rw [hv, hw]
      exact .cons f.name halike ih

namespace Decoding

open Content

theorem instanceOf?_positiveZeros (entries : List (String × Content)) (shape : Shape) :
    instanceOf? (positiveZerosEntries entries) shape = instanceOf? entries shape := by
  cases shape with
  | union name description cases =>
    have hcase : Snapshot.caseOf? cases (positiveZerosEntries entries) =
        Snapshot.caseOf? cases entries := by
      rw [Snapshot.caseOf?, Snapshot.caseOf?, positiveZerosEntries_eq_map, Entries.get?_map]
      cases Entries.get? entries discriminatorKey with
      | none => rfl
      | some c => cases c <;> rfl
    rw [instanceOf?, instanceOf?, hcase]
  | _ => rfl

theorem leafValue_positiveZeros {shape : Shape} {c : Content} {v : Value}
    (h : LeafValue ds shape c v) : ∃ w, LeafValue ds shape c.positiveZeros w ∧ v.Alike w := by
  cases h with
  | text constraints s => exact ⟨_, .text constraints s, .same _⟩
  | bool constraints b => exact ⟨_, .bool constraints b, .same _⟩
  | real constraints x =>
    exact ⟨_, .real constraints x.positiveZero, .real x.signedUnits_positiveZero.symm⟩
  | @integer x n whole constraints =>
    exact ⟨_, .integer (x.toInt?_positiveZero.trans whole) constraints, .same _⟩
  | literal option constraints => exact ⟨_, .literal option constraints, .same _⟩
  | member declared name description => exact ⟨_, .member declared name description, .same _⟩

theorem values_positiveZeros {cs : List Content} {item : Shape} {path : Path} {i : Nat}
    {vs : List Value}
    (each : ∀ c ∈ cs, ∀ path v, value ds c item path = .ok v →
      ∃ w, value ds c.positiveZeros item path = .ok w ∧ v.Alike w)
    (h : values ds cs item path i = .ok vs) :
    ∃ ws, values ds (positiveZerosItems cs) item path i = .ok ws ∧ Value.AlikeItems vs ws := by
  induction cs generalizing i vs with
  | nil =>
    cases h
    exact ⟨[], rfl, .nil⟩
  | cons c cs ih =>
    rw [values] at h
    simp only [Outcome.bind_eq_ok] at h
    obtain ⟨v, hv, vs', hvs, heq⟩ := h
    cases heq
    obtain ⟨w, hw, halike⟩ := each c List.mem_cons_self _ v hv
    obtain ⟨ws, hws, halikes⟩ := ih (fun d hd => each d (List.mem_cons_of_mem c hd)) hvs
    refine ⟨w :: ws, ?_, .cons halike halikes⟩
    rw [positiveZerosItems, values]
    simp only [Outcome.bind_eq_ok]
    exact ⟨w, hw, ws, hws, rfl⟩

theorem field_positiveZeros {entries : List (String × Content)} {f : FieldShape} {path : Path}
    {v : Value}
    (each : ∀ e ∈ entries, ∀ path v, value ds e.2 f.whole path = .ok v →
      ∃ w, value ds e.2.positiveZeros f.whole path = .ok w ∧ v.Alike w)
    (h : field ds entries f path = .ok v) :
    ∃ w, field ds (positiveZerosEntries entries) f path = .ok w ∧ v.Alike w := by
  rw [field_eq] at h
  rw [field_eq, positiveZerosEntries_eq_map, Entries.get?_map]
  cases hget : Entries.get? entries f.key with
  | none =>
    rw [hget] at h
    exact ⟨v, h, .same v⟩
  | some c =>
    rw [hget] at h
    exact each (f.key, c) (Entries.mem_of_get? hget) _ v h

/-- Without the signs of zeros, a tree is decoded to a value that differs in such signs only. -/
theorem value_positiveZeros (c : Content) {shape : Shape} {path : Path} {v : Value}
    (h : value ds c shape path = .ok v) :
    ∃ w, value ds c.positiveZeros shape path = .ok w ∧ v.Alike w := by
  induction c using members_induction generalizing shape path v with
  | null | bool | string => exact ⟨v, h, .same v⟩
  | number x =>
    cases gives_of_value h with
    | leaf holds =>
      obtain ⟨w, hw, halike⟩ := leafValue_positiveZeros holds
      exact ⟨w, value_of_leafValue hw path, halike⟩
  | array items ih =>
    cases gives_of_value h with
    | leaf holds => cases holds.isScalar
    | @items _ _ container _ _ _ core each =>
      obtain ⟨ws, hws, halike⟩ := values_positiveZeros (fun c hc _ _ hv => ih c hc hv) each
      refine ⟨container.collect ws, by rw [positiveZeros, value_array core, hws, Except.map], ?_⟩
      cases container with
      | list => exact .list halike
      | tuple => exact .tuple halike
  | object entries ih =>
    cases gives_of_value h with
    | leaf holds => cases holds.isScalar
    | @made _ _ id _ _ belongs resolved each =>
      obtain ⟨given, hgiven, halike⟩ := alikeFields_of_mapM each fun f v hf =>
        field_positiveZeros (fun e he _ _ hv => ih e he hv) hf
      have hbelongs := (instanceOf?_positiveZeros entries shape.core).trans belongs
      exact ⟨ds.instantiate id given, by simp [positiveZeros, value_object hbelongs, resolved,
        hgiven], Declarations.alike_instantiate id halike⟩

end Decoding

end StructuredOutput

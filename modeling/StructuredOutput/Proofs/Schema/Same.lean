import Mathlib
import StructuredOutput.Proofs.Schema.Positions

/-!
Equality of schemas, where bounds are compared by value: an equivalence, level by level, that keeps
the number of nodes and all positions.
-/

namespace StructuredOutput

/-! ### Bounds -/

theorem Bound.same_refl (b : Bound) : b.same b = true := beq_self_eq_true b.units

theorem sameBound_refl (b : Option Bound) : sameBound b b = true := by
  cases b with
  | none => rfl
  | some b => exact b.same_refl

theorem sameBound_symm {a b : Option Bound} (h : sameBound a b = true) : sameBound b a = true := by
  match a, b with
  | none, none => rfl
  | some a, some b => exact beq_iff_eq.mpr (eq_of_beq h).symm
  | none, some _ | some _, none => cases h

theorem sameBound_trans {a b c : Option Bound} (hab : sameBound a b = true)
    (hbc : sameBound b c = true) : sameBound a c = true := by
  match a, b, c with
  | none, none, none => rfl
  | some a, some b, some c =>
    have hunits : a.units = c.units := (eq_of_beq hab).trans (eq_of_beq hbc)
    exact beq_iff_eq.mpr hunits
  | none, some _, _ | some _, none, _ => cases hab
  | _, none, some _ | _, some _, none => cases hbc

theorem Range.same_refl (r : Range) : r.same r = true := by
  rw [Range.same, sameBound_refl, sameBound_refl, Bool.and_self]

theorem Range.same_symm {r s : Range} (h : r.same s = true) : s.same r = true := by
  simp only [Range.same, Bool.and_eq_true] at h ⊢
  exact h.imp sameBound_symm sameBound_symm

theorem Range.same_trans {q r s : Range} (hqr : q.same r = true) (hrs : r.same s = true) :
    q.same s = true := by
  simp only [Range.same, Bool.and_eq_true] at hqr hrs ⊢
  exact ⟨sameBound_trans hqr.1 hrs.1, sameBound_trans hqr.2 hrs.2⟩

namespace Schema

variable {s t u : Schema}

/-! ### Induction over parts -/

theorem sizeProperties_eq (ps : List (Property Schema)) :
    sizeProperties ps = (ps.map fun p => p.schema.size).sum := by
  induction ps with
  | nil => rfl
  | cons p ps ih => rw [sizeProperties, ih, List.map_cons, List.sum_cons]

theorem sizeAll_eq (ss : List Schema) : sizeAll ss = (ss.map size).sum := by
  induction ss with
  | nil => rfl
  | cons s ss ih => rw [sizeAll, ih, List.map_cons, List.sum_cons]

/-- A schema has one node besides those of its parts. -/
theorem size_eq (s : Schema) : s.size = (s.parts.map size).sum + 1 := by
  cases s with
  | array item counts => simp [size, parts]
  | object name description properties =>
    rw [size, sizeProperties_eq]
    simp only [parts, children, List.map_map, Function.comp_def]
  | union name description alternatives =>
    rw [size, sizeAll_eq]
    rfl
  | _ => rfl

theorem size_pos (s : Schema) : 0 < s.size := by
  rw [size_eq]
  exact Nat.succ_pos _

theorem size_lt_of_part {part : Schema} (h : part ∈ s.parts) : part.size < s.size := by
  have hle : part.size ≤ (s.parts.map size).sum :=
    List.le_sum_of_mem (List.mem_map_of_mem h)
  rw [size_eq s]
  omega

theorem size_le_of_within (h : s.Within t) : s.size ≤ t.size := by
  obtain ⟨position, hposition⟩ := h
  induction position generalizing t with
  | nil => exact le_of_eq (congrArg size (Option.some.inj hposition).symm)
  | cons i position ih =>
    rw [at?] at hposition
    obtain ⟨part, hpart, hrest⟩ := Option.bind_eq_some_iff.mp hposition
    exact (ih hrest).trans (size_lt_of_part (List.mem_of_getElem? hpart)).le

/-- What holds of a schema whenever it holds of its parts holds of all schemas. -/
theorem parts_induction {P : Schema → Prop} (h : ∀ s, (∀ part ∈ s.parts, P part) → P s)
    (s : Schema) : P s := by
  induction hsize : s.size using Nat.strong_induction_on generalizing s with
  | _ n ih =>
    subst hsize
    exact h s fun part hpart => ih part.size (size_lt_of_part hpart) part rfl

/-! ### One level -/

theorem allAlike_iff {α : Type} {alike : α → α → Bool} {xs ys : List α} :
    allAlike alike xs ys = true ↔ List.Forall₂ (fun x y => alike x y = true) xs ys := by
  induction xs generalizing ys with
  | nil => cases ys <;> simp [allAlike]
  | cons x xs ih => cases ys <;> simp [allAlike, ih]

/-- Properties that are equal but for the way in which bounds are written. -/
structure SameProperty (p q : Property Schema) : Prop where
  key : p.key = q.key
  schema : p.schema.same q.schema = true
  description : p.description = q.description
  optional : p.optional = q.optional

theorem sameProperties_iff {ps qs : List (Property Schema)} :
    sameProperties ps qs = true ↔ List.Forall₂ SameProperty ps qs := by
  induction ps generalizing qs with
  | nil => cases qs <;> simp [sameProperties]
  | cons p ps ih =>
    cases qs with
    | nil => simp [sameProperties]
    | cons q qs =>
      simp only [sameProperties, Bool.and_eq_true, beq_iff_eq, ih, List.forall₂_cons]
      constructor
      · rintro ⟨⟨⟨⟨hkey, hschema⟩, hdescription⟩, hoptional⟩, hrest⟩
        exact ⟨⟨hkey, hschema, hdescription, hoptional⟩, hrest⟩
      · rintro ⟨h, hrest⟩
        exact ⟨⟨⟨⟨h.key, h.schema⟩, h.description⟩, h.optional⟩, hrest⟩

theorem sameAll_iff {ss ts : List Schema} :
    sameAll ss ts = true ↔ List.Forall₂ (fun s t => s.same t = true) ss ts := by
  induction ss generalizing ts with
  | nil => cases ts <;> simp [sameAll]
  | cons s ss ih => cases ts <;> simp [sameAll, ih]

/-- Two schemas are equal at their roots, and their parts are equal in pairs. -/
inductive Matches : Schema → Schema → Prop
  | string (rules : List TextRule) : Matches (.string rules) (.string rules)
  | integer {ranges ranges' : List Range}
      (alike : List.Forall₂ (fun r r' => r.same r' = true) ranges ranges') :
      Matches (.integer ranges) (.integer ranges')
  | number {ranges ranges' : List Range}
      (alike : List.Forall₂ (fun r r' => r.same r' = true) ranges ranges') :
      Matches (.number ranges) (.number ranges')
  | boolean : Matches .boolean .boolean
  | array {item item' : Schema} (items : item.same item' = true) (counts : List Span) :
      Matches (.array item counts) (.array item' counts)
  | object (name : String) (description : Option String)
      {properties properties' : List (Property Schema)}
      (each : List.Forall₂ SameProperty properties properties') :
      Matches (.object name description properties) (.object name description properties')
  | union (name : String) (description : Option String) {alternatives alternatives' : List Schema}
      (each : List.Forall₂ (fun s t => s.same t = true) alternatives alternatives') :
      Matches (.union name description alternatives) (.union name description alternatives')
  | ref (name : String) : Matches (.ref name) (.ref name)

theorem same_iff : s.same t = true ↔ Matches s t := by
  constructor
  · intro h
    cases s <;> cases t <;>
      first
        | exact Bool.noConfusion h
        | simp only [same, Bool.and_eq_true, beq_iff_eq, allAlike_iff, sameProperties_iff,
            sameAll_iff] at h
    case string.string => exact h ▸ .string _
    case integer.integer => exact .integer h
    case number.number => exact .number h
    case boolean.boolean => exact .boolean
    case array.array => exact h.2 ▸ .array h.1 _
    case object.object =>
      obtain ⟨⟨rfl, rfl⟩, heach⟩ := h
      exact .object _ _ heach
    case union.union =>
      obtain ⟨⟨rfl, rfl⟩, heach⟩ := h
      exact .union _ _ heach
    case ref.ref => exact h ▸ .ref _
  · rintro (_ | h | h | _ | ⟨h, _⟩ | ⟨_, _, h⟩ | ⟨_, _, h⟩ | _)
    · simp [same]
    · simpa only [same, allAlike_iff] using h
    · simpa only [same, allAlike_iff] using h
    · rfl
    · simp [same, h]
    · simp [same, sameProperties_iff.mpr h]
    · simp [same, sameAll_iff.mpr h]
    · simp [same]

theorem Matches.parts (h : Matches s t) :
    List.Forall₂ (fun x y => x.same y = true) s.parts t.parts := by
  cases h with
  | array items => exact .cons items .nil
  | object _ _ each =>
    exact List.forall₂_map_left_iff.mpr (List.forall₂_map_right_iff.mpr
      (each.imp fun _ _ h => h.schema))
  | union _ _ each => exact each
  | _ => exact .nil

theorem Matches.name?_eq (h : Matches s t) : s.name? = t.name? := by
  cases h <;> rfl

theorem Matches.defines_eq (h : Matches s t) : s.defines = t.defines := by
  cases h <;> rfl

/-! ### All levels -/

theorem same_refl (s : Schema) : s.same s = true := by
  induction s using parts_induction with
  | h s ih =>
    rw [same_iff]
    cases s with
    | string => exact .string _
    | integer => exact .integer (List.forall₂_same.mpr fun r _ => r.same_refl)
    | number => exact .number (List.forall₂_same.mpr fun r _ => r.same_refl)
    | boolean => exact .boolean
    | array item counts => exact .array (ih item (List.mem_singleton_self item)) counts
    | object name description properties =>
      refine .object name description (List.forall₂_same.mpr fun p hp => ⟨rfl, ?_, rfl, rfl⟩)
      exact ih p.schema (mem_parts_of_mem_properties hp)
    | union name description alternatives =>
      exact .union name description (List.forall₂_same.mpr fun s hs => ih s hs)
    | ref => exact .ref _

theorem same_symm (h : s.same t = true) : t.same s = true := by
  induction s using parts_induction generalizing t with
  | h s ih =>
    rw [same_iff] at h ⊢
    cases h with
    | string rules => exact .string rules
    | integer alike => exact .integer (alike.flip.imp fun _ _ => Range.same_symm)
    | number alike => exact .number (alike.flip.imp fun _ _ => Range.same_symm)
    | boolean => exact .boolean
    | array items counts => exact .array (ih _ (List.mem_singleton_self _) items) counts
    | object name description each =>
      refine .object name description (List.forall₂_iff_get.mpr ⟨each.length_eq.symm, ?_⟩)
      intro i hi hi'
      have hpq := each.get hi' hi
      exact ⟨hpq.key.symm, ih _ (mem_parts_of_mem_properties (List.get_mem _ _)) hpq.schema,
        hpq.description.symm, hpq.optional.symm⟩
    | union name description each =>
      refine .union name description (List.forall₂_iff_get.mpr ⟨each.length_eq.symm, ?_⟩)
      exact fun i hi hi' => ih _ (List.get_mem _ _) (each.get hi' hi)
    | ref name => exact .ref name

theorem same_trans (hst : s.same t = true) (htu : t.same u = true) : s.same u = true := by
  induction s using parts_induction generalizing t u with
  | h s ih =>
    rw [same_iff] at hst htu ⊢
    cases hst with
    | string rules => exact htu
    | integer alike =>
      cases htu with
      | integer alike' =>
        exact .integer (Outcome.forall₂_comp alike alike' fun _ _ _ _ _ _ => Range.same_trans)
    | number alike =>
      cases htu with
      | number alike' =>
        exact .number (Outcome.forall₂_comp alike alike' fun _ _ _ _ _ _ => Range.same_trans)
    | boolean => exact htu
    | array items counts =>
      cases htu with
      | array items' => exact .array (ih _ (List.mem_singleton_self _) items items') counts
    | object name description each =>
      cases htu with
      | object _ _ each' =>
        refine .object name description (Outcome.forall₂_comp each each' ?_)
        intro p hp q _ r _ hpq hqr
        exact ⟨hpq.key.trans hqr.key,
          ih p.schema (mem_parts_of_mem_properties hp) hpq.schema hqr.schema,
          hpq.description.trans hqr.description, hpq.optional.trans hqr.optional⟩
    | union name description each =>
      cases htu with
      | union _ _ each' =>
        exact .union name description
          (Outcome.forall₂_comp each each' fun s hs _ _ _ _ hst htu => ih s hs hst htu)
    | ref name => exact htu

/-- Equal schemas have equally many nodes. -/
theorem size_eq_of_same (h : s.same t = true) : s.size = t.size := by
  induction s using parts_induction generalizing t with
  | h s ih =>
    have hparts := (same_iff.mp h).parts
    have hsizes : s.parts.map size = t.parts.map size := by
      rw [← List.forall₂_eq_eq_eq, List.forall₂_map_left_iff, List.forall₂_map_right_iff]
      exact ((List.forall₂_and_left (p := (· ∈ s.parts)) _ _).mpr ⟨fun _ h => h, hparts⟩).imp
        fun part _ h => ih part h.1 h.2
    rw [size_eq s, size_eq t, hsizes]

/-- A walk down the parts of a schema may go on in an equal schema at every node: it comes to an
equal of each node. -/
theorem exists_same_of_walk {root node : Schema} {seen done : Schema → Prop} (hroot : seen root)
    (hstep : ∀ s, s.Within root → seen s → ∃ t, t.Within root ∧ t.same s = true ∧ done t ∧
      ∀ part ∈ t.parts, seen part)
    (hnode : node.Within root) : ∃ t, t.Within root ∧ t.same node = true ∧ done t := by
  obtain ⟨position, hposition⟩ := hnode
  suffices hwalk : ∀ s t : Schema, t.Within root → seen t → t.same s = true →
      s.at? position = some node → ∃ t, t.Within root ∧ t.same node = true ∧ done t from
    hwalk root root (.refl root) hroot root.same_refl hposition
  clear hposition
  induction position with
  | nil =>
    intro s t ht hseen hsame hs
    obtain rfl : s = node := Option.some.inj hs
    obtain ⟨u, hu, hut, hdone, -⟩ := hstep t ht hseen
    exact ⟨u, hu, same_trans hut hsame, hdone⟩
  | cons i position ih =>
    intro s t ht hseen hsame hs
    rw [at?] at hs
    obtain ⟨part, hpart, hrest⟩ := Option.bind_eq_some_iff.mp hs
    obtain ⟨u, hu, hut, -, hparts⟩ := hstep t ht hseen
    obtain ⟨part', hpart', hsame'⟩ :=
      Outcome.exists_getElem?_right (same_iff.mp (same_trans hut hsame)).parts.flip hpart
    have hmem : part' ∈ u.parts := List.mem_of_getElem? hpart'
    exact ih part part' (hu.part hmem) (hparts part' hmem) hsame'
      hrest

end Schema

end StructuredOutput

import Mathlib.Data.List.Induction
import StructuredOutput.Proofs.Shape.Refined

/-!
Types that are wrapped: in attached guides, in a place for nothing, in lists, sequences and tuples.
A layer may be merged with the type inside it: guides join those of an annotated type, and a place
for nothing is not made again in a union that has one. A description is seen through the layers that
do not hide it.
-/

namespace StructuredOutput

/-- What may be wrapped around a type at once. Guides have refinements and a description. -/
inductive Layer where
  | annotated (guides : List (List Constraint × Option String))
  | optional
  | list
  | sequence
  | variadic

/-- The notes that guides are attached as. -/
def guideNotes (guides : List (List Constraint × Option String)) : List Note :=
  guides.map fun (constraints, description) => .guide constraints description

namespace Layer

/-- The type with one layer more, as it is built. -/
def apply (ds : Declarations) (t : TypeExpr) : Layer → Except TypeFault TypeExpr
  | annotated guides => t.annotate (guideNotes guides)
  | optional => t.optional ds
  | list => .ok (.list t)
  | sequence => .ok (.sequence t)
  | variadic => .ok (.variadic [t])

/-- Whether a description inside is not seen from outside the layer. -/
def hides : Layer → Bool
  | annotated guides => (TypeExpr.noteDescription? (guideNotes guides)).isSome
  | optional => false
  | list | sequence | variadic => true

end Layer

/-- The type inside layers, from the innermost one outwards. -/
def wrapped (ds : Declarations) (layers : List Layer) (t : TypeExpr) : Except TypeFault TypeExpr :=
  layers.foldlM (Layer.apply ds) t

/-- The refinements of the guides that stand right around a type. -/
def adjacent : List Layer → List Constraint
  | .annotated guides :: layers => guided (guideNotes guides) ++ adjacent layers
  | _ => []

/-- Whether nothing that is wrapped around an alias would be merged with its body in another way:
guides come after the refinements of an annotated body, and a place for nothing that a union has is
not made again. -/
def Seamless (body : TypeExpr) (layers : List Layer) : Prop :=
  match body with
  | .annotated _ notes => adjacent layers ++ guided notes = guided notes ++ adjacent layers
  | .union members => .atom .none ∈ members → layers.head? ≠ some .optional
  | _ => True

namespace TypeExpr

/-- Whether a union is flat, without repetition and has two members at least, as it is built. -/
def Flat : TypeExpr → Prop
  | union members =>
    (∀ m ∈ members, ∀ inner, m ≠ union inner) ∧ distinct members = members ∧ 2 ≤ members.length
  | _ => True

/-- Whether a type is neither a union nor nothing. -/
def Single : TypeExpr → Prop
  | union _ | atom .none => False
  | _ => True

/-- Whether a type is neither annotated nor a union nor nothing. -/
def Bare : TypeExpr → Prop
  | annotated _ _ => False
  | t => t.Single

/-- Whether a type has a place for nothing, so that none is made in it. -/
def HasNone : TypeExpr → Prop
  | union members => .atom .none ∈ members
  | atom .none => True
  | _ => False

variable {ds : Declarations} {t u : TypeExpr} {members : List TypeExpr} {notes : List Note}

theorem Bare.single (h : t.Bare) : t.Single := by
  cases t <;> first | exact h | trivial

theorem Single.flat (h : t.Single) : t.Flat := by
  cases t <;> trivial

theorem Single.not_hasNone (h : t.Single) : ¬ t.HasNone := by
  cases t with
  | atom a => cases a <;> first | exact id | cases h
  | union => cases h
  | _ => exact id

theorem Bare.ne_annotated (h : t.Bare) (inner : TypeExpr) (own : List Note) :
    t ≠ annotated inner own := by
  rintro rfl
  exact h

theorem HasNone.ne_annotated (h : t.HasNone) (inner : TypeExpr) (own : List Note) :
    t ≠ annotated inner own := by
  rintro rfl
  exact h

theorem isNone_of_single (h : t.Single) : Declarations.isNone t = false := by
  cases t with
  | atom a => cases a <;> first | rfl | cases h
  | _ => rfl

/-! ### Building annotated types and unions -/

theorem annotate_eq_ok (ht : ∀ inner own, t ≠ annotated inner own)
    (h : t.annotate notes = .ok u) : u = annotated t notes := by
  unfold annotate at h
  split at h
  · cases h
  · exact absurd rfl (ht _ _)
  · cases h
    rfl

theorem same_none : t.same (atom .none) = true ↔ t = atom .none := by
  cases t <;> simp [same]

theorem distinct_concat (ts : List TypeExpr) (t : TypeExpr) :
    distinct (ts ++ [t]) =
      if (distinct ts).any (·.same t) then distinct ts else distinct ts ++ [t] := by
  rw [distinct, List.foldl_append]
  rfl

theorem distinct_concat_of_mem (h : distinct members = members) (hnone : atom .none ∈ members) :
    distinct (members ++ [atom .none]) = members := by
  have hsame : (members.any fun m => m.same (atom .none)) = true :=
    List.any_eq_true.mpr ⟨_, hnone, same_none.mpr rfl⟩
  rw [distinct_concat, h, if_pos hsame]

theorem distinct_concat_of_not_mem (h : distinct members = members)
    (hnone : atom .none ∉ members) :
    distinct (members ++ [atom .none]) = members ++ [atom .none] := by
  have hdiffer : ¬ (members.any fun m => m.same (atom .none)) = true := by
    simpa [List.any_eq_true, same_none] using hnone
  rw [distinct_concat, h, if_neg hdiffer]

theorem unionOf_eq_ok {ts : List TypeExpr} (h : unionOf ds ts = .ok u) :
    u = unionOf.joined (distinct (ts.flatMap alternatives)) := by
  unfold unionOf at h
  dsimp only at h
  split at h
  · next t ht =>
    cases h
    rw [ht]
    rfl
  · repeat' split at h
    all_goals cases h
    all_goals rfl

theorem pairwise_distinct (ts : List TypeExpr) :
    (distinct ts).Pairwise fun t u => t.same u = false := by
  induction ts using List.reverseRecOn with
  | nil => exact .nil
  | append_singleton ts t ih =>
    rw [distinct_concat]
    split
    · exact ih
    · next hnew =>
      simp only [List.any_eq_true, not_exists, not_and, Bool.not_eq_true] at hnew
      refine List.pairwise_append.mpr ⟨ih, List.pairwise_singleton _ _, ?_⟩
      simpa using hnew

theorem distinct_of_pairwise {ts : List TypeExpr}
    (h : ts.Pairwise fun t u => t.same u = false) : distinct ts = ts := by
  induction ts using List.reverseRecOn with
  | nil => rfl
  | append_singleton ts t ih =>
    obtain ⟨hts, -, hnew⟩ := List.pairwise_append.mp h
    rw [distinct_concat, ih hts, if_neg]
    simpa [List.any_eq_true] using hnew

theorem mem_of_mem_distinct {ts : List TypeExpr} (h : t ∈ distinct ts) : t ∈ ts := by
  induction ts using List.reverseRecOn with
  | nil => exact h
  | append_singleton ts u ih =>
    rw [distinct_concat] at h
    split at h
    · exact List.mem_append_left _ (ih h)
    · exact (List.mem_append.mp h).elim (List.mem_append_left _ ∘ ih) (List.mem_append_right _)

theorem eq_nil_of_distinct {ts : List TypeExpr} (h : distinct ts = []) : ts = [] := by
  induction ts using List.reverseRecOn with
  | nil => rfl
  | append_singleton ts t ih =>
    rw [distinct_concat] at h
    split at h
    · next hany => simp [h] at hany
    · simp at h

theorem alternatives_ne_nil (ht : t.Flat) : alternatives t ≠ [] := by
  cases t with
  | union members => exact List.ne_nil_of_length_pos (Nat.lt_of_succ_lt ht.2.2)
  | _ => exact List.cons_ne_nil _ _

theorem not_union_of_mem_alternatives (ht : t.Flat) (h : u ∈ alternatives t)
    (inner : List TypeExpr) : u ≠ union inner := by
  cases t with
  | union members => exact ht.1 u h inner
  | _ =>
    cases List.mem_singleton.mp h
    simp

/-- A union of types that are as they are built is so, too. -/
theorem flat_unionOf {ts : List TypeExpr} (hts : ∀ t ∈ ts, t.Flat) (hne : ts ≠ [])
    (h : unionOf ds ts = .ok u) : u.Flat := by
  rw [unionOf_eq_ok h]
  have hself : distinct (distinct (ts.flatMap alternatives)) = distinct (ts.flatMap alternatives) :=
    distinct_of_pairwise (pairwise_distinct _)
  have hnotUnion (m : TypeExpr) (hm : m ∈ distinct (ts.flatMap alternatives))
      (inner : List TypeExpr) : m ≠ union inner := by
    obtain ⟨t, ht, hmt⟩ := List.mem_flatMap.mp (mem_of_mem_distinct hm)
    exact not_union_of_mem_alternatives (hts t ht) hmt inner
  generalize hmembers : distinct (ts.flatMap alternatives) = members at hself hnotUnion ⊢
  match members with
  | [] =>
    obtain ⟨t, rest, rfl⟩ := List.exists_cons_of_ne_nil hne
    have hnil := eq_nil_of_distinct hmembers
    rw [List.flatMap_cons, List.append_eq_nil_iff] at hnil
    exact absurd hnil.1 (alternatives_ne_nil (hts t List.mem_cons_self))
  | [m] =>
    have hm := hnotUnion m (List.mem_singleton_self m)
    cases m <;> first | trivial | exact absurd rfl (hm _)
  | _ :: _ :: _ => exact ⟨hnotUnion, hself, by simp⟩

theorem joined_of_two_le (h : 2 ≤ members.length) : unionOf.joined members = union members := by
  match members, h with
  | _ :: _ :: _, _ => rfl

theorem alternatives_single (h : t.Single) : alternatives t = [t] := by
  cases t <;> first | rfl | cases h

theorem distinct_single (ht : t.Single) : distinct [t, atom .none] = [t, atom .none] := by
  have hdiffer : atom .none ∉ [t] := fun hmem => by
    cases List.mem_singleton.mp hmem
    exact ht
  have hone : distinct [t] = [t] := rfl
  exact distinct_concat_of_not_mem hone hdiffer

/-- A type that is neither a union nor nothing is joined with nothing to a union of the two. -/
theorem optional_single (ht : t.Single) (h : t.optional ds = .ok u) :
    u = union [t, atom .none] := by
  have hu : u = unionOf.joined (distinct (alternatives t ++ [atom .none])) := unionOf_eq_ok h
  rw [hu, alternatives_single ht, List.singleton_append, distinct_single ht]
  rfl

/-- A type that has a place for nothing is joined with nothing to itself. -/
theorem optional_of_hasNone (hflat : t.Flat) (hnone : t.HasNone) (h : t.optional ds = .ok u) :
    u = t := by
  have hu : u = unionOf.joined (distinct (alternatives t ++ [atom .none])) := unionOf_eq_ok h
  cases t with
  | union members =>
    rw [hu, alternatives, distinct_concat_of_mem hflat.2.1 hnone, joined_of_two_le hflat.2.2]
  | atom a => cases a <;> first | exact hu | cases hnone
  | _ => cases hnone

/-- A union that has no place for nothing is joined with nothing by adding it. -/
theorem optional_union (hflat : (union members).Flat) (hnone : atom .none ∉ members)
    (h : (union members).optional ds = .ok u) : u = union (members ++ [atom .none]) := by
  have hu : u = unionOf.joined (distinct (members ++ [atom .none])) := unionOf_eq_ok h
  have htwo : 2 ≤ (members ++ [atom .none]).length :=
    Nat.le_trans hflat.2.2 (List.length_append ▸ Nat.le_add_right _ _)
  rw [hu, distinct_concat_of_not_mem hflat.2.1 hnone, joined_of_two_le htwo]

/-- What a type becomes with a place for nothing: a union of the two, itself if it has one, and
otherwise a union with one member more. -/
theorem optional_cases (hflat : t.Flat) (h : t.optional ds = .ok u) :
    (t.Single ∧ u = union [t, atom .none]) ∨ (t.HasNone ∧ u = t) ∨
      ∃ members, t = union members ∧ atom .none ∉ members ∧
        u = union (members ++ [atom .none]) := by
  by_cases hsingle : t.Single
  · exact .inl ⟨hsingle, optional_single hsingle h⟩
  by_cases hnone : t.HasNone
  · exact .inr (.inl ⟨hnone, optional_of_hasNone hflat hnone h⟩)
  cases t with
  | union members => exact .inr (.inr ⟨members, rfl, hnone, optional_union hflat hnone h⟩)
  | atom a => cases a <;> first | exact absurd trivial hnone | exact absurd trivial hsingle
  | _ => exact absurd trivial hsingle

/-- A type with a place for nothing is as it is built. -/
theorem flat_optional (hflat : t.Flat) (h : t.optional ds = .ok u) : u.Flat ∧ u.HasNone := by
  refine ⟨flat_unionOf (by simpa using ⟨hflat, trivial⟩) (List.cons_ne_nil _ _) h, ?_⟩
  obtain ⟨-, rfl⟩ | ⟨hnone, rfl⟩ | ⟨members, -, -, rfl⟩ := optional_cases hflat h
  · simp [HasNone]
  · exact hnone
  · simp [HasNone]

/-! ### Descriptions -/

theorem noteDescription?_append (notes notes' : List Note) :
    noteDescription? (notes ++ notes') =
      (noteDescription? notes').or (noteDescription? notes) := by
  simp only [noteDescription?, List.reverse_append, List.findSome?_append]

theorem descriptionIn?_append_none (members : List TypeExpr) :
    descriptionIn? (members ++ [atom .none]) = descriptionIn? members := by
  induction members with
  | nil => rfl
  | cons m members ih => rw [List.cons_append, descriptionIn?, descriptionIn?, ih]

theorem description?_optional (hflat : t.Flat) (h : t.optional ds = .ok u) :
    u.description? = t.description? := by
  obtain ⟨-, rfl⟩ | ⟨-, rfl⟩ | ⟨members, rfl, -, rfl⟩ := optional_cases hflat h
  · exact descriptionIn?_append_none [t]
  · rfl
  · exact descriptionIn?_append_none members

theorem description?_annotate (h : t.annotate notes = .ok u) :
    u.description? = (noteDescription? notes).or t.description? := by
  unfold annotate at h
  split at h <;> cases h
  · rw [description?, description?, noteDescription?_append, Option.or_assoc]
  · rw [description?]

end TypeExpr

namespace Layer

variable {ds : Declarations} {t u : TypeExpr}

/-- The description that is seen from outside a layer. -/
def describe (inner : Option String) : Layer → Option String
  | annotated guides => (TypeExpr.noteDescription? (guideNotes guides)).or inner
  | optional => inner
  | list | sequence | variadic => none

theorem flat_apply {layer : Layer} (hflat : t.Flat) (h : layer.apply ds t = .ok u) : u.Flat := by
  cases layer with
  | annotated guides =>
    rw [apply, TypeExpr.annotate.eq_def] at h
    split at h <;> cases h <;> trivial
  | optional => exact (TypeExpr.flat_optional hflat h).1
  | list | sequence | variadic =>
    cases h
    trivial

theorem description?_apply {layer : Layer} (hflat : t.Flat) (h : layer.apply ds t = .ok u) :
    u.description? = layer.describe t.description? := by
  cases layer with
  | annotated guides => exact TypeExpr.description?_annotate h
  | optional => exact TypeExpr.description?_optional hflat h
  | list | sequence | variadic =>
    cases h
    rfl

/-- A layer hides every description inside it, or shows it. -/
theorem describe_eq (layer : Layer) (inner : Option String) :
    layer.describe inner = if layer.hides then layer.describe none else inner := by
  cases layer with
  | annotated guides =>
    cases h : TypeExpr.noteDescription? (guideNotes guides) <;> simp [describe, hides, h]
  | optional | list | sequence | variadic => rfl

end Layer

section Wrapped

variable {ds : Declarations} {t u : TypeExpr} {layers : List Layer} {layer : Layer}

theorem wrapped_cons_eq_ok :
    wrapped ds (layer :: layers) t = .ok u ↔
      ∃ inner, layer.apply ds t = .ok inner ∧ wrapped ds layers inner = .ok u := by
  rw [wrapped, List.foldlM_cons, Outcome.bind_eq_ok]
  rfl

/-- The description of a type inside layers is seen if none of them hides it. -/
theorem description?_wrapped (hflat : t.Flat) (h : wrapped ds layers t = .ok u) :
    u.description? = layers.foldl Layer.describe t.description? := by
  induction layers generalizing t with
  | nil =>
    cases h
    rfl
  | cons layer layers ih =>
    obtain ⟨inner, hinner, h⟩ := wrapped_cons_eq_ok.mp h
    rw [ih (Layer.flat_apply hflat hinner) h, Layer.description?_apply hflat hinner]
    rfl

theorem foldl_describe (layers : List Layer) (inner : Option String) :
    layers.foldl Layer.describe inner =
      if layers.any Layer.hides then layers.foldl Layer.describe none else inner := by
  induction layers generalizing inner with
  | nil => rfl
  | cons layer layers ih =>
    rw [List.foldl_cons, List.foldl_cons, List.any_cons, ih, ih (layer.describe none)]
    cases layers.any Layer.hides with
    | true => simp
    | false => simpa using layer.describe_eq inner

end Wrapped

end StructuredOutput

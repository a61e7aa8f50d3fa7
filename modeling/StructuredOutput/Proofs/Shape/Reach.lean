import StructuredOutput.Proofs.Shape.Fields

/-!
What a shape reaches: the shapes of items and of fields, through any number of records. Every shape
that a type has is coherent, and so is every shape that it reaches.
-/

namespace StructuredOutput

namespace Shape

/-- The records whose fields are read for values of a shape. -/
def records : Shape → List String
  | record id _ _ => [id]
  | union _ _ cases => cases.map (·.record)
  | _ => []

/-- What the shape of a type always is: items are not optional, a literal has a value, and the texts
that stand for members of an enumeration or for cases of a union differ. A case has the
discriminator of its record. -/
def Coherent (ds : Declarations) : Shape → Prop
  | array item _ _ => item.isOptional = false ∧ item.Coherent ds
  | optional inner => inner.Coherent ds
  | enum id _ _ => ((ds.enumOf id).wires.map (·.1)).Nodup
  | union _ _ cases =>
    (cases.map (·.tag)).Nodup ∧ ∀ c ∈ cases, c.tag = ds.caseTag c.record
  | literal values _ => values ≠ []
  | primitive _ _ | record _ _ _ => True

end Shape

/-- A shape reaches itself, what its inner shape or its items reach, and what the fields of its
records reach. -/
inductive Reaches (ds : Declarations) : Shape → Shape → Prop
  | refl (s : Shape) : Reaches ds s s
  | optional {inner s : Shape} : Reaches ds inner s → Reaches ds (.optional inner) s
  | item {item s : Shape} {container : Container} {constraints : List Constraint} :
      Reaches ds item s → Reaches ds (.array item container constraints) s
  | field {whole s : Shape} {id : String} {fields : List FieldShape} {f : FieldShape} :
      id ∈ whole.records → ds.fieldShapes id = .ok fields → f ∈ fields →
      Reaches ds f.whole s → Reaches ds whole s

/-- The records that a shape reaches have fields. -/
def Resolves (ds : Declarations) (shape : Shape) : Prop :=
  ∀ s, Reaches ds shape s → ∀ id ∈ s.records, ∃ fields, ds.fieldShapes id = .ok fields

namespace Reaches

variable {ds : Declarations} {s t u : Shape}

theorem trans (hst : Reaches ds s t) (htu : Reaches ds t u) : Reaches ds s u := by
  induction hst with
  | refl => exact htu
  | optional _ ih => exact .optional (ih htu)
  | item _ ih => exact .item (ih htu)
  | field hid hfields hf _ ih => exact .field hid hfields hf (ih htu)

/-- What is kept by going inside and by going to a field holds of all that is reached. -/
theorem of_closed {P : Shape → Prop} (hoptional : ∀ inner, P (.optional inner) → P inner)
    (hitem : ∀ item container constraints, P (.array item container constraints) → P item)
    (hfield : ∀ whole id fields f, P whole → id ∈ whole.records →
      ds.fieldShapes id = .ok fields → f ∈ fields → P f.whole)
    (h : Reaches ds s t) (hs : P s) : P t := by
  induction h with
  | refl => exact hs
  | optional _ ih => exact ih (hoptional _ hs)
  | item _ ih => exact ih (hitem _ _ _ hs)
  | field hid hfields hf _ ih => exact ih (hfield _ _ _ _ hs hid hfields hf)

theorem shape_of_field (f : FieldShape) : Reaches ds f.whole f.shape := by
  unfold FieldShape.whole
  split
  · exact .optional (.refl _)
  · exact .refl _

/-- A case of a union reaches what the union does, and itself. -/
theorem of_case {name : String} {description : Option String} {cases : List Case} {one : Case}
    (h : Reaches ds (.union "" none [one]) t) (hone : one ∈ cases) :
    t = .union "" none [one] ∨ Reaches ds (.union name description cases) t := by
  cases h with
  | refl => exact .inl rfl
  | field hid hfields hf hrest =>
    obtain rfl := List.mem_singleton.mp hid
    exact .inr (.field (List.mem_map_of_mem hone) hfields hf hrest)

theorem core (s : Shape) : Reaches ds s s.core := by
  induction s with
  | optional inner ih => exact .optional ih
  | _ => exact .refl _

theorem item_of_core {item : Shape} {container : Container} {constraints : List Constraint}
    (h : s.core = .array item container constraints) : Reaches ds s item :=
  (core s).trans (h ▸ .item (.refl item))

theorem field_of_core {id : String} {fields : List FieldShape} {f : FieldShape}
    (hid : id ∈ s.core.records) (hfields : ds.fieldShapes id = .ok fields) (hf : f ∈ fields) :
    Reaches ds s f.whole :=
  (core s).trans (.field hid hfields hf (.refl f.whole))

end Reaches

theorem Resolves.of_reaches {ds : Declarations} {s t : Shape} (h : Resolves ds s)
    (hst : Reaches ds s t) : Resolves ds t :=
  fun u htu => h u (hst.trans htu)

namespace Declarations

variable {ds : Declarations}

/-! ### Shapes of types are coherent -/

theorem coherent_orNothing {hasNone : Bool} {s : Shape} (h : s.Coherent ds) :
    (orNothing hasNone s).Coherent ds := by
  cases hasNone <;> exact h

theorem coherent_of_classShape {id : String} {constraints : List Constraint} {s : Shape}
    (h : ds.classShape id constraints = .ok s) : s.Coherent ds := by
  unfold classShape at h
  split at h
  · next e he =>
    split at h
    · cases h
    dsimp only at h
    split at h
    · cases h
    split at h
    · cases h
    next hdistinct =>
    cases h
    have henum : ds.enumOf id = e := by simp [enumOf, enum?, he]
    rw [Shape.Coherent, henum]
    exact Entries.nodup_of_distinct_length (by simpa using hdistinct)
  · split at h
    · cases h
    · cases h
      trivial
  · cases h

theorem tag_of_unionCase {t : TypeExpr} {c : Case} (h : ds.unionCase t = .ok c) :
    c.tag = ds.caseTag c.record := by
  unfold unionCase at h
  repeat' split at h
  all_goals cases h
  rfl

theorem coherent_of_unionShape {members : List TypeExpr} {naming : UnionNaming} {s : Shape}
    (h : ds.unionShape members naming = .ok s) : s.Coherent ds := by
  obtain ⟨cases, hcases, h⟩ := Outcome.bind_eq_ok.mp h
  dsimp only at h
  split at h
  · cases h
  next hdistinct =>
  have hnodup : (cases.map (·.tag)).Nodup :=
    Entries.nodup_of_distinct_length (by simpa using hdistinct)
  have htags : ∀ c ∈ cases, c.tag = ds.caseTag c.record := fun c hc => by
    obtain ⟨t, _, ht⟩ := Outcome.exists_mem_left (Outcome.mapM_eq_ok.mp hcases) hc
    exact tag_of_unionCase ht
  split at h <;> (cases h; exact ⟨hnodup, htags⟩)

theorem coherent_of_arrayShape {written : String} {item s : Shape} {container : Container}
    {constraints : List Constraint} (h : arrayShape written item container constraints = .ok s)
    (hitem : item.Coherent ds) : s.Coherent ds := by
  unfold arrayShape at h
  split at h
  · cases h
  · next hopt =>
    cases h
    refine ⟨?_, hitem⟩
    cases item <;> first | rfl | exact absurd rfl (hopt _)

theorem ok_of_notUnion {t : TypeExpr} {naming : UnionNaming} {r : Except TypeFault Shape}
    {s : Shape} (h : ds.notUnion t naming r = .ok s) : r = .ok s := by
  unfold notUnion at h
  split at h
  · cases h
  · exact h

/-- Whether a shape, if there is one, is coherent. -/
private def CoherentResult (ds : Declarations) (r : Except TypeFault Shape) : Prop :=
  ∀ s, r = .ok s → s.Coherent ds

private theorem CoherentResult.array {r : Except TypeFault Shape} (h : CoherentResult ds r)
    (t : TypeExpr) (naming : UnionNaming) (written : String) (container : Container)
    (constraints : List Constraint) :
    CoherentResult ds (ds.notUnion t naming do
      arrayShape written (← r) container constraints) := by
  intro s hs
  obtain ⟨item, hitem, hs⟩ := Outcome.bind_eq_ok.mp (ok_of_notUnion hs)
  exact coherent_of_arrayShape hs (h item hitem)

private theorem CoherentResult.error (fault : TypeFault) : CoherentResult ds (.error fault) :=
  fun _ h => by cases h

private theorem CoherentResult.notUnion {r : Except TypeFault Shape} (h : CoherentResult ds r)
    (t : TypeExpr) (naming : UnionNaming) : CoherentResult ds (ds.notUnion t naming r) :=
  fun s hs => h s (ok_of_notUnion hs)

private theorem CoherentResult.union {r : Except TypeFault Shape} {members : List TypeExpr}
    {constraints : List Constraint} {naming : UnionNaming} {hasNone : Bool}
    (h : (members.filter fun m => !isNone m).length = 1 → CoherentResult ds r) :
    CoherentResult ds
      (if (members.filter fun m => !isNone m).length = 1 then r.map (orNothing hasNone)
      else if !constraints.isEmpty then .error (.definition .constrainedUnionType)
      else ((ds.unionShape (members.filter fun m => !isNone m) naming).map
        (orNothing hasNone)).mapError .definition) := by
  intro s hs
  split at hs
  · next hone =>
    obtain ⟨inner, hinner, rfl⟩ := Outcome.map_eq_ok.mp hs
    exact coherent_orNothing (h hone inner hinner)
  split at hs
  · cases hs
  obtain ⟨inner, hinner, rfl⟩ := Outcome.map_eq_ok.mp (Outcome.mapError_eq_ok.mp hs)
  exact coherent_orNothing (coherent_of_unionShape hinner)

private theorem coherentResult_literal {written : String} {values : List Value}
    {constraints : List Constraint} :
    CoherentResult ds ((literalShape written values constraints).mapError .definition) := by
  intro s hs
  rw [Outcome.mapError_eq_ok, literalShape] at hs
  split at hs <;> cases hs
  exact List.cons_ne_nil _ _

private theorem coherentResult_atom {a : Atom} {constraints : List Constraint} :
    CoherentResult ds ((atomShape a constraints).mapError .definition) := by
  intro s hs
  rw [Outcome.mapError_eq_ok] at hs
  cases a <;> cases hs <;> trivial

theorem coherent_of_resolve {depth : Nat} {t : TypeExpr} {constraints : List Constraint}
    {naming : UnionNaming} {s : Shape} (h : ds.resolve depth t constraints naming = .ok s) :
    s.Coherent ds := by
  have hall := resolve.induct_unfolding ds (fun _ _ _ _ r => CoherentResult ds r)
    (fun _ _ _ _ r => CoherentResult ds r)
  refine hall ?endless ?follow ?named ?annotated ?only ?constrained ?union ?literal ?list ?sequence
    ?variadic ?tuple ?mixed ?atom ?set ?dict ?undefined ?none ?skip ?member
    depth t constraints naming s h
  case endless => exact fun _ _ _ _ _ => .error _
  case follow => exact fun _ _ _ _ _ _ ih => ih
  case named =>
    intro _ constraints _ id _
    refine CoherentResult.notUnion (fun s hs => ?_) _ _
    exact coherent_of_classShape (Outcome.mapError_eq_ok.mp hs)
  case annotated => exact fun _ _ _ _ _ ih => ih
  case only => exact fun _ _ _ _ _ ih => CoherentResult.union fun _ => ih
  case constrained =>
    intro _ _ _ members present hmany _
    have hpresent : present = members.filter fun m => !isNone m := by
      simp only [present, List.unattach_filter, List.unattach_attach]
    exact CoherentResult.union fun hone => absurd hone (hpresent ▸ hmany)
  case union =>
    intro _ _ _ members present hmany _
    have hpresent : present = members.filter fun m => !isNone m := by
      simp only [present, List.unattach_filter, List.unattach_attach]
    exact CoherentResult.union fun hone => absurd hone (hpresent ▸ hmany)
  case literal => exact fun _ _ _ _ => coherentResult_literal.notUnion _ _
  case list => exact fun _ _ _ _ ih => ih.array _ _ _ _ _
  case sequence => exact fun _ _ _ _ ih => ih.array _ _ _ _ _
  case variadic => exact fun _ _ _ _ ih => ih.array _ _ _ _ _
  case tuple => exact fun _ _ _ _ => (CoherentResult.error _).notUnion _ _
  case mixed => exact fun _ _ _ _ _ => (CoherentResult.error _).notUnion _ _
  case atom => exact fun _ _ _ _ => coherentResult_atom.notUnion _ _
  case set => exact fun _ _ _ _ => (CoherentResult.error _).notUnion _ _
  case dict => exact fun _ _ _ _ _ => (CoherentResult.error _).notUnion _ _
  case undefined => exact fun _ _ _ _ => (CoherentResult.error _).notUnion _ _
  case none => exact fun _ _ _ => .error _
  case skip => exact fun _ _ _ _ _ _ ih => ih
  case member => exact fun _ _ _ _ _ _ ih => ih

/-- The shape of a literal type has its texts in the order in which they are given. -/
theorem shapeOf_literal (ds : Declarations) (first : String) (rest : List String) :
    ds.shapeOf (.literal ((first :: rest).map .text)) = .ok (.literal (first :: rest) []) := by
  have htexts (texts : List String) : (texts.map Value.text).mapM Value.asText? = some texts := by
    induction texts with
    | nil => rfl
    | cons text texts ih =>
      rw [List.map_cons, List.mapM_cons, ih]
      rfl
  rw [shapeOf, resolve, literalShape, htexts]
  rfl

/-- The shape of a type is coherent. -/
theorem coherent_of_shapeOf {t : TypeExpr} {s : Shape} (h : ds.shapeOf t = .ok s) :
    s.Coherent ds :=
  coherent_of_resolve h

/-- The shape of a field is coherent. -/
theorem Fielded.coherent {id : String} {fields : List FieldShape} (h : ds.Fielded id fields)
    {f : FieldShape} (hf : f ∈ fields) : f.whole.Coherent ds := by
  obtain ⟨decl, _, _, ht⟩ := h.exists_decl hf
  exact coherent_of_shapeOf ht.shape

end Declarations

/-- What a coherent shape reaches is coherent. -/
theorem Reaches.coherent {ds : Declarations} {s t : Shape} (h : Reaches ds s t)
    (hs : s.Coherent ds) : t.Coherent ds := by
  refine h.of_closed (fun _ hinner => hinner) (fun _ _ _ harray => harray.2) ?_ hs
  intro whole id fields f _ _ hfields hf
  exact (Declarations.fielded_of_fieldShapes hfields).coherent hf

end StructuredOutput

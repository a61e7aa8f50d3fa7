import Mathlib.Logic.Relation
import StructuredOutput.Proofs.Shape.AliasChains

/-!
Declarations in which no alias reaches itself. There every type leads to one that decides its
shape, so that it has a shape, or its definition is refused.
-/

namespace StructuredOutput

/-! ### Results that are decided -/

/-- Whether there is a result, or a definition is refused. -/
def Decided {α : Type} (r : Except TypeFault α) : Prop :=
  ∀ fault, r = .error fault → ∃ cause, fault = .definition cause

namespace Decided

variable {α β : Type}

theorem ok (a : α) : Decided (.ok a) := fun _ h => by cases h

theorem definition (r : Except DefinitionError α) : Decided (r.mapError .definition) := by
  intro fault h
  obtain ⟨cause, -, rfl⟩ := Outcome.mapError_eq_error.mp h
  exact ⟨cause, rfl⟩

/-- What is refused is the same whatever the result would have been. -/
theorem of_error {fault : TypeFault} (h : Decided (.error fault : Except TypeFault α)) :
    Decided (.error fault : Except TypeFault β) :=
  fun other hother => h other (congrArg _ (Except.error.inj hother))

theorem bind {r : Except TypeFault α} {f : α → Except TypeFault β} (hr : Decided r)
    (hf : ∀ a, Decided (f a)) : Decided (r >>= f) := by
  intro fault h
  rcases Outcome.bind_eq_error.mp h with h | ⟨a, -, h⟩
  · exact hr fault h
  · exact hf a fault h

theorem map {r : Except TypeFault α} (hr : Decided r) (f : α → β) : Decided (r.map f) :=
  fun fault h => hr fault (Outcome.map_eq_error.mp h)

theorem mapM {f : α → Except TypeFault β} {xs : List α} (h : ∀ x ∈ xs, Decided (f x)) :
    Decided (xs.mapM f) := by
  intro fault hfault
  obtain ⟨x, hx, hfx⟩ := Outcome.exists_of_mapM_eq_error hfault
  exact h x hx fault hfx

end Decided

namespace Declarations

variable {ds : Declarations} {t u : TypeExpr} {ids : List String} {depth : Nat}
  {constraints : List Constraint} {naming : UnionNaming}

theorem decided_notUnion {r : Except TypeFault Shape} (hr : Decided r) :
    Decided (ds.notUnion t naming r) := by
  unfold notUnion
  split
  · exact .definition (.error _)
  · exact hr

theorem decided_arrayShape (written : String) (item : Shape) (container : Container)
    (constraints : List Constraint) :
    Decided (arrayShape written item container constraints) := by
  unfold arrayShape
  split
  · exact .definition (.error _)
  · exact .ok _

/-- A type that decides its shape itself has one, or is refused. -/
theorem Settled.decided (h : ds.Settled t) : Decided (ds.resolve depth t constraints naming) := by
  cases t with
  | named id =>
    rw [resolve]
    split
    · next body hbody => exact absurd hbody (h body)
    · exact decided_notUnion (.definition _)
  | annotated | list | sequence => cases h
  | variadic items =>
    rw [resolve]
    · exact decided_notUnion (.definition (.error _))
    · exact h.items_ne_singleton
  | union members =>
    rw [resolve_many h]
    split
    · exact .definition (.error _)
    · exact .definition _
  | atom | set | dict | tuple | literal | undefined =>
    rw [resolve]
    first
    | exact decided_notUnion (.definition _)
    | exact decided_notUnion (.definition (.error _))

/-- A type that leads to one that decides its shape has a shape, or is refused. -/
theorem Leads.decided (h : Leads ds t ids) (hdepth : ids.length ≤ depth) :
    Decided (ds.resolve depth t constraints naming) := by
  induction h generalizing depth constraints naming with
  | settled hsettled => exact hsettled.decided
  | follow hbody _ ih =>
    obtain ⟨depth, rfl⟩ := Nat.exists_eq_succ_of_ne_zero (Nat.ne_zero_of_lt hdepth)
    rw [resolve_follow hbody]
    exact ih (Nat.le_of_succ_le_succ hdepth)
  | annotated _ notes ih =>
    rw [resolve]
    exact ih hdepth
  | only hone _ ih =>
    rw [resolve_only hone]
    exact (ih hdepth).map _
  | array harray _ ih =>
    rw [resolve_array harray]
    exact decided_notUnion ((ih hdepth).bind fun inner => decided_arrayShape _ inner _ _)

/-! ### Aliases that do not reach themselves -/

/-- The shape of a type is that of another one, or is made of it, without passing through the fields
of a record. -/
inductive RestsOn (ds : Declarations) : TypeExpr → TypeExpr → Prop
  | follow {id : String} {body : TypeExpr} (h : ds.find? id = some (.typeAlias body)) :
      RestsOn ds (.named id) body
  | annotated (t : TypeExpr) (notes : List Note) : RestsOn ds (.annotated t notes) t
  | only {members : List TypeExpr} {m : TypeExpr} (h : present members = [m]) :
      RestsOn ds (.union members) m
  | array {t item : TypeExpr} {container : Container} (h : arrayOf? t = some (item, container)) :
      RestsOn ds t item

/-- Whether no alias reaches itself but through the fields of a record. -/
def Acyclic (ds : Declarations) : Prop :=
  ∀ id, ¬ Relation.TransGen ds.RestsOn (.named id) (.named id)

/-- Where a type is reached through some aliases, it leads on through others, if all of them
together would be more than there are. -/
theorem Acyclic.exists_leads_of_passed (h : ds.Acyclic) (depth : Nat) (t : TypeExpr)
    (passed : List String) (hnodup : passed.Nodup) (hdeclared : passed ⊆ ds.entries.map (·.1))
    (hpassed : ∀ id ∈ passed, Relation.TransGen ds.RestsOn (.named id) t)
    (hmore : ds.entries.length < depth + passed.length) : ∃ ids, Leads ds t ids := by
  induction depth, t using ds.resolve_induction generalizing passed with
  | settled depth t hsettled => exact ⟨[], .settled hsettled⟩
  | endless id body hbody =>
    have hle := (List.subperm_of_subset hnodup hdeclared).length_le
    rw [List.length_map] at hle
    omega
  | follow depth id body hbody ih =>
    have hnew : id ∉ passed := fun hid => h id (hpassed id hid)
    obtain ⟨ids, hids⟩ := ih (id :: passed) (List.nodup_cons.mpr ⟨hnew, hnodup⟩)
      (List.cons_subset.mpr ⟨List.mem_map_of_mem (Entries.mem_of_get? hbody), hdeclared⟩)
      (List.forall_mem_cons.mpr
        ⟨.single (.follow hbody), fun other hother => (hpassed other hother).tail (.follow hbody)⟩)
      (by rw [List.length_cons]; omega)
    exact ⟨id :: ids, .follow hbody hids⟩
  | annotated depth t notes ih =>
    obtain ⟨ids, hids⟩ := ih passed hnodup hdeclared
      (fun id hid => (hpassed id hid).tail (.annotated t notes)) hmore
    exact ⟨ids, hids.annotated notes⟩
  | only depth members m hone ih =>
    obtain ⟨ids, hids⟩ := ih passed hnodup hdeclared
      (fun id hid => (hpassed id hid).tail (.only hone)) hmore
    exact ⟨ids, .only hone hids⟩
  | array depth t item container harray ih =>
    obtain ⟨ids, hids⟩ := ih passed hnodup hdeclared
      (fun id hid => (hpassed id hid).tail (.array harray)) hmore
    exact ⟨ids, .array harray hids⟩

theorem Acyclic.exists_leads (h : ds.Acyclic) (t : TypeExpr) : ∃ ids, Leads ds t ids :=
  h.exists_leads_of_passed (ds.entries.length + 1) t [] List.nodup_nil
    (List.nil_subset _) (fun _ hid => absurd hid List.not_mem_nil) (by simp)

/-- Where no alias reaches itself, every type has a shape or is refused. -/
theorem Acyclic.decided_shapeOf (h : ds.Acyclic) (t : TypeExpr) : Decided (ds.shapeOf t) := by
  obtain ⟨ids, hids⟩ := h.exists_leads t
  exact hids.decided (Nat.le_succ_of_le hids.length_le)

theorem Acyclic.decided_fieldShape (h : ds.Acyclic) (id key : String) (f : FieldDecl) :
    Decided (ds.fieldShape id key f) := by
  unfold fieldShape
  split
  · exact .ok _
  · exact .ok _
  · exact .definition (.error _)
  · next fault hnot hfault =>
    obtain ⟨cause, rfl⟩ := h.decided_shapeOf f.type fault hfault
    exact absurd rfl (hnot cause)

/-- Where no alias reaches itself, the fields of every record have shapes or are refused. -/
theorem Acyclic.decided_fieldShapes (h : ds.Acyclic) (id : String) :
    Decided (ds.fieldShapes id) := by
  unfold fieldShapes
  split
  · exact .definition (.error _)
  · refine .bind (.mapM fun _ _ => h.decided_fieldShape id _ _) fun fields => ?_
    split
    · exact .ok _
    · exact .definition (.error _)

end Declarations

end StructuredOutput

import Mathlib.Data.List.Perm.Subperm
import StructuredOutput.Proofs.Shape.Reach

/-!
Aliases that are followed one inside the other. A type that has a shape leads through distinct
aliases, so that as many may be followed as there are declarations, and a bound beyond that decides
nothing.
-/

namespace StructuredOutput.Declarations

variable {ds : Declarations} {t u : TypeExpr} {ids : List String} {depth depth' : Nat}
  {constraints : List Constraint} {naming : UnionNaming} {members : List TypeExpr} {m : TypeExpr}

theorem resolve_follow {id : String} {body : TypeExpr}
    (h : ds.find? id = some (.typeAlias body)) :
    ds.resolve (depth + 1) (.named id) constraints naming =
      ds.resolve depth body constraints (naming.orAlias id) := by
  rw [resolve, h]

/-- The members of a union that are not nothing. -/
def present (members : List TypeExpr) : List TypeExpr := members.filter fun m => !isNone m

/-! ### Resolving a union -/

theorem resolveOnly_eq (h : present members = [m]) :
    ds.resolveOnly depth members constraints naming = ds.resolve depth m constraints naming := by
  induction members with
  | nil => cases h
  | cons n members ih =>
    rw [resolveOnly]
    cases hnone : isNone n with
    | true =>
      rw [if_pos rfl]
      refine ih ?_
      rwa [present, List.filter_cons_of_neg (by simp [hnone])] at h
    | false =>
      rw [present, List.filter_cons_of_pos (by simp [hnone])] at h
      rw [(List.cons.inj h).1, if_neg Bool.false_ne_true]

/-- A union of one type and perhaps nothing is resolved like that type. -/
theorem resolve_only (h : present members = [m]) :
    ds.resolve depth (.union members) constraints naming =
      (ds.resolve depth m constraints naming).map (orNothing (1 < members.length)) := by
  rw [resolve]
  have hone : (present members).length = 1 := by rw [h, List.length_singleton]
  rw [← present, if_pos hone, hone, resolveOnly_eq h]

/-- A union of several types is resolved from these at once, and takes no refinements. -/
theorem resolve_many (h : (present members).length ≠ 1) :
    ds.resolve depth (.union members) constraints naming =
      if !constraints.isEmpty then .error (.definition .constrainedUnionType)
      else ((ds.unionShape (present members) naming).map
        (orNothing ((present members).length < members.length))).mapError .definition := by
  rw [resolve]
  rw [← present, if_neg h]

/-! ### Where a shape is decided -/

/-- The items of an array type and what they are collected in. -/
def arrayOf? : TypeExpr → Option (TypeExpr × Container)
  | .list item | .sequence item => some (item, .list)
  | .variadic [item] => some (item, .tuple)
  | _ => none

theorem resolve_array {item : TypeExpr} {container : Container}
    (h : arrayOf? t = some (item, container)) :
    ds.resolve depth t constraints naming =
      ds.notUnion t naming (ds.resolve depth item [] .byCases >>= fun inner =>
        arrayShape (t.shown ds) inner container constraints) := by
  unfold arrayOf? at h
  split at h <;> cases h
  all_goals rw [resolve]

/-- Whether the shape of a type is decided by the type itself, with no alias followed and nothing
resolved inside it. -/
def Settled (ds : Declarations) : TypeExpr → Prop
  | .named id => ∀ body, ds.find? id ≠ some (.typeAlias body)
  | .annotated _ _ | .list _ | .sequence _ | .variadic [_] => False
  | .union members => (present members).length ≠ 1
  | _ => True

theorem Settled.items_ne_singleton {items : List TypeExpr} (h : ds.Settled (.variadic items))
    (item : TypeExpr) : items ≠ [item] := by
  rintro rfl
  exact h

theorem resolve_settled (h : ds.Settled t) :
    ds.resolve depth t constraints naming = ds.resolve depth' t constraints naming := by
  cases t with
  | named id =>
    rw [resolve, resolve]
    split
    · next body hbody => exact absurd hbody (h body)
    · rfl
  | annotated | list | sequence => cases h
  | variadic items =>
    rw [resolve, resolve] <;> exact h.items_ne_singleton
  | union members => rw [resolve_many h, resolve_many h]
  | _ => rw [resolve, resolve]

/-- Induction along the resolution of a type: up to a type that is settled, or to an alias that may
not be followed any more. -/
theorem resolve_induction {motive : Nat → TypeExpr → Prop}
    (settled : ∀ depth t, ds.Settled t → motive depth t)
    (endless : ∀ id body, ds.find? id = some (.typeAlias body) → motive 0 (.named id))
    (follow : ∀ depth id body, ds.find? id = some (.typeAlias body) → motive depth body →
      motive (depth + 1) (.named id))
    (annotated : ∀ depth t notes, motive depth t → motive depth (.annotated t notes))
    (only : ∀ depth members m, present members = [m] → motive depth m →
      motive depth (.union members))
    (array : ∀ depth t item container, arrayOf? t = some (item, container) →
      motive depth item → motive depth t)
    (depth : Nat) (t : TypeExpr) : motive depth t := by
  have step (depth' : Nat) (u : TypeExpr)
      (hu : depth' < depth ∨ depth' = depth ∧ sizeOf u < sizeOf t) : motive depth' u :=
    resolve_induction settled endless follow annotated only array depth' u
  by_cases hsettled : ds.Settled t
  · exact settled depth t hsettled
  cases t with
  | named id =>
    obtain ⟨body, hbody⟩ : ∃ body, ds.find? id = some (.typeAlias body) := by
      simpa [Settled] using hsettled
    cases depth with
    | zero => exact endless id body hbody
    | succ depth => exact follow depth id body hbody (step _ _ (.inl (Nat.lt_succ_self depth)))
  | annotated inner notes =>
    exact annotated depth inner notes (step _ _ (.inr ⟨rfl, by simp; omega⟩))
  | list item => exact array depth _ item .list rfl (step _ _ (.inr ⟨rfl, by simp⟩))
  | sequence item => exact array depth _ item .list rfl (step _ _ (.inr ⟨rfl, by simp⟩))
  | variadic items =>
    match items with
    | [] | _ :: _ :: _ => exact absurd trivial hsettled
    | [item] => exact array depth _ item .tuple rfl (step _ _ (.inr ⟨rfl, by simp; omega⟩))
  | union members =>
    obtain ⟨m, hm⟩ := List.length_eq_one_iff.mp (not_not.mp hsettled)
    have hmem : m ∈ members := List.mem_of_mem_filter (hm ▸ List.mem_singleton_self m)
    have hsize := List.sizeOf_lt_of_mem hmem
    exact only depth members m hm (step _ _ (.inr ⟨rfl, by simp; omega⟩))
  | _ => exact absurd trivial hsettled
termination_by (depth, sizeOf t)
decreasing_by
  obtain hdepth | ⟨rfl, hsize⟩ := hu
  · exact .left _ _ hdepth
  · exact .right _ hsize

/-- The aliases that are followed from a type down to one that decides its shape. -/
inductive Leads (ds : Declarations) : TypeExpr → List String → Prop
  | settled {t : TypeExpr} (h : ds.Settled t) : Leads ds t []
  | follow {id : String} {body : TypeExpr} {ids : List String}
      (h : ds.find? id = some (.typeAlias body)) (rest : Leads ds body ids) :
      Leads ds (.named id) (id :: ids)
  | annotated {t : TypeExpr} {ids : List String} (rest : Leads ds t ids) (notes : List Note) :
      Leads ds (.annotated t notes) ids
  | only {members : List TypeExpr} {m : TypeExpr} {ids : List String}
      (h : present members = [m]) (rest : Leads ds m ids) : Leads ds (.union members) ids
  | array {t item : TypeExpr} {container : Container} {ids : List String}
      (h : arrayOf? t = some (item, container)) (rest : Leads ds item ids) : Leads ds t ids

theorem Settled.arrayOf?_eq (h : ds.Settled t) : arrayOf? t = none := by
  cases t with
  | annotated | list | sequence => cases h
  | variadic items =>
    match items with
    | [] | _ :: _ :: _ => rfl
    | [item] => cases h
  | _ => rfl

theorem Leads.unique {ids' : List String} (h : Leads ds t ids) (h' : Leads ds t ids') :
    ids = ids' := by
  induction h generalizing ids' with
  | settled hsettled =>
    cases h' with
    | settled => rfl
    | follow hbody => exact absurd hbody (hsettled _)
    | annotated => cases hsettled
    | only hone => exact absurd (by rw [hone, List.length_singleton]) hsettled
    | array harray => cases hsettled.arrayOf?_eq.symm.trans harray
  | follow hbody _ ih =>
    cases h' with
    | settled hsettled => exact absurd hbody (hsettled _)
    | follow hbody' rest =>
      cases hbody.symm.trans hbody'
      rw [ih rest]
    | array harray => cases harray
  | annotated _ notes ih =>
    cases h' with
    | settled hsettled => cases hsettled
    | annotated rest => exact ih rest
    | array harray => cases harray
  | only hone _ ih =>
    cases h' with
    | settled hsettled => exact absurd (by rw [hone, List.length_singleton]) hsettled
    | only hone' rest =>
      cases hone.symm.trans hone'
      exact ih rest
    | array harray => cases harray
  | array harray _ ih =>
    cases h' with
    | settled hsettled => cases hsettled.arrayOf?_eq.symm.trans harray
    | follow | annotated | only => cases harray
    | array harray' rest =>
      cases harray.symm.trans harray'
      exact ih rest

/-- A type that has a shape leads to one that decides it, through aliases that may be followed. -/
theorem exists_leads_of_resolve {s : Shape}
    (h : ds.resolve depth t constraints naming = .ok s) :
    ∃ ids, Leads ds t ids ∧ ids.length ≤ depth := by
  induction depth, t using ds.resolve_induction generalizing constraints naming s with
  | settled depth t hsettled => exact ⟨[], .settled hsettled, Nat.zero_le _⟩
  | endless id body hbody =>
    rw [resolve, hbody] at h
    cases h
  | follow depth id body hbody ih =>
    rw [resolve_follow hbody] at h
    obtain ⟨ids, hids, hlength⟩ := ih h
    exact ⟨id :: ids, .follow hbody hids, Nat.succ_le_succ hlength⟩
  | annotated depth t notes ih =>
    rw [resolve] at h
    obtain ⟨ids, hids, hlength⟩ := ih h
    exact ⟨ids, hids.annotated notes, hlength⟩
  | only depth members m hone ih =>
    rw [resolve_only hone] at h
    obtain ⟨inner, hinner, -⟩ := Outcome.map_eq_ok.mp h
    obtain ⟨ids, hids, hlength⟩ := ih hinner
    exact ⟨ids, .only hone hids, hlength⟩
  | array depth t item container harray ih =>
    rw [resolve_array harray] at h
    obtain ⟨inner, hinner, -⟩ := Outcome.bind_eq_ok.mp (ok_of_notUnion h)
    obtain ⟨ids, hids, hlength⟩ := ih hinner
    exact ⟨ids, .array harray hids, hlength⟩

/-! ### How many aliases are followed -/

/-- The aliases that are followed decide how many must be followed. -/
theorem Leads.resolve_eq (h : Leads ds t ids) (hdepth : ids.length ≤ depth)
    (hdepth' : ids.length ≤ depth') :
    ds.resolve depth t constraints naming = ds.resolve depth' t constraints naming := by
  induction h generalizing depth depth' constraints naming with
  | settled hsettled => exact resolve_settled hsettled
  | @follow id body ids hbody _ ih =>
    obtain ⟨depth, rfl⟩ := Nat.exists_eq_succ_of_ne_zero (Nat.ne_zero_of_lt hdepth)
    obtain ⟨depth', rfl⟩ := Nat.exists_eq_succ_of_ne_zero (Nat.ne_zero_of_lt hdepth')
    rw [resolve_follow hbody, resolve_follow hbody]
    exact ih (Nat.le_of_succ_le_succ hdepth) (Nat.le_of_succ_le_succ hdepth')
  | annotated _ notes ih =>
    rw [resolve, resolve]
    exact ih hdepth hdepth'
  | only hone _ ih => rw [resolve_only hone, resolve_only hone, ih hdepth hdepth']
  | array harray _ ih => rw [resolve_array harray, resolve_array harray, ih hdepth hdepth']

/-- An alias that is followed leads through no more aliases itself. -/
theorem Leads.exists_of_mem (h : Leads ds t ids) {id : String} (hid : id ∈ ids) :
    ∃ ids', Leads ds (.named id) ids' ∧ ids'.length ≤ ids.length := by
  induction h with
  | settled => cases hid
  | @follow first body ids hbody rest ih =>
    obtain rfl | hid := List.mem_cons.mp hid
    · exact ⟨id :: ids, .follow hbody rest, Nat.le_refl _⟩
    · obtain ⟨ids', hids', hlength⟩ := ih hid
      exact ⟨ids', hids', Nat.le_succ_of_le hlength⟩
  | annotated _ _ ih | only _ _ ih | array _ _ ih => exact ih hid

theorem Leads.nodup (h : Leads ds t ids) : ids.Nodup := by
  induction h with
  | settled => exact List.nodup_nil
  | @follow id body ids hbody rest ih =>
    refine List.nodup_cons.mpr ⟨fun hid => ?_, ih⟩
    obtain ⟨ids', hids', hlength⟩ := rest.exists_of_mem hid
    rw [hids'.unique (.follow hbody rest)] at hlength
    exact absurd hlength (Nat.not_succ_le_self _)
  | annotated _ _ ih | only _ _ ih | array _ _ ih => exact ih

theorem Leads.subset_keys (h : Leads ds t ids) : ids ⊆ ds.entries.map (·.1) := by
  induction h with
  | settled => exact List.nil_subset _
  | follow hbody _ ih =>
    exact List.cons_subset.mpr ⟨List.mem_map_of_mem (Entries.mem_of_get? hbody), ih⟩
  | annotated _ _ ih | only _ _ ih | array _ _ ih => exact ih

/-- No more aliases are followed than there are declarations. -/
theorem Leads.length_le (h : Leads ds t ids) : ids.length ≤ ds.entries.length := by
  simpa using (List.subperm_of_subset h.nodup h.subset_keys).length_le

/-- With a bound beyond the number of declarations, any other such bound gives the same shape. -/
theorem resolve_of_bound {s : Shape} (hdepth : ds.entries.length ≤ depth)
    (hdepth' : ds.entries.length ≤ depth') (h : ds.resolve depth t constraints naming = .ok s) :
    ds.resolve depth' t constraints naming = .ok s := by
  obtain ⟨ids, hids, -⟩ := exists_leads_of_resolve h
  have hlength := hids.length_le
  rwa [hids.resolve_eq (Nat.le_trans hlength hdepth') (Nat.le_trans hlength hdepth)]

end StructuredOutput.Declarations

import StructuredOutput.Proofs.Schema.Origins
import StructuredOutput.Proofs.Schema.Roles
import StructuredOutput.Proofs.Shape.Acyclic

/-!
Derivations come to an end. The roles that are being built are different ones, so that named schemas
are never nested as deep as they may be; what then stops a derivation is a definition that is
refused.
-/

namespace StructuredOutput

namespace Derivation

variable {ds : Declarations} {t : TypeExpr} {root : Shape} {α β : Type} {roles : List Role}

/-- A step has a result or refuses a definition, and with a result it leaves the roles that are
being built as they were. -/
structure Ends (roles : List Role) (m : Derive α) : Prop where
  decided : ∀ d, d.building = roles → Decided (m.run d).1
  kept : ∀ d a d', d.building = roles → m.run d = (.ok a, d') → d'.building = roles

namespace Ends

theorem pure (a : α) : Ends roles (Pure.pure a) where
  decided := fun _ _ => .ok a
  kept := by
    rintro d b d' hd hrun
    cases hrun
    exact hd

theorem fail (cause : DefinitionError) : Ends roles (Derivation.fail cause : Derive α) where
  decided := fun _ _ => .definition (.error cause)
  kept := fun _ _ _ _ hrun => by cases hrun

theorem lift (r : Except DefinitionError α) : Ends roles (Derivation.lift r) := by
  cases r with
  | ok a => exact .pure a
  | error cause => exact .fail cause

theorem bind {m : Derive α} {f : α → Derive β} (hm : Ends roles m) (hf : ∀ a, Ends roles (f a)) :
    Ends roles (m >>= f) where
  decided := by
    intro d hd
    have hdecided := hm.decided d hd
    rw [run_bind]
    rcases hrun : m.run d with ⟨fault | a, d'⟩
    · rw [hrun] at hdecided
      exact hdecided.of_error
    · exact (hf a).decided d' (hm.kept d a d' hd hrun)
  kept := by
    intro d b d'' hd hrun
    obtain ⟨a, d', hma, hfb⟩ := run_bind_eq_ok.mp hrun
    exact (hf a).kept d' b d'' (hm.kept d a d' hd hma) hfb

theorem mapM {xs : List α} {f : α → Derive β} (hf : ∀ x ∈ xs, Ends roles (f x)) :
    Ends roles (xs.mapM f) := by
  induction xs with
  | nil => exact .pure []
  | cons x xs ih =>
    rw [List.mapM_cons]
    refine (hf x List.mem_cons_self).bind fun y => ?_
    exact (ih fun z hz => hf z (List.mem_cons_of_mem x hz)).bind fun ys => .pure _

end Ends

theorem claim_ends (role : Role) (base : String) : Ends roles (claim role base) where
  decided := by
    intro d hd
    obtain ⟨name, d', hrun, -⟩ := exists_run_claim role base d
    rw [hrun]
    exact .ok name
  kept := by
    intro d name d' hd hrun
    exact (claims_of_run hrun).building.trans hd

/-- The schema of a role comes to an end if its body does while the role is being built. -/
theorem once_ends {role : Role} {base : String} {body : String → Derive Schema}
    (hbody : role ∉ roles → ∀ name, Ends (role :: roles) (body name)) :
    Ends roles (once role base body) := by
  have hrun (d : Derivation) (hd : d.building = roles) :
      Decided ((once role base body).run d).1 ∧
        ∀ s d', (once role base body).run d = (.ok s, d') → d'.building = roles := by
    obtain ⟨name, d₀, hclaim, hclaims⟩ := exists_run_claim role base d
    have hbuilding : d₀.building = roles := hclaims.building.trans hd
    rw [run_once hclaim, hbuilding]
    split
    · exact ⟨.ok _, fun s d' h => (Prod.mk.inj h).2 ▸ hbuilding⟩
    next hnew =>
    split
    · exact ⟨.ok _, fun s d' h => (Prod.mk.inj h).2 ▸ hbuilding⟩
    have hbegin : (d₀.begin role).building = role :: roles := congrArg (role :: ·) hbuilding
    have hends := hbody hnew name
    rcases hresult : (body name).run (d₀.begin role) with ⟨fault | s, d₁⟩
    · have hdecided := hends.decided _ hbegin
      rw [hresult] at hdecided
      exact ⟨hdecided.of_error, fun s d' h => by cases h⟩
    · refine ⟨.ok s, fun s' d' h => ?_⟩
      have hkept := hends.kept _ s d₁ hbegin hresult
      obtain ⟨-, rfl⟩ := Prod.mk.inj h
      exact (building_finish (hbuilding.symm ▸ hnew) (hkept.trans hbegin.symm)).trans hbuilding
  exact ⟨fun d hd => (hrun d hd).1, fun d s d' hd h => (hrun d hd).2 s d' h⟩

theorem arrays_ends (build : Shape → Derive Schema) {shape : Shape}
    (hbuild : ∀ s, Reaches ds shape s → Ends roles (build s)) :
    Ends roles (arrays build shape) := by
  induction shape with
  | array item container constraints ih =>
    have hitem : Reaches ds (.array item container constraints) item := .item (.refl item)
    exact (ih fun s hs => hbuild s (hitem.trans hs)).bind fun s => .lift _
  | _ => exact hbuild _ (.refl _)

theorem objectOf_ends (hacyclic : ds.Acyclic) {field : Shape → Derive Schema} {id name : String}
    {description : Option String} {leading : List (Property Schema)}
    (hfield : ∀ fields, ds.fieldShapes id = .ok fields → ∀ f ∈ fields,
      Ends roles (field f.shape)) :
    Ends roles (objectOf ds field id name description leading) := by
  unfold objectOf
  split
  · next fault hfault =>
    obtain ⟨cause, rfl⟩ := hacyclic.decided_fieldShapes id fault hfault
    exact .fail cause
  · next fields hfields =>
    refine (Ends.mapM fun f hf => ?_).bind fun properties => .lift _
    exact (hfield fields hfields f hf).bind fun s => .pure _

/-- As long as more schemas may be nested than there are roles left, the schema of a shape comes to
an end. -/
theorem build_ends (hacyclic : ds.Acyclic) (hroot : ds.shapeOf t = .ok root) (fuel : Nat)
    {shape : Shape} (hreach : Reaches ds root shape) {roles : List Role} (hnodup : roles.Nodup)
    (hroles : roles ⊆ ds.roles t) (hfuel : (ds.roles t).length < fuel + roles.length) :
    Ends roles (build ds fuel shape) := by
  induction fuel generalizing shape roles with
  | zero =>
    have hle := (List.subperm_of_subset hnodup hroles).length_le
    omega
  | succ fuel ih =>
    -- What is nested in the schema of a role is built while the role is.
    have hfields {role : Role} (hrole : (Source.shape shape).role? = some role)
        (hnew : role ∉ roles) (id : String) (hid : id ∈ shape.records) :
        ∀ fields, ds.fieldShapes id = .ok fields → ∀ f ∈ fields,
          Ends (role :: roles) (arrays (build ds fuel) f.shape) := by
      intro fields hresolved f hf
      have hfield : Reaches ds shape f.shape := .field hid hresolved hf (.shape_of_field f)
      have hmem : role ∈ ds.roles t := ds.role_mem_of_reaches hroot hreach hrole
      refine arrays_ends _ fun s hs => ih (hreach.trans (hfield.trans hs))
        (List.nodup_cons.mpr ⟨hnew, hnodup⟩) (List.cons_subset.mpr ⟨hmem, hroles⟩) ?_
      rw [List.length_cons]
      omega
    cases shape with
    | primitive | literal => exact .lift _
    | array | optional => exact .fail _
    | enum id name description => exact once_ends fun _ name => .pure _
    | record id name description =>
      exact once_ends fun hnew schemaName =>
        objectOf_ends hacyclic (hfields rfl hnew id (List.mem_singleton_self id))
    | union name description cases =>
      refine once_ends fun hnew unionName => ?_
      refine (Ends.mapM fun c hc => ?_).bind fun alternatives => .pure _
      refine (claim_ends _ _).bind fun caseName => ?_
      exact objectOf_ends hacyclic (hfields rfl hnew c.record (List.mem_map_of_mem hc))

end Derivation

namespace Declarations

variable {ds : Declarations}

/-- Where no alias reaches itself, a type has a schema, or a definition is refused. -/
theorem Acyclic.decided_deriveSchema (h : ds.Acyclic) (t : TypeExpr) :
    Decided (ds.deriveSchema t).1 := by
  unfold deriveSchema
  split
  · next fault hfault =>
    exact (hfault ▸ h.decided_shapeOf t).of_error
  · exact .definition (.error _)
  next shape _ hshape =>
  have hends : Derivation.Ends []
      (Derivation.arrays (Derivation.build ds (ds.derivationDepth t)) shape) :=
    Derivation.arrays_ends _ fun s hs => Derivation.build_ends h hshape _ hs List.nodup_nil
      (List.nil_subset _) (ds.length_roles_lt t)
  have hdecided := hends.decided .start rfl
  split
  · next fault d hrun =>
    rw [hrun] at hdecided
    exact hdecided.of_error
  · exact .ok _

/-- Where no alias reaches itself, a type has a schema or is refused, unless one of its literals can
be changed. -/
theorem Acyclic.decided_schemaFor_iff (h : ds.Acyclic) (cache : SchemaCache) (t : TypeExpr) :
    Decided (ds.schemaFor cache t).1 ↔ t.changeable? = none := by
  unfold schemaFor
  cases t.changeable? with
  | some typeName =>
    refine ⟨fun hdecided => ?_, fun hfixed => by cases hfixed⟩
    obtain ⟨cause, hcause⟩ := hdecided _ rfl
    cases hcause
  | none =>
    refine iff_of_true ?_ rfl
    have hderived := h.decided_deriveSchema t
    cases cache.find? fun e => e.1.same t with
    | some entry => exact .ok _
    | none =>
      rcases hresult : ds.deriveSchema t with ⟨_ | graph, notices⟩
      · rw [hresult] at hderived
        exact hderived
      · exact .ok _

end Declarations

end StructuredOutput

import Mathlib.Data.List.Perm.Subperm
import StructuredOutput.Proofs.Schema.Mirrors

/-!
What a derivation keeps: different roles have different names, and whatever has been built for a
role mirrors every shape that the role describes. The schema of a shape mirrors it, so that it fits
it where no refinement sets the options of a literal.
-/

namespace StructuredOutput.Derivation

variable {ds : Declarations} {root : Shape} {α β : Type}

/-! ### Fresh names -/

theorem numbered_injective (base : String) :
    Function.Injective fun i : Nat => s!"{base}{i + 2}" := by
  intro i j h
  have hrepr : (i + 2).repr = (j + 2).repr := by
    have happend : base ++ (i + 2).repr = base ++ (j + 2).repr := by simpa using h
    exact String.append_right_inj _ |>.mp happend
  have hdigits := congrArg (fun s => Nat.ofDigitChars 10 s.toList 0) hrepr
  simp only [Nat.toList_repr, Nat.ofDigitChars_ten_toDigits] at hdigits
  omega

/-- The first of some names that is not taken is not taken, if there are more than are taken. -/
theorem find?_getD_not_mem {taken names : List String} (base : String) (hnodup : names.Nodup)
    (hmore : taken.length < names.length) :
    ((base :: names).find? fun n => !taken.contains n).getD base ∉ taken := by
  have hfree : ∃ n ∈ names, n ∉ taken := by
    by_contra hall
    push Not at hall
    have hle := (hnodup.subperm hall).length_le
    omega
  obtain ⟨n, hn, hnot⟩ := hfree
  have hsome : ((base :: names).find? fun n => !taken.contains n).isSome = true := by
    rw [List.find?_isSome]
    exact ⟨n, List.mem_cons_of_mem base hn, by simpa using hnot⟩
  obtain ⟨m, hm⟩ := Option.isSome_iff_exists.mp hsome
  have hfound := List.find?_some hm
  rw [hm, Option.getD_some]
  simpa using hfound

theorem freshName_not_mem (taken : List String) (base : String) :
    freshName taken base ∉ taken :=
  find?_getD_not_mem base (List.nodup_range.map (numbered_injective base)) (by simp)

/-! ### The invariant -/

/-- A role is one of a shape that the root reaches. -/
def Reached (ds : Declarations) (root : Shape) (role : Role) : Prop :=
  ∃ shape, Reaches ds root shape ∧ role.Describes ds shape

/-- A derivation is sound when no name has two roles, and what is built for a role, and what the
table has under its name, mirrors every shape that the role describes, and the root reaches one. -/
structure Sound (ds : Declarations) (root : Shape) (d : Derivation) : Prop where
  names : (d.names.map (·.2)).Nodup
  built : ∀ role s, Entries.get? d.built role = some s → Reached ds root role ∧
    ∀ shape, role.Describes ds shape → Mirrors ds d.names s shape []
  table : ∀ name s, Entries.get? d.table name = some s →
    ∃ role, Entries.get? d.names role = some name ∧ Reached ds root role ∧
      ∀ shape, role.Describes ds shape → Mirrors ds d.names s shape []

theorem sound_start (ds : Declarations) (root : Shape) : Sound ds root start :=
  ⟨List.nodup_nil, fun _ _ h => (by cases h), fun _ _ h => by cases h⟩

/-- A step that succeeds keeps a derivation sound and keeps all names; of its result something is
known in terms of the names afterwards. -/
def Yields (ds : Declarations) (root : Shape) (m : Derive α) (post : RoleNames → α → Prop) : Prop :=
  ∀ d a d', Sound ds root d → m.run d = (.ok a, d') →
    Sound ds root d' ∧ RoleNames.Extends d'.names d.names ∧ post d'.names a

theorem extends_refl (names : RoleNames) : RoleNames.Extends names names := fun _ _ h => h

theorem extends_trans {a b c : RoleNames} (hab : RoleNames.Extends a b)
    (hbc : RoleNames.Extends b c) : RoleNames.Extends a c :=
  fun role name h => hab role name (hbc role name h)

theorem run_bind (m : Derive α) (f : α → Derive β) (d : Derivation) :
    (m >>= f).run d =
      match m.run d with
      | (.ok a, d') => (f a).run d'
      | (.error fault, d') => (.error fault, d') := by
  change StateT.run (m >>= f).run d =
    match StateT.run m.run d with
    | (.ok a, d') => (f a).run d'
    | (.error fault, d') => (.error fault, d')
  rw [ExceptT.run_bind, StateT.run_bind]
  rcases StateT.run m.run d with ⟨_ | a, d'⟩ <;> rfl

theorem run_bind_eq_ok {m : Derive α} {f : α → Derive β} {d d'' : Derivation} {b : β} :
    (m >>= f).run d = (.ok b, d'') ↔ ∃ a d', m.run d = (.ok a, d') ∧ (f a).run d' = (.ok b, d'') := by
  rw [run_bind]
  rcases m.run d with ⟨fault | a, d'⟩
  · constructor
    · intro h
      cases h
    · rintro ⟨a, d', h, -⟩
      cases h
  · constructor
    · exact fun h => ⟨a, d', rfl, h⟩
    · rintro ⟨a, d', h, hf⟩
      cases h
      exact hf

namespace Yields

theorem pure {post : RoleNames → α → Prop} {a : α} (h : ∀ names, post names a) :
    Yields ds root (Pure.pure a) post := by
  intro d b d' hd hrun
  cases hrun
  exact ⟨hd, extends_refl _, h _⟩

theorem throw {post : RoleNames → α → Prop} (fault : TypeFault) :
    Yields ds root (MonadExcept.throw fault : Derive α) post :=
  fun _ _ _ _ hrun => by cases hrun

theorem bind {m : Derive α} {f : α → Derive β} {mid : RoleNames → α → Prop}
    {post : RoleNames → β → Prop} (hm : Yields ds root m mid)
    (hkeep : ∀ wide narrow a, RoleNames.Extends wide narrow → mid narrow a → mid wide a)
    (hf : ∀ a, Yields ds root (f a) fun names b => mid names a → post names b) :
    Yields ds root (m >>= f) post := by
  intro d b d'' hd hrun
  obtain ⟨a, d', hma, hfb⟩ := run_bind_eq_ok.mp hrun
  obtain ⟨hd', hextend, hmid⟩ := hm d a d' hd hma
  obtain ⟨hd'', hextend', hpost⟩ := hf a d' b d'' hd' hfb
  exact ⟨hd'', extends_trans hextend' hextend, hpost (hkeep _ _ _ hextend' hmid)⟩

theorem imp {m : Derive α} {post post' : RoleNames → α → Prop} (h : Yields ds root m post)
    (himp : ∀ names a, post names a → post' names a) : Yields ds root m post' :=
  fun d a d' hd hrun =>
    have ⟨hd', hextend, hpost⟩ := h d a d' hd hrun
    ⟨hd', hextend, himp _ _ hpost⟩

theorem lift {post : RoleNames → α → Prop} {r : Except DefinitionError α}
    (h : ∀ a, r = .ok a → ∀ names, post names a) : Yields ds root (Derivation.lift r) post := by
  cases r with
  | ok a => exact Yields.pure (h a rfl)
  | error cause => exact Yields.throw _

theorem mapM (ds : Declarations) (root : Shape) (xs : List α) (f : α → Derive β)
    (post : α → RoleNames → β → Prop)
    (hf : ∀ x ∈ xs, Yields ds root (f x) (post x))
    (hkeep : ∀ x wide narrow b, RoleNames.Extends wide narrow → post x narrow b → post x wide b) :
    Yields ds root (xs.mapM f) fun names ys => List.Forall₂ (fun x y => post x names y) xs ys := by
  induction xs with
  | nil => exact Yields.pure fun _ => .nil
  | cons x xs ih =>
    rw [List.mapM_cons]
    refine bind (hf x List.mem_cons_self) (hkeep x) fun y => ?_
    refine bind (ih fun z hz => hf z (List.mem_cons_of_mem x hz))
      (fun _ _ _ hextend h => h.imp fun _ _ => hkeep _ _ _ _ hextend) fun ys => ?_
    exact Yields.pure fun _ hys hy => .cons hy hys

end Yields

/-! ### Names and named schemas -/

theorem run_get_bind {f : Derivation → Derive β} {d : Derivation} :
    (get >>= f).run d = (f d).run d := rfl

theorem run_set_bind {s d : Derivation} {f : PUnit → Derive β} :
    (set s >>= f).run d = (f ⟨⟩).run s := rfl

/-- What claiming a name for a role does: the role has the name, no name is given up or has two
roles, and nothing but the names and the notices changes. -/
structure Claims (d : Derivation) (role : Role) (name : String) (d' : Derivation) : Prop where
  kept : RoleNames.Extends d'.names d.names
  named : Entries.get? d'.names role = some name
  distinct : (d.names.map (·.2)).Nodup → (d'.names.map (·.2)).Nodup
  built : d'.built = d.built
  table : d'.table = d.table
  building : d'.building = d.building

/-- Claiming a name succeeds. -/
theorem exists_run_claim (role : Role) (base : String) (d : Derivation) :
    ∃ name d', (claim role base).run d = (.ok name, d') ∧ Claims d role name d' := by
  rw [claim, run_get_bind]
  split
  · next name hname => exact ⟨name, d, rfl, extends_refl _, hname, id, rfl, rfl, rfl⟩
  next hnone =>
  dsimp only
  rw [run_set_bind]
  refine ⟨_, _, rfl, fun r name hr => ?_, ?_, fun hnodup => ?_, rfl, rfl, rfl⟩
  · change Entries.get? (d.names ++ _) r = _
    rw [Entries.get?_append, hr, Option.some_or]
  · change Entries.get? (d.names ++ _) role = _
    rw [Entries.get?_append, hnone, Option.none_or, Entries.get?_cons_self]
  · rw [List.map_append, List.nodup_append', List.map_singleton, List.disjoint_singleton]
    exact ⟨hnodup, List.nodup_singleton _, freshName_not_mem _ base⟩

theorem claims_of_run {role : Role} {base name : String} {d d' : Derivation}
    (hrun : (claim role base).run d = (.ok name, d')) : Claims d role name d' := by
  obtain ⟨name', d'', hrun', hclaims⟩ := exists_run_claim role base d
  obtain ⟨hname, rfl⟩ := Prod.mk.inj (hrun.symm.trans hrun')
  exact Except.ok.inj hname ▸ hclaims

/-- The derivation while the schema of a role is being built. -/
def begin (d : Derivation) (role : Role) : Derivation := { d with building := role :: d.building }

/-- The derivation after the schema of a role has been built. -/
def finish (d : Derivation) (role : Role) (name : String) (s : Schema) : Derivation :=
  { d with
    building := d.building.filter (· != role)
    built := d.built ++ [(role, s)]
    table := Entries.put d.table name s }

/-- What becomes of a role that has a name: it is referred to while it is being built, it has a
schema, or its body is built. -/
theorem run_once {role : Role} {base name : String} {d d₀ : Derivation}
    (hclaim : (claim role base).run d = (.ok name, d₀)) (body : String → Derive Schema) :
    (once role base body).run d =
      if role ∈ d₀.building then (.ok (.ref name), d₀)
      else
        match Entries.get? d₀.built role with
        | some s => (.ok s, d₀)
        | none =>
          match (body name).run (d₀.begin role) with
          | (.ok s, d₁) => (.ok s, d₁.finish role name s)
          | (.error fault, d₁) => (.error fault, d₁) := by
  rw [once, run_bind, hclaim]
  dsimp only
  rw [run_get_bind]
  by_cases hbuilding : role ∈ d₀.building
  · rw [if_pos hbuilding, if_pos (List.contains_iff_mem.mpr hbuilding)]
    rfl
  rw [if_neg hbuilding, if_neg (fun h => hbuilding (List.contains_iff_mem.mp h))]
  cases Entries.get? d₀.built role with
  | some s => rfl
  | none =>
    dsimp only
    rw [run_set_bind, run_bind, begin]
    rcases (body name).run _ with ⟨_ | s, d₁⟩ <;> rfl

/-- How a role that has a name comes to its schema. -/
inductive Settles (role : Role) (name : String) (body : String → Derive Schema) (d : Derivation) :
    Schema → Derivation → Prop
  | reference (building : role ∈ d.building) : Settles role name body d (.ref name) d
  | known {s : Schema} (idle : role ∉ d.building) (built : Entries.get? d.built role = some s) :
      Settles role name body d s d
  | fresh {s : Schema} {d' : Derivation} (idle : role ∉ d.building)
      (unbuilt : Entries.get? d.built role = none)
      (run : (body name).run (d.begin role) = (.ok s, d')) :
      Settles role name body d s (d'.finish role name s)

theorem settles_of_run {role : Role} {base : String} {body : String → Derive Schema}
    {d d' : Derivation} {s : Schema} (hrun : (once role base body).run d = (.ok s, d')) :
    ∃ name d₀, (claim role base).run d = (.ok name, d₀) ∧ Settles role name body d₀ s d' := by
  obtain ⟨name, d₀, hclaim, -⟩ := exists_run_claim role base d
  refine ⟨name, d₀, hclaim, ?_⟩
  rw [run_once hclaim] at hrun
  split at hrun
  · next hbuilding =>
    cases hrun
    exact .reference hbuilding
  next hidle =>
  split at hrun
  · next known hknown =>
    cases hrun
    exact .known hidle hknown
  next hunbuilt =>
  rcases hbody : (body name).run (d₀.begin role) with ⟨fault | t, d₁⟩
  · rw [hbody] at hrun
    cases hrun
  · rw [hbody] at hrun
    cases hrun
    exact .fresh hidle hunbuilt hbody

/-- What has been built when a role is finished has been built before or is what is built for the
role. -/
theorem get?_of_finish_built {d : Derivation} {role r : Role} {name : String} {s t : Schema}
    (h : Entries.get? (d.finish role name s).built r = some t) :
    Entries.get? d.built r = some t ∨ (r = role ∧ t = s) := by
  change Entries.get? (d.built ++ [(role, s)]) r = some t at h
  rw [Entries.get?_append] at h
  cases hget : Entries.get? d.built r with
  | some u => exact .inl (by rwa [hget, Option.some_or] at h)
  | none =>
    rw [hget, Option.none_or] at h
    exact .inr (Prod.mk.inj (List.mem_singleton.mp (Entries.mem_of_get? h)))

/-- A role has a name once it has been claimed. -/
theorem claim_yields (role : Role) (base : String) :
    Yields ds root (claim role base) fun names name => Entries.get? names role = some name := by
  intro d name d' hd hrun
  have hclaims := claims_of_run hrun
  refine ⟨⟨hclaims.distinct hd.names, fun r s hs => ?_, fun n s hs => ?_⟩, hclaims.kept,
    hclaims.named⟩
  · obtain ⟨hreached, hmirrors⟩ := hd.built r s (hclaims.built ▸ hs)
    exact ⟨hreached, fun shape hdescribes => (hmirrors shape hdescribes).extend hclaims.kept⟩
  · obtain ⟨r, hr, hreached, hmirrors⟩ := hd.table n s (hclaims.table ▸ hs)
    exact ⟨r, hclaims.kept r n hr, hreached, fun shape hdescribes =>
      (hmirrors shape hdescribes).extend hclaims.kept⟩

theorem sound_finish {d : Derivation} {role : Role} {name : String} {s : Schema}
    (hd : Sound ds root d) (hname : Entries.get? d.names role = some name)
    (hreached : Reached ds root role)
    (hmirrors : ∀ shape, role.Describes ds shape → Mirrors ds d.names s shape []) :
    Sound ds root (d.finish role name s) where
  names := hd.names
  built := by
    intro r t ht
    rcases get?_of_finish_built ht with ht | ⟨rfl, rfl⟩
    · exact hd.built r t ht
    · exact ⟨hreached, hmirrors⟩
  table := by
    intro n t ht
    change Entries.get? (Entries.put d.table name s) n = some t at ht
    by_cases hn : n = name
    · subst hn
      rw [Entries.get?_put_self, Option.some.injEq] at ht
      subst ht
      exact ⟨role, hname, hreached, hmirrors⟩
    · rw [Entries.get?_put_of_ne _ _ hn] at ht
      exact hd.table n t ht

/-- What a role is built to, or refers to itself by, mirrors every shape that the role describes. -/
theorem once_yields {role : Role} {base : String} {body : String → Derive Schema}
    (hreached : Reached ds root role)
    (hbody : ∀ name, Yields ds root (body name) fun names s =>
      Entries.get? names role = some name →
        ∀ shape, role.Describes ds shape → Mirrors ds names s shape []) :
    Yields ds root (once role base body) fun names s =>
      ∀ shape, role.Describes ds shape → Mirrors ds names s shape [] := by
  intro d₀ s d' hd₀ hrun
  obtain ⟨name, d, hclaim, hsettles⟩ := settles_of_run hrun
  obtain ⟨hd, hextend₀, hname⟩ := claim_yields role base _ _ _ hd₀ hclaim
  cases hsettles with
  | reference => exact ⟨hd, hextend₀, fun shape => .ref hname⟩
  | known _ hknown => exact ⟨hd, hextend₀, (hd.built role s hknown).2⟩
  | fresh _ _ hbuilt =>
    have hbegin : Sound ds root (d.begin role) := ⟨hd.names, hd.built, hd.table⟩
    obtain ⟨hd₁, hextend, hmirrors⟩ := hbody name _ _ _ hbegin hbuilt
    have hname₁ := hextend role name hname
    exact ⟨sound_finish hd₁ hname₁ hreached (hmirrors hname₁), extends_trans hextend hextend₀,
      hmirrors hname₁⟩

/-! ### Schemas of shapes -/

/-- What is built for a shape mirrors it. -/
def Builds (ds : Declarations) (root : Shape) (build : Shape → Derive Schema) (shape : Shape) :
    Prop :=
  Yields ds root (build shape) fun names s => Mirrors ds names s shape shape.constraints

theorem arrays_builds (build : Shape → Derive Schema) {shape : Shape}
    (hbuild : ∀ s, Reaches ds shape s → Builds ds root build s) :
    Builds ds root (arrays build) shape := by
  induction shape with
  | array item container constraints ih =>
    have hitem : Reaches ds (.array item container constraints) item := .item (.refl item)
    have hitems : Builds ds root (arrays build) item := ih fun s hs => hbuild s (hitem.trans hs)
    refine hitems.bind (fun _ _ _ hextend h => h.extend hextend) fun s => ?_
    refine Yields.lift fun whole hwhole names hmirrors => ?_
    have hbare : Mirrors ds names (.array s []) (.array item container constraints) [] := by
      refine @Mirrors.array ds names s item [] ?_ container constraints
      rwa [Shape.itemRules, List.filterMap_nil, List.append_nil]
    exact hbare.constrain hwhole
  | _ => exact hbuild _ (.refl _)

/-- The property of a field. -/
def propertyOf (field : Shape → Derive Schema) (f : FieldShape) : Derive (Property Schema) := do
  let s ← field f.shape
  pure ⟨f.key, s, f.description, f.optional⟩

theorem propertyOf_yields {field : Shape → Derive Schema} {f : FieldShape}
    (hfield : Builds ds root field f.shape) :
    Yields ds root (propertyOf field f) fun names p => (p.key = f.key ∧ p.optional = f.optional) ∧
      Mirrors ds names p.schema f.shape f.shape.constraints :=
  hfield.bind (fun _ _ _ hextend h => h.extend hextend) fun _ =>
    Yields.pure fun _ hmirrors => ⟨⟨rfl, rfl⟩, hmirrors⟩

theorem objectOf_yields {field : Shape → Derive Schema} {id name : String}
    {description : Option String} {leading : List (Property Schema)}
    (hfield : ∀ fields, ds.fieldShapes id = .ok fields → ∀ f ∈ fields,
      Builds ds root field f.shape) :
    Yields ds root (objectOf ds field id name description leading) fun names s =>
      ∃ fields properties, ds.fieldShapes id = .ok fields ∧
        s = .object name description (leading ++ properties) ∧
        ((leading ++ properties).map (·.key)).Nodup ∧ MirrorsFields ds names properties fields := by
  unfold objectOf
  split
  · exact Yields.throw _
  · next fields hfields =>
    have hproperties := Yields.mapM ds root fields (propertyOf field) _
      (fun f hf => propertyOf_yields (hfield fields hfields f hf))
      (fun f _ _ _ hextend h => ⟨h.1, h.2.extend hextend⟩)
    refine hproperties.bind (fun _ _ _ hextend h => h.imp fun _ _ h => ⟨h.1, h.2.extend hextend⟩)
      fun properties => ?_
    refine Yields.lift fun s hs names hall => ?_
    unfold Schema.ofProperties at hs
    dsimp only at hs
    split at hs
    · cases hs
    · next hdistinct =>
      cases hs
      refine ⟨fields, properties, hfields, rfl,
        Entries.nodup_of_distinct_length (by simpa using hdistinct), ?_, ?_⟩
      · exact (hall.imp fun _ _ h => h.1).flip
      · intro p f hmem
        exact ((List.forall₂_iff_zip.mp hall.flip).2 hmem).2

/-- A schema defines the name of a case and mirrors the case. -/
structure IsCase (ds : Declarations) (names : RoleNames) (unionName : String)
    (records : List String) (s : Schema) (id : String) : Prop where
  defined : s.defines = true ∧
    ∃ name, s.name? = some name ∧ Entries.get? names (.case unionName records id) = some name
  mirrors : Mirrors ds names s (.union "" none [⟨id, ds.caseTag id⟩]) []

theorem IsCase.extend {names wide : RoleNames} {unionName id : String} {records : List String}
    {s : Schema} (h : IsCase ds names unionName records s id) (hwide : wide.Extends names) :
    IsCase ds wide unionName records s id := by
  obtain ⟨hdefines, name, hname, hcase⟩ := h.defined
  exact ⟨⟨hdefines, name, hname, hwide _ _ hcase⟩, h.mirrors.extend hwide⟩

/-- The object of a case of a union, with its tag before the properties of its fields. -/
def caseOf (ds : Declarations) (field : Shape → Derive Schema) (unionName : String)
    (records : List String) (c : Case) : Derive Schema := do
  let caseName ← claim (.case unionName records c.record) (ds.schemaName c.record)
  let tag : Property Schema := ⟨discriminatorKey, .string [.constant c.tag], none, false⟩
  objectOf ds field c.record caseName (ds.naming c.record).description [tag]

theorem caseOf_yields {field : Shape → Derive Schema} {c : Case} (unionName : String)
    (records : List String) (htag : c.tag = ds.caseTag c.record)
    (hfield : ∀ fields, ds.fieldShapes c.record = .ok fields → ∀ f ∈ fields,
      Builds ds root field f.shape) :
    Yields ds root (caseOf ds field unionName records c) fun names s =>
      IsCase ds names unionName records s c.record := by
  refine (claim_yields _ _).bind (fun _ _ _ hextend h => hextend _ _ h) fun caseName => ?_
  refine (objectOf_yields hfield).imp fun names s h hname => ?_
  obtain ⟨fields, properties, hresolved, rfl, hkeys, hall⟩ := h
  have hkey : discriminatorKey ∉ properties.map (·.key) := (List.nodup_cons.mp hkeys).1
  rw [htag]
  exact ⟨⟨rfl, _, rfl, hname⟩,
    .case hname hresolved hkey hall.alike hall.each (ds.naming c.record).description _ _⟩

theorem build_builds (fuel : Nat) {shape : Shape} (hroot : Reaches ds root shape)
    (hcoherent : shape.Coherent ds) : Builds ds root (build ds fuel) shape := by
  induction fuel generalizing shape with
  | zero => exact Yields.throw _
  | succ fuel ih =>
    have hfields (id : String) (hid : id ∈ shape.records) :
        ∀ fields, ds.fieldShapes id = .ok fields → ∀ f ∈ fields,
          Builds ds root (arrays (build ds fuel)) f.shape := by
      intro fields hfields f hf
      have hreach : Reaches ds shape f.shape := .field hid hfields hf (.shape_of_field f)
      exact arrays_builds _ fun t ht =>
        ih (hroot.trans (hreach.trans ht)) ((hreach.trans ht).coherent hcoherent)
    unfold Builds build
    cases shape with
    | primitive type constraints =>
      have hscalar (names : RoleNames) :
          Mirrors ds names (scalar type) (.primitive type constraints) [] := by
        cases type
        · exact .text [] constraints
        · exact .integer .nil constraints
        · exact .real [] constraints
        · exact .bool constraints
      exact Yields.lift fun s hs names => (hscalar names).constrain hs
    | literal values constraints =>
      have hoptions (names : RoleNames) :
          Mirrors ds names (.string [choice values]) (.literal values constraints) [] :=
        .literal [] values constraints
      exact Yields.lift fun s hs names => (hoptions names).constrain hs
    | array | optional => exact Yields.throw _
    | enum id name description =>
      have hrole : Reached ds root (.enum id) := ⟨_, hroot, rfl⟩
      refine (once_yields hrole fun schemaName =>
        Yields.pure fun names hname s hs => ?_).imp fun names s h => h _ rfl
      cases s <;> cases hs
      exact .enum hname description _ _
    | record id name description =>
      have hrole : Reached ds root (.record id) := ⟨_, hroot, rfl⟩
      refine (once_yields hrole fun schemaName => ?_).imp fun names s h => h _ rfl
      refine (objectOf_yields (hfields id (List.mem_singleton_self id))).imp
        fun names s h hname s' hs' => ?_
      obtain ⟨fields, properties, hresolved, rfl, -, hall⟩ := h
      cases s' <;> cases hs'
      exact .record hname hresolved hall.alike hall.each description _ _
    | union name description cases =>
      obtain ⟨htags, hcaseTag⟩ := hcoherent
      have hcases : cases = (cases.map (·.record)).map fun id => ⟨id, ds.caseTag id⟩ := by
        rw [List.map_map]
        refine (List.map_id cases).symm.trans (List.map_congr_left fun c hc => ?_)
        rw [Function.comp_apply, ← hcaseTag c hc]
        rfl
      have hrole : Reached ds root (.union name (cases.map (·.record))) := ⟨_, hroot, hcases⟩
      refine (once_yields hrole fun unionName => ?_).imp fun names s h => h _ hcases
      have halternatives := Yields.mapM ds root cases
        (caseOf ds (arrays (build ds fuel)) name (cases.map (·.record))) _
        (fun c hc => caseOf_yields name _ (hcaseTag c hc)
          (hfields c.record (List.mem_map_of_mem hc)))
        (fun _ _ _ _ hextend h => h.extend hextend)
      refine halternatives.bind (fun _ _ _ hextend h => h.imp fun _ _ h => h.extend hextend)
        fun alternatives => Yields.pure fun names hall hname s hs => ?_
      have hrecords : List.Forall₂ (IsCase ds names name (cases.map Case.record))
          alternatives (cases.map Case.record) := List.forall₂_map_right_iff.mpr hall.flip
      obtain ⟨haligned, heach⟩ := List.forall₂_iff_zip.mp hrecords
      have hdistinct : ((cases.map (·.record)).map ds.caseTag).Nodup := by
        rw [List.map_map]
        exact List.map_congr_left hcaseTag ▸ htags
      cases s <;> cases hs
      exact .union hname hdistinct haligned (fun _ _ hmem => (heach hmem).defined)
        (fun _ _ hmem => (heach hmem).mirrors) description _ _

end StructuredOutput.Derivation

namespace StructuredOutput

/-- Shapes of one role read the fields of the same records. -/
theorem Role.Describes.records_eq {ds : Declarations} {role : Role} {s t : Shape}
    (hs : role.Describes ds s) (ht : role.Describes ds t) : s.records = t.records := by
  cases role <;> cases s <;> cases hs <;> cases t <;> cases ht <;> rfl

/-- Whether refinements set options is the same for all shapes of a role. -/
theorem Unguided.of_describes {ds : Declarations} {role : Role} {s t : Shape}
    (h : Unguided ds s) (hs : role.Describes ds s) (ht : role.Describes ds t) : Unguided ds t := by
  intro u hu c hc
  cases hu with
  | refl => cases role <;> cases t <;> cases ht <;> cases hc
  | optional | item => cases role <;> cases ht
  | field hid hfields hf hrest =>
    exact h u (.field (hs.records_eq ht ▸ hid) hfields hf hrest) c hc

/-- A schema and its table mirror a shape under names of which no two are the same. -/
structure SchemaGraph.MirrorsShape (ds : Declarations) (g : SchemaGraph) (names : RoleNames)
    (shape : Shape) : Prop where
  distinct : (names.map (·.2)).Nodup
  root : Mirrors ds names g.root shape shape.constraints
  table : ∀ name s, Entries.get? g.table name = some s →
    ∃ role, Entries.get? names role = some name ∧ Derivation.Reached ds shape role ∧
      ∀ shape, role.Describes ds shape → Mirrors ds names s shape []

/-- The schema that is derived for a type mirrors the shape of the type. -/
theorem Declarations.mirrors_of_deriveSchema {ds : Declarations} {t : TypeExpr} {g : SchemaGraph}
    {shape : Shape} (hshape : ds.shapeOf t = .ok shape)
    (h : (ds.deriveSchema t).1 = .ok g) : ∃ names, g.MirrorsShape ds names shape := by
  unfold deriveSchema at h
  split at h
  · cases h
  · cases h
  next derived _ hderived =>
  obtain rfl : shape = derived := Except.ok.inj (hshape.symm.trans hderived)
  have hcoherent := coherent_of_shapeOf hshape
  split at h
  · cases h
  next root d hrun =>
  cases h
  have hbuilds : Derivation.Builds ds shape
      (Derivation.arrays (Derivation.build ds (ds.derivationDepth t))) shape :=
    Derivation.arrays_builds _ fun s hs => Derivation.build_builds _ hs (hs.coherent hcoherent)
  obtain ⟨hd, -, hmirrors⟩ := hbuilds _ _ _ (Derivation.sound_start ds shape) hrun
  exact ⟨d.names, hd.names, hmirrors, hd.table⟩

/-- A schema and its table fit a shape under names of which no two are the same. -/
structure SchemaGraph.FitsShape (ds : Declarations) (g : SchemaGraph) (names : RoleNames)
    (shape : Shape) : Prop where
  distinct : (names.map (·.2)).Nodup
  root : Fits ds names g.root shape
  table : ∀ name s, Entries.get? g.table name = some s →
    ∃ role, Entries.get? names role = some name ∧
      ∀ shape, role.Describes ds shape → Fits ds names s shape

/-- The schema that is derived for a type fits the shape of the type. -/
theorem Declarations.fits_of_deriveSchema {ds : Declarations} {t : TypeExpr} {g : SchemaGraph}
    {shape : Shape} (hshape : ds.shapeOf t = .ok shape) (hguides : Unguided ds shape)
    (h : (ds.deriveSchema t).1 = .ok g) : ∃ names, g.FitsShape ds names shape := by
  obtain ⟨names, hmirrors⟩ := mirrors_of_deriveSchema hshape h
  refine ⟨names, hmirrors.distinct, ?_, fun name s hs => ?_⟩
  · exact hmirrors.root.fits hguides fun c hc => hguides shape (.refl shape) c hc
  · obtain ⟨role, hname, ⟨reached, hreached, hdescribes⟩, htable⟩ := hmirrors.table name s hs
    refine ⟨role, hname, fun described hdescribed => (htable described hdescribed).fits ?_ ?_⟩
    · exact (hguides.of_reaches hreached).of_describes hdescribes hdescribed
    · exact fun c hc => absurd hc List.not_mem_nil

end StructuredOutput

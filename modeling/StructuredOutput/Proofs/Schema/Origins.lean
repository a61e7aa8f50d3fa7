import StructuredOutput.Proofs.Schema.Derivation
import StructuredOutput.Proofs.Schema.Positions

/-!
Where the nodes of a derived schema come from. What a derivation has built for a role is one
schema, it is in the result, and whatever has a place under that role is the schema itself or a
reference to it.
-/

namespace StructuredOutput

namespace Derivation

/-! ### What is built -/

/-- Whether the schema of a role is being built or has been. -/
def Begun (d : Derivation) (role : Role) : Prop :=
  role ∈ d.building ∨ ∃ s, Entries.get? d.built role = some s

/-- Whether a role is defined by a schema: what is built for it or, for a case of a union, an
alternative of what is built for the union. -/
def Defined (d : Derivation) : Role → Schema → Prop
  | .case unionName records record, s => ∃ name description alternatives,
      Entries.get? d.built (.union unionName records) =
        some (.union name description alternatives) ∧
      (s, record) ∈ alternatives.zip records
  | role, s => Entries.get? d.built role = some s

/-- A schema is one that has been derived from a source. What has a role is the definition of that
role or a reference to it. -/
inductive Placed (d : Derivation) : Schema → Source → Prop
  | scalar {s : Schema} (plain : s.IsScalar) (source : Source) : Placed d s source
  | array {item : Schema} {shape : Shape} (items : Placed d item (.shape shape))
      (counts : List Span) (container : Container) (constraints : List Constraint) :
      Placed d (.array item counts) (.shape (.array shape container constraints))
  | ref {role : Role} {name : String} {source : Source} (origin : source.role? = some role)
      (named : Entries.get? d.names role = some name) (begun : d.Begun role) :
      Placed d (.ref name) source
  | node {role : Role} {s : Schema} {source : Source} (origin : source.role? = some role)
      (defined : d.Defined role s) : Placed d s source

/-- The definition of a role has the name of the role, and its parts have been derived from what
the role says. -/
inductive Layer (ds : Declarations) (d : Derivation) : Role → Schema → Prop
  | enum {id name : String} (named : Entries.get? d.names (.enum id) = some name)
      (description : Option String) :
      Layer ds d (.enum id)
        (.union name description ((ds.enumOf id).wires.map fun w => .string [.constant w.1]))
  | record {id name : String} {fields : List FieldShape} {properties : List (Property Schema)}
      (named : Entries.get? d.names (.record id) = some name)
      (resolved : ds.fieldShapes id = .ok fields)
      (each : List.Forall₂ (fun p f => Placed d p.schema (.shape f.shape)) properties fields)
      (description : Option String) :
      Layer ds d (.record id) (.object name description properties)
  | case {unionName id name tag : String} {records : List String} {fields : List FieldShape}
      {properties : List (Property Schema)}
      (named : Entries.get? d.names (.case unionName records id) = some name)
      (resolved : ds.fieldShapes id = .ok fields)
      (each : List.Forall₂ (fun p f => Placed d p.schema (.shape f.shape)) properties fields)
      (description : Option String) :
      Layer ds d (.case unionName records id)
        (.object name description (tagProperty tag :: properties))
  | union {unionName name : String} {records : List String} {alternatives : List Schema}
      (named : Entries.get? d.names (.union unionName records) = some name)
      (distinct : records.Nodup) (aligned : alternatives.length = records.length)
      (each : ∀ s id, (s, id) ∈ alternatives.zip records →
        Layer ds d (.case unionName records id) s)
      (description : Option String) :
      Layer ds d (.union unionName records) (.union name description alternatives)

/-- A derivation is consistent when no name has two roles, whatever is built for a role defines it
and is in the table under its name, and what is being built is not built yet. -/
structure Consistent (ds : Declarations) (d : Derivation) : Prop where
  names : (d.names.map (·.2)).Nodup
  built : ∀ role s, Entries.get? d.built role = some s → Layer ds d role s
  table : ∀ role name s, Entries.get? d.names role = some name →
    Entries.get? d.built role = some s → Entries.get? d.table name = some s
  building : ∀ role ∈ d.building, Entries.get? d.built role = none

theorem consistent_start (ds : Declarations) : Consistent ds start :=
  ⟨List.nodup_nil, fun _ _ h => (by cases h), fun _ _ _ h => (by cases h), fun _ h => by cases h⟩

/-! ### What later steps keep -/

variable {ds : Declarations} {d d' d'' : Derivation} {role : Role} {s : Schema} {source : Source}
variable {α β : Type}

/-- Names and schemas are never given up. -/
structure Follows (d d' : Derivation) : Prop where
  names : RoleNames.Extends d'.names d.names
  built : ∀ role s, Entries.get? d.built role = some s → Entries.get? d'.built role = some s
  begun : ∀ role, d.Begun role → d'.Begun role

theorem Defined.mono (h : d.Defined role s) (hd : Follows d d') : d'.Defined role s := by
  cases role with
  | case unionName records record =>
    obtain ⟨name, description, alternatives, hbuilt, hmem⟩ := h
    exact ⟨name, description, alternatives, hd.built _ _ hbuilt, hmem⟩
  | enum | record | union => exact hd.built _ _ h

theorem Placed.mono (h : d.Placed s source) (hd : Follows d d') : d'.Placed s source := by
  induction h with
  | scalar plain source => exact .scalar plain source
  | array _ counts container constraints ih => exact .array ih counts container constraints
  | ref origin named begun => exact .ref origin (hd.names _ _ named) (hd.begun _ begun)
  | node origin defined => exact .node origin (defined.mono hd)

theorem Layer.mono (h : Layer ds d role s) (hd : Follows d d') : Layer ds d' role s := by
  induction h with
  | enum named description => exact .enum (hd.names _ _ named) description
  | record named resolved each description =>
    exact .record (hd.names _ _ named) resolved (each.imp fun _ _ h => h.mono hd) description
  | case named resolved each description =>
    exact .case (hd.names _ _ named) resolved (each.imp fun _ _ h => h.mono hd) description
  | union named distinct aligned _ description ih =>
    exact .union (hd.names _ _ named) distinct aligned ih description

theorem Layer.named (h : Layer ds d role s) :
    ∃ name, Entries.get? d.names role = some name ∧ s.name? = some name := by
  cases h with
  | enum named | record named | case named | union named => exact ⟨_, named, rfl⟩

theorem Layer.defines (h : Layer ds d role s) : s.defines = true := by
  cases h <;> rfl

/-- What defines a role of a consistent derivation is a definition with the name of the role. -/
theorem Consistent.layer (hd : Consistent ds d) (h : d.Defined role s) : Layer ds d role s := by
  cases role with
  | case unionName records record =>
    obtain ⟨name, description, alternatives, hbuilt, hmem⟩ := h
    cases hd.built _ _ hbuilt with
    | union _ _ _ each => exact each s record hmem
  | enum | record | union => exact hd.built _ _ h

theorem Placed.refine (hd : Consistent ds d) (h : d.Placed s source) {c : Constraint} {t : Schema}
    (hs : s.refine c = .ok t) : d.Placed t source := by
  have hname := Schema.name?_eq_none_of_refine hs
  induction h generalizing c t with
  | scalar plain source => exact .scalar (plain.refine hs) source
  | array items counts container constraints ih =>
    cases c with
    | count span =>
      cases hs
      exact .array items _ container constraints
    | element inner =>
      obtain ⟨item, hitem, rfl⟩ := Outcome.map_eq_ok.mp hs
      exact .array (ih hitem (Schema.name?_eq_none_of_refine hitem)) counts container constraints
    | text | range => cases hs
  | ref => cases hname
  | node origin defined =>
    obtain ⟨name, -, hsome⟩ := (hd.layer defined).named
    cases hname.symm.trans hsome

/-! ### What a step adds -/

/-- A step keeps what has been built, and whatever it builds is in one of the given schemas. -/
structure Grows (d d' : Derivation) (results : List Schema) : Prop where
  building : d'.building = d.building
  names : RoleNames.Extends d'.names d.names
  built : ∀ role s, Entries.get? d.built role = some s → Entries.get? d'.built role = some s
  within : ∀ role s, Entries.get? d'.built role = some s →
    Entries.get? d.built role = some s ∨ ∃ r ∈ results, s.Within r

/-- Whether whatever defines a name in one of the first schemas is in one of the others. -/
def Covers (wide narrow : List Schema) : Prop :=
  ∀ (s r : Schema), s.defines = true → r ∈ narrow → s.Within r → ∃ t ∈ wide, s.Within t

theorem Grows.follows {results : List Schema} (h : Grows d d' results) : Follows d d' where
  names := h.names
  built := h.built
  begun := by
    rintro role (hbuilding | ⟨s, hs⟩)
    · exact .inl (h.building ▸ hbuilding)
    · exact .inr ⟨s, h.built role s hs⟩

theorem Grows.refl (d : Derivation) (results : List Schema) : Grows d d results :=
  ⟨rfl, extends_refl _, fun _ _ h => h, fun _ _ h => .inl h⟩

theorem Grows.trans {narrow wide : List Schema} (hd : Consistent ds d') (h : Grows d d' narrow)
    (h' : Grows d' d'' wide) (hcovers : Covers wide narrow) : Grows d d'' wide where
  building := h'.building.trans h.building
  names := extends_trans h'.names h.names
  built := fun role s hs => h'.built role s (h.built role s hs)
  within := by
    intro role s hs
    rcases h'.within role s hs with hs | hs
    · rcases h.within role s hs with hold | ⟨r, hr, hwithin⟩
      · exact .inl hold
      · exact .inr (hcovers s r (hd.built role s hs).defines hr hwithin)
    · exact .inr hs

/-- A step that succeeds keeps a derivation consistent; what it builds is in what its result shows,
and of its result something is known in terms of the derivation afterwards. -/
def Traces (ds : Declarations) (m : Derive α) (shown : α → List Schema)
    (post : Derivation → α → Prop) : Prop :=
  ∀ d a d', Consistent ds d → m.run d = (.ok a, d') →
    Consistent ds d' ∧ Grows d d' (shown a) ∧ post d' a

namespace Traces

variable {shown : α → List Schema} {post : Derivation → α → Prop}

theorem pure {a : α} (h : ∀ d, Consistent ds d → post d a) :
    Traces ds (Pure.pure a) shown post := by
  intro d b d' hd hrun
  cases hrun
  exact ⟨hd, .refl _ _, h _ hd⟩

theorem throw (fault : TypeFault) :
    Traces ds (MonadExcept.throw fault : Derive α) shown post :=
  fun _ _ _ _ hrun => by cases hrun

theorem lift {r : Except DefinitionError α}
    (h : ∀ a, r = .ok a → ∀ d, Consistent ds d → post d a) :
    Traces ds (Derivation.lift r) shown post := by
  cases r with
  | ok a => exact Traces.pure (h a rfl)
  | error cause => exact Traces.throw _

theorem imp {m : Derive α} {post' : Derivation → α → Prop} (h : Traces ds m shown post)
    (himp : ∀ d a, post d a → post' d a) : Traces ds m shown post' :=
  fun d a d' hd hrun =>
    have ⟨hd', hgrows, hpost⟩ := h d a d' hd hrun
    ⟨hd', hgrows, himp _ _ hpost⟩

/-- One step after another, where the result of the second shows what that of the first does. -/
theorem bind {m : Derive α} {f : α → Derive β} {shown' : β → List Schema}
    {post' : Derivation → β → Prop} (hm : Traces ds m shown post)
    (hkeep : ∀ d d' a, Follows d d' → post d a → post d' a)
    (hf : ∀ a, Traces ds (f a) shown' fun d b =>
      post d a → Covers (shown' b) (shown a) ∧ post' d b) :
    Traces ds (m >>= f) shown' post' := by
  intro d b d'' hd hrun
  obtain ⟨a, d', hma, hfb⟩ := run_bind_eq_ok.mp hrun
  obtain ⟨hd', hgrows, hpost⟩ := hm d a d' hd hma
  obtain ⟨hd'', hgrows', hpost'⟩ := hf a d' b d'' hd' hfb
  obtain ⟨hcovers, hresult⟩ := hpost' (hkeep _ _ _ hgrows'.follows hpost)
  exact ⟨hd'', hgrows.trans hd' hgrows' hcovers, hresult⟩

end Traces

/-! ### Names and named schemas -/

theorem claim_traces (role : Role) (base : String) (shown : String → List Schema) :
    Traces ds (claim role base) shown fun d name => Entries.get? d.names role = some name := by
  intro d name d' hd hrun
  have hclaims := claims_of_run hrun
  have hbuilt (r : Role) (s : Schema) (hs : Entries.get? d'.built r = some s) : Layer ds d r s :=
    hd.built r s (hclaims.built ▸ hs)
  have hgrows : Grows d d' (shown name) :=
    ⟨hclaims.building, hclaims.kept, fun r s hs => hclaims.built.symm ▸ hs,
      fun r s hs => .inl (hclaims.built ▸ hs)⟩
  refine ⟨⟨hclaims.distinct hd.names, fun r s hs => (hbuilt r s hs).mono hgrows.follows,
    fun r n s hn hs => ?_, fun r hr => ?_⟩, hgrows, hclaims.named⟩
  · -- What is built for a role has a name, which the role keeps.
    obtain ⟨old, hold, -⟩ := (hbuilt r s hs).named
    obtain rfl : old = n := Option.some.inj ((hclaims.kept r old hold).symm.trans hn)
    exact hclaims.table.symm ▸ hd.table r old s hold (hclaims.built ▸ hs)
  · exact hclaims.built.symm ▸ hd.building r (hclaims.building ▸ hr)

theorem consistent_begin (hd : Consistent ds d) (hfresh : Entries.get? d.built role = none) :
    Consistent ds (d.begin role) := by
  have hfollows : Follows d (d.begin role) :=
    ⟨extends_refl _, fun _ _ h => h, fun _ h => h.imp_left (List.mem_cons_of_mem role)⟩
  refine ⟨hd.names, fun r s hs => (hd.built r s hs).mono hfollows, hd.table, fun r hr => ?_⟩
  rcases List.mem_cons.mp hr with rfl | hr
  · exact hfresh
  · exact hd.building r hr

theorem get?_finish_built {name : String} (hfresh : Entries.get? d.built role = none) (r : Role)
    (t : Schema) : Entries.get? (d.finish role name s).built r = some t ↔
      Entries.get? d.built r = some t ∨ (r = role ∧ t = s) := by
  refine ⟨get?_of_finish_built, ?_⟩
  change _ → Entries.get? (d.built ++ [(role, s)]) r = some t
  rw [Entries.get?_append]
  rintro (ht | ⟨rfl, rfl⟩)
  · rw [ht, Option.some_or]
  · rw [hfresh, Option.none_or, Entries.get?_cons_self]

theorem begun_finish_self (d : Derivation) (role : Role) (name : String) (s : Schema) :
    (d.finish role name s).Begun role := by
  refine .inr ?_
  change ∃ t, Entries.get? (d.built ++ [(role, s)]) role = some t
  rw [Entries.get?_append, Entries.get?_cons_self]
  cases Entries.get? d.built role <;> exact ⟨_, rfl⟩

/-- What has been begun still is when a body is finished. -/
theorem begun_finish {r : Role} (h : d.Begun r) (role : Role) (name : String) (s : Schema) :
    (d.finish role name s).Begun r := by
  by_cases hrole : r = role
  · exact hrole ▸ begun_finish_self d role name s
  rcases h with hbuilding | ⟨t, ht⟩
  · exact .inl (List.mem_filter.mpr ⟨hbuilding, by simpa using hrole⟩)
  · refine .inr ⟨t, ?_⟩
    change Entries.get? (d.built ++ [(role, s)]) r = some t
    rw [Entries.get?_append, ht, Option.some_or]

theorem follows_finish {name : String} (hfresh : Entries.get? d.built role = none) :
    Follows d (d.finish role name s) where
  names := extends_refl _
  built := fun r t ht => (get?_finish_built hfresh r t).mpr (.inl ht)
  begun := fun _ hr => begun_finish hr role name s

/-- The roles that are being built when a role is begun and finished are those from before. -/
theorem building_finish {d₁ : Derivation} {name : String} (hidle : role ∉ d.building)
    (hbuilding : d₁.building = (d.begin role).building) :
    (d₁.finish role name s).building = d.building := by
  change d₁.building.filter (· != role) = d.building
  rw [hbuilding]
  change (role :: d.building).filter (· != role) = d.building
  rw [List.filter_cons_of_neg (by simp), List.filter_eq_self]
  intro r hr
  rw [bne_iff_ne]
  rintro rfl
  exact hidle hr

theorem consistent_finish {name : String} (hd : Consistent ds d)
    (hfresh : Entries.get? d.built role = none) (hname : Entries.get? d.names role = some name)
    (hs : Layer ds d role s) : Consistent ds (d.finish role name s) := by
  have hfollows : Follows d (d.finish role name s) := follows_finish hfresh
  refine ⟨hd.names, fun r t ht => ?_, fun r n t hn ht => ?_, fun r hr => ?_⟩
  · rcases (get?_finish_built hfresh r t).mp ht with ht | ⟨rfl, rfl⟩
    · exact (hd.built r t ht).mono hfollows
    · exact hs.mono hfollows
  · change Entries.get? (Entries.put d.table name s) n = some t
    rcases (get?_finish_built hfresh r t).mp ht with hold | ⟨rfl, rfl⟩
    · -- Another role has another name, so that its entry is not the one that is set.
      have hne : n ≠ name := by
        rintro rfl
        obtain rfl := role_unique hd.names hn hname
        cases hold.symm.trans hfresh
      rw [Entries.get?_put_of_ne _ _ hne]
      exact hd.table r n t hn hold
    · obtain rfl : n = name := Option.some.inj (hn.symm.trans hname)
      exact Entries.get?_put_self _ _ _
  · obtain ⟨hr, hne⟩ := List.mem_filter.mp hr
    have hnone : Entries.get? d.built r = none := hd.building r hr
    change Entries.get? (d.built ++ [(role, s)]) r = none
    rw [Entries.get?_append, hnone, Option.none_or,
      Entries.get?_cons_of_ne _ _ (Ne.symm (by simpa using hne))]
    rfl

/-- What stands for a role is a reference while the role is being built and its definition
afterwards. -/
theorem once_traces (role : Role) {base : String} {body : String → Derive Schema}
    (hbody : ∀ name, Traces ds (body name) (fun s => [s]) fun d s =>
      Entries.get? d.names role = some name → Layer ds d role s)
    (hrole : ∀ d s, Entries.get? d.built role = some s → Defined d role s) :
    Traces ds (once role base body) (fun s => [s]) fun d s =>
      ∀ source : Source, source.role? = some role → d.Placed s source := by
  intro d₀ s d' hd₀ hrun
  obtain ⟨name, d, hclaim, hsettles⟩ := settles_of_run hrun
  obtain ⟨hd, hgrows₀, hname⟩ := claim_traces role base (fun _ => []) _ _ _ hd₀ hclaim
  have hcovers : Covers [s] [] := fun _ _ _ hr => absurd hr List.not_mem_nil
  cases hsettles with
  | reference hbuilding =>
    exact ⟨hd, hgrows₀.trans hd (.refl _ _) hcovers,
      fun source horigin => .ref horigin hname (.inl hbuilding)⟩
  | known _ hknown =>
    exact ⟨hd, hgrows₀.trans hd (.refl _ _) hcovers,
      fun source horigin => .node horigin (hrole _ _ hknown)⟩
  | @fresh _ d₁ hidle hunbuilt hbuilt =>
    obtain ⟨hd₁, hgrows, hlayer⟩ := hbody name _ _ _ (consistent_begin hd hunbuilt) hbuilt
    have hname₁ : Entries.get? d₁.names role = some name := hgrows.names _ _ hname
    have hfresh : Entries.get? d₁.built role = none :=
      hd₁.building role (hgrows.building ▸ List.mem_cons_self)
    have hfinish : Grows d (d₁.finish role name s) [s] := by
      refine ⟨building_finish hidle hgrows.building, hgrows.names, fun r t ht => ?_,
        fun r t ht => ?_⟩
      · exact (get?_finish_built hfresh r t).mpr (.inl (hgrows.built r t ht))
      · rcases get?_of_finish_built ht with ht | ⟨rfl, rfl⟩
        · exact hgrows.within r t ht
        · exact .inr ⟨_, List.mem_singleton_self _, .refl _⟩
    refine ⟨consistent_finish hd₁ hfresh hname₁ (hlayer hname₁),
      hgrows₀.trans hd hfinish hcovers, fun source horigin => .node horigin (hrole _ _ ?_)⟩
    exact (get?_finish_built hfresh role _).mpr (.inr ⟨rfl, rfl⟩)

/-! ### Schemas of shapes -/

/-- What is built for a shape has been derived from it. -/
def Derives (ds : Declarations) (build : Shape → Derive Schema) (shape : Shape) : Prop :=
  Traces ds (build shape) (fun s => [s]) fun d s => d.Placed s (.shape shape)

theorem placed_mono (shape : Shape) (d d' : Derivation) (s : Schema) (hd : Follows d d')
    (h : d.Placed s (.shape shape)) : d'.Placed s (.shape shape) :=
  h.mono hd

theorem Placed.constrain (hd : Consistent ds d) (h : d.Placed s source) {cs : List Constraint}
    {t : Schema} (hs : s.constrain cs = .ok t) : d.Placed t source :=
  Schema.keeps_of_constrain (P := fun s => d.Placed s source)
    (fun _ _ _ hplaced hrefine => hplaced.refine hd hrefine) h hs

theorem covers_of_constrain {cs : List Constraint} {t : Schema}
    (hs : (Schema.array s []).constrain cs = .ok t) : Covers [t] [s] := by
  intro node r hnode hr hwithin
  obtain rfl := List.mem_singleton.mp hr
  have harray : node.Within (.array r []) := hwithin.of_part (List.mem_singleton_self r)
  exact ⟨t, List.mem_singleton_self t, Schema.keeps_of_constrain (P := node.Within)
    (fun _ _ _ hwithin hrefine => hwithin.refine hrefine hnode) harray hs⟩

theorem arrays_derives (build : Shape → Derive Schema) {shape : Shape}
    (hbuild : ∀ s, Reaches ds shape s → Derives ds build s) : Derives ds (arrays build) shape := by
  induction shape with
  | array item container constraints ih =>
    have hitem : Reaches ds (.array item container constraints) item := .item (.refl item)
    have hitems : Derives ds (arrays build) item := ih fun s hs => hbuild s (hitem.trans hs)
    refine hitems.bind (placed_mono item) fun s => ?_
    refine Traces.lift fun whole hwhole d hd hplaced => ⟨covers_of_constrain hwhole, ?_⟩
    exact (Placed.array hplaced [] container constraints).constrain hd hwhole
  | _ => exact hbuild _ (.refl _)

/-- The steps over a list, each of which shows what it builds. -/
theorem traces_mapM (ds : Declarations) (xs : List α) (f : α → Derive β) (shown : β → Schema)
    (post : α → Derivation → β → Prop)
    (hf : ∀ x ∈ xs, Traces ds (f x) (fun y => [shown y]) (post x))
    (hkeep : ∀ x d d' y, Follows d d' → post x d y → post x d' y) :
    Traces ds (xs.mapM f) (fun ys => ys.map shown) fun d ys =>
      List.Forall₂ (fun x y => post x d y) xs ys := by
  induction xs with
  | nil => exact Traces.pure fun _ _ => .nil
  | cons x xs ih =>
    rw [List.mapM_cons]
    refine Traces.bind (hf x List.mem_cons_self) (hkeep x) fun y => ?_
    refine Traces.bind (ih fun z hz => hf z (List.mem_cons_of_mem x hz))
      (fun _ _ _ hd h => h.imp fun _ _ => hkeep _ _ _ _ hd) fun ys => ?_
    refine Traces.pure fun d _ hys => ⟨?_, fun hy => ⟨?_, .cons hy hys⟩⟩
    · exact fun s r _ hr hwithin => ⟨r, List.mem_cons_of_mem _ hr, hwithin⟩
    · exact fun s r _ hr hwithin => ⟨r, List.mem_singleton.mp hr ▸ List.mem_cons_self, hwithin⟩

/-- What is in one of the parts of a schema is in the schema. -/
theorem covers_of_parts {narrow : List Schema} (h : ∀ r ∈ narrow, r ∈ s.parts) :
    Covers [s] narrow :=
  fun _ r _ hr hwithin => ⟨s, List.mem_singleton_self s, hwithin.of_part (h r hr)⟩

theorem propertyOf_traces {field : Shape → Derive Schema} {f : FieldShape}
    (hfield : Derives ds field f.shape) :
    Traces ds (propertyOf field f) (fun p => [p.schema]) fun d p =>
      d.Placed p.schema (.shape f.shape) :=
  hfield.bind (placed_mono f.shape) fun _ => Traces.pure fun _ _ hplaced =>
    ⟨fun _ r _ hr hwithin => ⟨r, hr, hwithin⟩, hplaced⟩

theorem objectOf_traces {field : Shape → Derive Schema} {id name : String}
    {description : Option String} {leading : List (Property Schema)}
    (hfield : ∀ fields, ds.fieldShapes id = .ok fields → ∀ f ∈ fields,
      Derives ds field f.shape) :
    Traces ds (objectOf ds field id name description leading) (fun s => [s]) fun d s =>
      ∃ fields properties, ds.fieldShapes id = .ok fields ∧
        s = .object name description (leading ++ properties) ∧
        List.Forall₂ (fun p f => d.Placed p.schema (.shape f.shape)) properties fields := by
  unfold objectOf
  split
  · exact Traces.throw _
  next fields hfields =>
  have hproperties := traces_mapM ds fields (propertyOf field) (·.schema) _
    (fun f hf => propertyOf_traces (hfield fields hfields f hf))
    (fun f d d' p => placed_mono f.shape d d' p.schema)
  refine hproperties.bind (fun _ _ _ hd h => h.imp fun _ _ hplaced => hplaced.mono hd)
    fun properties => ?_
  refine Traces.lift fun s hs d _ hall => ?_
  unfold Schema.ofProperties at hs
  dsimp only at hs
  split at hs
  · cases hs
  cases hs
  refine ⟨covers_of_parts fun r hr => ?_, fields, properties, hfields, rfl, hall.flip⟩
  obtain ⟨p, hp, rfl⟩ := List.mem_map.mp hr
  exact Schema.mem_parts_of_mem_properties (List.mem_append_right leading hp)

/-- The cases of a union are different records, as their discriminators differ. -/
theorem nodup_records {cases : List Case} (htags : (cases.map (·.tag)).Nodup)
    (hcaseTag : ∀ c ∈ cases, c.tag = ds.caseTag c.record) : (cases.map (·.record)).Nodup := by
  have hrecords : (cases.map (·.record)).map ds.caseTag = cases.map (·.tag) := by
    rw [List.map_map]
    exact List.map_congr_left fun c hc => (hcaseTag c hc).symm
  exact List.Nodup.of_map ds.caseTag (hrecords ▸ htags)

theorem caseOf_traces {field : Shape → Derive Schema} {c : Case} (unionName : String)
    (records : List String)
    (hfield : ∀ fields, ds.fieldShapes c.record = .ok fields → ∀ f ∈ fields,
      Derives ds field f.shape) :
    Traces ds (caseOf ds field unionName records c) (fun s => [s]) fun d s =>
      Layer ds d (.case unionName records c.record) s := by
  refine (claim_traces _ _ fun _ => []).bind (fun _ _ _ hd h => hd.names _ _ h) fun caseName => ?_
  refine (objectOf_traces hfield).imp fun d s h hname => ?_
  obtain ⟨fields, properties, hresolved, rfl, hall⟩ := h
  exact ⟨covers_of_parts fun _ hr => absurd hr List.not_mem_nil, .case hname hresolved hall _⟩

theorem build_derives (fuel : Nat) {shape : Shape} (hcoherent : shape.Coherent ds) :
    Derives ds (build ds fuel) shape := by
  induction fuel generalizing shape with
  | zero => exact Traces.throw _
  | succ fuel ih =>
    have hfields (id : String) (hid : id ∈ shape.records) :
        ∀ fields, ds.fieldShapes id = .ok fields → ∀ f ∈ fields,
          Derives ds (arrays (build ds fuel)) f.shape := by
      intro fields hfields f hf
      have hreach : Reaches ds shape f.shape := .field hid hfields hf (.shape_of_field f)
      exact arrays_derives _ fun t ht => ih ((hreach.trans ht).coherent hcoherent)
    unfold Derives build
    cases shape with
    | primitive type constraints =>
      refine Traces.lift fun s hs d hd => Placed.constrain hd (.scalar ?_ _) hs
      cases type <;> exact ⟨rfl, rfl⟩
    | literal values constraints =>
      exact Traces.lift fun s hs d hd => Placed.constrain hd (.scalar ⟨rfl, rfl⟩ _) hs
    | array | optional => exact Traces.throw _
    | enum id name description =>
      refine (once_traces (.enum id) (fun schemaName => ?_) fun _ _ h => h).imp fun d s h => h _ rfl
      exact Traces.pure fun d _ hname => .enum hname description
    | record id name description =>
      refine (once_traces (.record id) (fun schemaName => ?_) fun _ _ h => h).imp
        fun d s h => h _ rfl
      refine (objectOf_traces (hfields id (List.mem_singleton_self id))).imp fun d s h hname => ?_
      obtain ⟨fields, properties, hresolved, rfl, hall⟩ := h
      exact .record hname hresolved hall description
    | union name description cases =>
      obtain ⟨htags, hcaseTag⟩ := hcoherent
      refine (once_traces (.union name (cases.map (·.record))) (fun unionName => ?_)
        fun _ _ h => h).imp fun d s h => h (.shape (.union name description cases)) rfl
      have halternatives := traces_mapM ds cases
        (caseOf ds (arrays (build ds fuel)) name (cases.map (·.record))) id _
        (fun c hc => caseOf_traces name _ (hfields c.record (List.mem_map_of_mem hc)))
        (fun _ _ _ _ hd h => h.mono hd)
      refine halternatives.bind (fun _ _ _ hd h => h.imp fun _ _ hlayer => hlayer.mono hd)
        fun alternatives => Traces.pure fun d _ hall => ⟨?_, fun hname => ?_⟩
      · exact covers_of_parts fun r hr => by rwa [List.map_id] at hr
      · have hrecords : List.Forall₂
            (fun s id => Layer ds d (.case name (cases.map (·.record)) id) s)
            alternatives (cases.map (·.record)) := List.forall₂_map_right_iff.mpr hall.flip
        obtain ⟨haligned, heach⟩ := List.forall₂_iff_zip.mp hrecords
        exact .union hname (nodup_records htags hcaseTag) haligned
          (fun _ _ hmem => heach hmem) description

/-! ### Sources of nodes -/

theorem Defined.unique {t : Schema} (hd : Consistent ds d) (hs : d.Defined role s)
    (ht : d.Defined role t) : s = t := by
  cases role with
  | case unionName records record =>
    obtain ⟨name, description, alternatives, hbuilt, hmem⟩ := hs
    obtain ⟨_, _, _, hbuilt', hmem'⟩ := ht
    cases hbuilt.symm.trans hbuilt'
    -- A record is one case of a union only.
    cases hd.built _ _ hbuilt with
    | union _ distinct =>
      obtain ⟨i, hi⟩ := List.getElem?_of_mem hmem
      obtain ⟨j, hj⟩ := List.getElem?_of_mem hmem'
      obtain ⟨hsi, hri⟩ := List.getElem?_zip_eq_some.mp hi
      obtain ⟨htj, hrj⟩ := List.getElem?_zip_eq_some.mp hj
      obtain ⟨hlt, -⟩ := List.getElem?_eq_some_iff.mp hri
      obtain rfl : i = j := (List.getElem?_inj hlt distinct).mp (hri.trans hrj.symm)
      exact Option.some.inj (hsi.symm.trans htj)
  | enum | record | union => exact Option.some.inj (hs.symm.trans ht)

/-- The `i`th property has been derived from the `i`th field. -/
theorem placed_field {id : String} {fields : List FieldShape} {properties : List (Property Schema)}
    (hresolved : ds.fieldShapes id = .ok fields)
    (heach : List.Forall₂ (fun p f => d.Placed p.schema (.shape f.shape)) properties fields)
    {i : Nat} {part : Schema} (hpart : (properties.map (·.schema))[i]? = some part) :
    ∃ source, Source.field? ds id i = some source ∧ d.Placed part source := by
  rw [List.getElem?_map, Option.map_eq_some_iff] at hpart
  obtain ⟨p, hp, rfl⟩ := hpart
  obtain ⟨f, hf, hplaced⟩ := Outcome.exists_getElem?_right heach hp
  refine ⟨.shape f.shape, ?_, hplaced⟩
  rw [Source.field?, hresolved]
  simp only [hf, Option.map_some]

/-- A part of what has been derived from a source is a scalar, or it has been derived from the part
of the source. -/
theorem Placed.part (hd : Consistent ds d) (h : d.Placed s source) {i : Nat} {part : Schema}
    (hpart : s.parts[i]? = some part) :
    part.IsScalar ∨ ∃ inner, source.part? ds i = some inner ∧ d.Placed part inner := by
  cases h with
  | scalar plain =>
    rw [plain.1] at hpart
    cases hpart
  | ref => cases hpart
  | array items counts container constraints =>
    match i with
    | 0 =>
      cases hpart
      exact .inr ⟨_, rfl, items⟩
    | _ + 1 => cases hpart
  | node origin defined =>
    have hlayer := hd.layer defined
    cases hlayer with
    | enum =>
      left
      obtain ⟨w, -, rfl⟩ := List.mem_map.mp (List.mem_of_getElem? hpart)
      exact ⟨rfl, rfl⟩
    | record named resolved each =>
      right
      rw [Source.part?_of_record origin]
      exact placed_field resolved each hpart
    | case named resolved each =>
      rw [Source.eq_of_role?_case origin]
      match i with
      | 0 =>
        cases hpart
        exact .inl ⟨rfl, rfl⟩
      | i + 1 => exact .inr (placed_field resolved each hpart)
    | @union unionName name records alternatives named distinct aligned each description =>
      right
      obtain ⟨hlt, -⟩ := List.getElem?_eq_some_iff.mp hpart
      have hrecord := List.getElem?_eq_getElem (l := records) (aligned ▸ hlt)
      refine ⟨_, Source.part?_of_union origin hrecord, .node rfl ?_⟩
      exact ⟨name, description, alternatives, defined,
        List.mem_of_getElem? (List.getElem?_zip_eq_some.mpr ⟨hpart, hrecord⟩)⟩

end Derivation

/-! ### Finished derivations -/

/-- A schema and its table as a derivation from a shape leaves them when it is finished. -/
structure SchemaGraph.Finished (ds : Declarations) (g : SchemaGraph) (d : Derivation)
    (shape : Shape) : Prop where
  consistent : Derivation.Consistent ds d
  root : d.Placed g.root (.shape shape)
  within : ∀ role s, Entries.get? d.built role = some s → s.Within g.root
  idle : d.building = []
  table : g.table = d.table

/-- The schema of a type is what a derivation from the shape of the type leaves. -/
theorem Declarations.finished_of_deriveSchema {ds : Declarations} {t : TypeExpr} {g : SchemaGraph}
    (h : (ds.deriveSchema t).1 = .ok g) :
    ∃ shape d, ds.shapeOf t = .ok shape ∧ g.Finished ds d shape := by
  unfold deriveSchema at h
  split at h
  · cases h
  · cases h
  next shape _ hshape =>
  split at h
  · cases h
  next root d hrun =>
  cases h
  have hderives := Derivation.arrays_derives (Derivation.build ds (ds.derivationDepth t))
    fun s hs => Derivation.build_derives _ (hs.coherent (coherent_of_shapeOf hshape))
  obtain ⟨hd, hgrows, hplaced⟩ := hderives _ _ _ (Derivation.consistent_start ds) hrun
  refine ⟨shape, d, hshape, hd, hplaced, fun role s hs => ?_, hgrows.building, rfl⟩
  rcases hgrows.within role s hs with hs | ⟨r, hr, hwithin⟩
  · cases hs
  · exact List.mem_singleton.mp hr ▸ hwithin

end StructuredOutput

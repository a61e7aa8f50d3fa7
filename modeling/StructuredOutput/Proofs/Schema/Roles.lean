import Mathlib.Algebra.Order.BigOperators.Group.List
import Mathlib.Data.List.ProdSigma
import Mathlib.Tactic.Linarith
import StructuredOutput.Proofs.Schema.Positions
import StructuredOutput.Proofs.Shape.AliasChains

/-!
The roles that a derivation can meet. A record and an enumeration have one role each; the role of a
union is decided by its members, which stand in some type, and by how it is named: by its cases, by
an alias or by a name that is attached to some type. So there are fewer roles than named schemas may
be nested.
-/

namespace StructuredOutput

/-! ### What is written in a type -/

namespace TypeExpr

variable {α : Type} (own : TypeExpr → List α)

mutual

/-- What a type and all types inside it have of their own. -/
def gather : TypeExpr → List α
  | list t => own (list t) ++ gather t
  | sequence t => own (sequence t) ++ gather t
  | set t => own (set t) ++ gather t
  | annotated t notes => own (annotated t notes) ++ gather t
  | dict k v => own (dict k v) ++ (gather k ++ gather v)
  | tuple ts => own (tuple ts) ++ gatherAll ts
  | variadic ts => own (variadic ts) ++ gatherAll ts
  | union ts => own (union ts) ++ gatherAll ts
  | t => own t

def gatherAll : List TypeExpr → List α
  | [] => []
  | t :: ts => gather t ++ gatherAll ts

end

/-- The number of parts of a type that are not inside another type in it. -/
def ownSize : TypeExpr → Nat
  | annotated _ notes => notes.length + 1
  | _ => 1

variable {own}

mutual

theorem length_gather_le (hown : ∀ t, (own t).length ≤ ownSize t) (t : TypeExpr) :
    (gather own t).length ≤ t.size := by
  have h := hown t
  match t with
  | list t | sequence t | set t | annotated t _ =>
    have ht := length_gather_le hown t
    simp only [gather, List.length_append, size, ownSize] at h ⊢
    omega
  | dict k v =>
    have hk := length_gather_le hown k
    have hv := length_gather_le hown v
    simp only [gather, List.length_append, size, ownSize] at h ⊢
    omega
  | tuple ts | variadic ts | union ts =>
    have hts := length_gatherAll_le hown ts
    simp only [gather, List.length_append, size, ownSize] at h ⊢
    omega
  | atom _ | named _ | literal _ | undefined _ => exact h

theorem length_gatherAll_le (hown : ∀ t, (own t).length ≤ ownSize t) (ts : List TypeExpr) :
    (gatherAll own ts).length ≤ sizeAll ts := by
  match ts with
  | [] => exact Nat.le_refl 0
  | t :: ts =>
    have ht := length_gather_le hown t
    have hts := length_gatherAll_le hown ts
    rw [gatherAll, List.length_append, sizeAll]
    omega

end

theorem own_subset_gather (own : TypeExpr → List α) (t : TypeExpr) : own t ⊆ gather own t := by
  cases t with
  | atom | named | literal | undefined => exact List.Subset.refl _
  | _ => exact List.subset_append_left _ _

theorem gather_subset_gatherAll {t : TypeExpr} {ts : List TypeExpr} (h : t ∈ ts) :
    gather own t ⊆ gatherAll own ts := by
  induction ts with
  | nil => cases h
  | cons u ts ih =>
    rw [gatherAll]
    rcases List.mem_cons.mp h with rfl | h
    · exact List.subset_append_left _ _
    · exact List.Subset.trans (ih h) (List.subset_append_right _ _)

theorem gather_subset_array {t item : TypeExpr} {container : Container}
    (h : Declarations.arrayOf? t = some (item, container)) : gather own item ⊆ gather own t := by
  unfold Declarations.arrayOf? at h
  split at h <;> cases h
  · exact List.subset_append_right _ _
  · exact List.subset_append_right _ _
  · exact List.Subset.trans (gather_subset_gatherAll (List.mem_singleton_self _))
      (List.subset_append_right _ _)

/-- The members of a union. -/
def members? : TypeExpr → List (List TypeExpr)
  | union members => [members]
  | _ => []

end TypeExpr

/-- The name of a union that a note gives. -/
def Note.naming? : Note → Option UnionNaming
  | .tagged name description => some (.tagged name description)
  | _ => none

/-- The names of unions that are attached to a type. -/
def TypeExpr.tags : TypeExpr → List UnionNaming
  | annotated _ notes => notes.filterMap Note.naming?
  | _ => []

theorem TypeExpr.length_members?_le (t : TypeExpr) : t.members?.length ≤ t.ownSize := by
  cases t <;> first | exact Nat.zero_le _ | exact Nat.le_refl 1

theorem TypeExpr.length_tags_le (t : TypeExpr) : t.tags.length ≤ t.ownSize := by
  cases t with
  | annotated t notes => exact Nat.le_succ_of_le (List.length_filterMap_le _ _)
  | _ => exact Nat.zero_le _

/-! ### Roles of declarations and types -/

/-- The role of a declaration by itself. -/
def Declaration.role? (id : String) : Declaration → Option Role
  | .record _ => some (.record id)
  | .enum _ => some (.enum id)
  | .typeAlias _ | .plain => none

/-- The types that are written in a declaration. -/
def Declaration.types : Declaration → List TypeExpr
  | .record r => r.fields.map (·.type)
  | .typeAlias body => [body]
  | .enum _ | .plain => []

/-- Whether the role of a shape, or that of its items or of the shape inside it, is one of the given
ones. -/
def Shape.Among (roles : List Role) : Shape → Prop
  | .array item _ _ => item.Among roles
  | .optional inner => inner.Among roles
  | shape => ∀ role, (Source.shape shape).role? = some role → role ∈ roles

namespace Declarations

variable {ds : Declarations} {t u : TypeExpr}

/-- A type and the types that are written in declarations. -/
def written (ds : Declarations) (t : TypeExpr) : List TypeExpr :=
  t :: ds.entries.flatMap fun e => e.2.types

/-- How a union may be named. -/
def namings (ds : Declarations) (t : TypeExpr) : List UnionNaming :=
  .byCases :: ds.entries.map (fun e => .byAlias e.1) ++
    (ds.written t).flatMap (TypeExpr.gather TypeExpr.tags)

/-- The members of the unions that are written in a type or in declarations. -/
def unions (ds : Declarations) (t : TypeExpr) : List (List TypeExpr) :=
  (ds.written t).flatMap (TypeExpr.gather TypeExpr.members?)

/-- The role of a union of the given members and name, if it has a shape. -/
def unionRole? (ds : Declarations) (members : List TypeExpr) (naming : UnionNaming) :
    Option Role :=
  (ds.unionShape (present members) naming).toOption.bind fun shape => (Source.shape shape).role?

/-- The roles that the shapes of a type and of the fields of declarations can have. -/
def roles (ds : Declarations) (t : TypeExpr) : List Role :=
  ds.entries.filterMap (fun e => e.2.role? e.1) ++
    ((ds.unions t).product (ds.namings t)).filterMap fun p => ds.unionRole? p.1 p.2

/-! ### How many there are -/

theorem foldl_add_eq {α : Type} (f : α → Nat) (xs : List α) (n : Nat) :
    xs.foldl (fun n x => n + f x) n = n + (xs.map f).sum := by
  rw [← List.foldl_map, List.sum_eq_foldl]
  change (xs.map f).foldl (· + ·) (n + 0) = n + (xs.map f).foldl (· + ·) 0
  exact List.foldl_assoc

section

variable {α : Type} {own : TypeExpr → List α} (hown : ∀ t, (own t).length ≤ t.ownSize)

include hown

theorem length_types_lt (decl : Declaration) :
    (decl.types.flatMap (TypeExpr.gather own)).length < decl.size := by
  rw [List.length_flatMap]
  cases decl with
  | record r =>
    rw [Declaration.types, Declaration.size, foldl_add_eq, List.map_map]
    have hle : (r.fields.map fun f => (TypeExpr.gather own f.type).length).sum ≤
        (r.fields.map fun f => f.type.size).sum :=
      List.sum_le_sum fun f _ => TypeExpr.length_gather_le hown f.type
    exact Nat.lt_one_add_iff.mpr hle
  | typeAlias body =>
    have hle := TypeExpr.length_gather_le hown body
    simp only [Declaration.types, Declaration.size, List.map_singleton, List.sum_singleton]
    omega
  | enum | plain => exact Nat.one_pos

/-- What is gathered from a type and from declarations, and the declarations themselves, are no more
than all parts. -/
theorem length_written_le (ds : Declarations) (t : TypeExpr) :
    ds.entries.length + ((ds.written t).flatMap (TypeExpr.gather own)).length ≤
      ds.size + t.size := by
  have ht := TypeExpr.length_gather_le hown t
  have hsum : (ds.entries.map fun e =>
      1 + (e.2.types.flatMap (TypeExpr.gather own)).length).sum ≤
        (ds.entries.map fun e => e.2.size).sum :=
    List.sum_le_sum fun e _ => Nat.one_add_le_iff.mpr (length_types_lt hown e.2)
  have hcount : (ds.entries.map fun _ => 1).sum = ds.entries.length := by simp
  rw [List.sum_map_add, hcount, ← List.length_flatMap, ← List.flatMap_assoc] at hsum
  rw [written, List.flatMap_cons, List.length_append, size, foldl_add_eq, Nat.zero_add]
  omega

end

/-- There are fewer roles than named schemas may be nested. -/
theorem length_roles_lt (ds : Declarations) (t : TypeExpr) :
    (ds.roles t).length < ds.derivationDepth t := by
  have hunions : ds.entries.length + (ds.unions t).length ≤ ds.size + t.size :=
    length_written_le TypeExpr.length_members?_le ds t
  have htags := length_written_le TypeExpr.length_tags_le ds t
  have hnamings : (ds.namings t).length ≤ ds.size + t.size + 1 := by
    rw [namings, List.cons_append, List.length_cons, List.length_append, List.length_map]
    omega
  have hroles : (ds.roles t).length ≤
      ds.entries.length + (ds.unions t).length * (ds.namings t).length := by
    rw [roles, List.length_append]
    refine Nat.add_le_add (List.length_filterMap_le _ _) ?_
    exact Nat.le_trans (List.length_filterMap_le _ _) (Nat.le_of_eq (List.length_product _ _))
  rw [derivationDepth]
  nlinarith

/-! ### The roles of shapes -/

variable {depth : Nat} {constraints : List Constraint} {naming : UnionNaming} {s : Shape}

theorem orTagged_mem {known : List UnionNaming} {notes : List Note} (hnaming : naming ∈ known)
    (hnotes : notes.filterMap Note.naming? ⊆ known) : naming.orTagged notes ∈ known := by
  induction notes generalizing naming with
  | nil => exact hnaming
  | cons note notes ih =>
    cases note with
    | tagged name description =>
      obtain ⟨htag, hnotes⟩ := List.cons_subset.mp hnotes
      exact ih htag hnotes
    | guide | remark => exact ih hnaming hnotes

theorem orAlias_mem {id : String} {body : TypeExpr} (hnaming : naming ∈ ds.namings t)
    (h : ds.find? id = some (.typeAlias body)) : naming.orAlias id ∈ ds.namings t := by
  have halias : UnionNaming.byAlias id ∈ ds.namings t := by
    refine List.mem_append_left _ (List.mem_cons_of_mem _ ?_)
    exact List.mem_map_of_mem (f := fun e => UnionNaming.byAlias e.1) (Entries.mem_of_get? h)
  cases naming with
  | byCases => exact halias
  | byAlias | tagged => exact hnaming

theorem among_orNothing {roles : List Role} {hasNone : Bool} (h : s.Among roles) :
    (orNothing hasNone s).Among roles := by
  cases hasNone <;> exact h

theorem role_mem_of_find? {id : String} {decl : Declaration} {role : Role}
    (hfind : ds.find? id = some decl) (hrole : decl.role? id = some role) : role ∈ ds.roles t :=
  List.mem_append_left _ (List.mem_filterMap.mpr ⟨(id, decl), Entries.mem_of_get? hfind, hrole⟩)

theorem among_of_classShape {id : String} (h : ds.classShape id constraints = .ok s) :
    s.Among (ds.roles t) := by
  unfold classShape at h
  split at h
  · next e hfind =>
    split at h
    · cases h
    dsimp only at h
    split at h
    · cases h
    split at h <;> cases h
    exact fun role hrole => role_mem_of_find? hfind hrole
  · next r hfind =>
    split at h <;> cases h
    exact fun role hrole => role_mem_of_find? hfind hrole
  · cases h

theorem among_of_unionShape {members : List TypeExpr} (hmembers : members ∈ ds.unions t)
    (hnaming : naming ∈ ds.namings t) (h : ds.unionShape (present members) naming = .ok s) :
    s.Among (ds.roles t) := by
  have hmem (role : Role) (hrole : (Source.shape s).role? = some role) : role ∈ ds.roles t := by
    refine List.mem_append_right _ (List.mem_filterMap.mpr ⟨(members, naming), ?_, ?_⟩)
    · exact List.mem_product.mpr ⟨hmembers, hnaming⟩
    · rw [unionRole?, h]
      exact hrole
  obtain ⟨cases, -, h⟩ := Outcome.bind_eq_ok.mp h
  dsimp only at h
  split at h
  · cases h
  · split at h <;> (cases h; exact hmem)

/-- A type is written in a type or in declarations if all its unions and attached names are. -/
structure Known (ds : Declarations) (t u : TypeExpr) : Prop where
  unions : TypeExpr.gather TypeExpr.members? u ⊆ ds.unions t
  namings : TypeExpr.gather TypeExpr.tags u ⊆ ds.namings t

theorem known_of_mem (h : u ∈ ds.written t) : ds.Known t u where
  unions := fun _ hx => List.mem_flatMap.mpr ⟨u, h, hx⟩
  namings := fun _ hx => List.mem_append_right _ (List.mem_flatMap.mpr ⟨u, h, hx⟩)

theorem Known.inside {v : TypeExpr} (h : ds.Known t u)
    (hsub : ∀ {α : Type} (own : TypeExpr → List α), TypeExpr.gather own v ⊆ TypeExpr.gather own u) :
    ds.Known t v :=
  ⟨List.Subset.trans (hsub _) h.unions, List.Subset.trans (hsub _) h.namings⟩

theorem mem_written {id : String} {decl : Declaration} (hfind : ds.find? id = some decl)
    (hu : u ∈ decl.types) : u ∈ ds.written t :=
  List.mem_cons_of_mem _ (List.mem_flatMap.mpr ⟨(id, decl), Entries.mem_of_get? hfind, hu⟩)

theorem among_of_settled (hsettled : ds.Settled u) (hknown : ds.Known t u)
    (hnaming : naming ∈ ds.namings t) (h : ds.resolve depth u constraints naming = .ok s) :
    s.Among (ds.roles t) := by
  cases u with
  | named id =>
    rw [resolve] at h
    split at h
    · next body hbody => exact absurd hbody (hsettled body)
    · exact among_of_classShape (Outcome.mapError_eq_ok.mp (ok_of_notUnion h))
  | union members =>
    rw [resolve_many hsettled] at h
    split at h
    · cases h
    obtain ⟨inner, hinner, rfl⟩ := Outcome.map_eq_ok.mp (Outcome.mapError_eq_ok.mp h)
    have hmembers : members ∈ ds.unions t := hknown.unions List.mem_cons_self
    exact among_orNothing (among_of_unionShape hmembers hnaming hinner)
  | annotated | list | sequence => cases hsettled
  | variadic items =>
    rw [resolve] at h
    · cases ok_of_notUnion h
    · exact hsettled.items_ne_singleton
  | literal values =>
    rw [resolve] at h
    have hshape := Outcome.mapError_eq_ok.mp (ok_of_notUnion h)
    unfold literalShape at hshape
    split at hshape <;> cases hshape
    exact fun role hrole => by cases hrole
  | atom a =>
    rw [resolve] at h
    have hshape := Outcome.mapError_eq_ok.mp (ok_of_notUnion h)
    unfold atomShape at hshape
    split at hshape <;> cases hshape <;> exact fun role hrole => by cases hrole
  | set | dict | tuple | undefined =>
    rw [resolve] at h
    cases ok_of_notUnion h

/-- The shape of a type that is written somewhere has one of the roles. -/
theorem among_of_resolve (hknown : ds.Known t u) (hnaming : naming ∈ ds.namings t)
    (h : ds.resolve depth u constraints naming = .ok s) : s.Among (ds.roles t) := by
  have hbyCases : UnionNaming.byCases ∈ ds.namings t := List.mem_cons_self
  induction depth, u using ds.resolve_induction generalizing constraints naming s with
  | settled depth u hsettled => exact among_of_settled hsettled hknown hnaming h
  | endless id body hbody =>
    rw [resolve, hbody] at h
    cases h
  | follow depth id body hbody ih =>
    rw [resolve_follow hbody] at h
    exact ih (known_of_mem (mem_written hbody (List.mem_singleton_self body)))
      (orAlias_mem hnaming hbody) h
  | annotated depth u notes ih =>
    rw [resolve] at h
    refine ih (hknown.inside fun own => List.subset_append_right _ _) (orTagged_mem hnaming ?_) h
    exact List.Subset.trans (TypeExpr.own_subset_gather TypeExpr.tags (.annotated u notes)) hknown.namings
  | only depth members m hone ih =>
    rw [resolve_only hone] at h
    obtain ⟨inner, hinner, rfl⟩ := Outcome.map_eq_ok.mp h
    have hmem : m ∈ members := List.mem_of_mem_filter (hone ▸ List.mem_singleton_self m)
    refine among_orNothing (ih (hknown.inside fun own => ?_) hnaming hinner)
    exact List.Subset.trans (TypeExpr.gather_subset_gatherAll hmem) (List.subset_append_right _ _)
  | array depth u item container harray ih =>
    rw [resolve_array harray] at h
    obtain ⟨inner, hinner, h⟩ := Outcome.bind_eq_ok.mp (ok_of_notUnion h)
    have hitem := ih (hknown.inside fun own => TypeExpr.gather_subset_array harray) hbyCases hinner
    unfold arrayShape at h
    split at h <;> cases h
    exact hitem

/-- A field that is laid over others is one of them or one of those below. -/
theorem mem_of_mem_override {inherited own : List FieldDecl} {f : FieldDecl}
    (h : f ∈ override inherited own) : f ∈ inherited ∨ f ∈ own := by
  induction own generalizing inherited with
  | nil => exact .inl h
  | cons g own ih =>
    rcases ih h with hstep | hown
    · dsimp only at hstep
      split at hstep
      · obtain ⟨old, hold, rfl⟩ := List.mem_map.mp hstep
        split
        · exact .inr List.mem_cons_self
        · exact .inl hold
      · rcases List.mem_append.mp hstep with hold | hnew
        · exact .inl hold
        · exact .inr (List.mem_singleton.mp hnew ▸ List.mem_cons_self)
    · exact .inr (List.mem_cons_of_mem _ hown)

theorem exists_record_of_mem_lineage {fuel : Nat} {id : String} {r : RecordDecl}
    (h : r ∈ ds.lineage fuel id) : ∃ id', ds.find? id' = some (.record r) := by
  induction fuel generalizing id with
  | zero => cases h
  | succ fuel ih =>
    rw [lineage] at h
    split at h
    · cases h
    next own hrecord =>
    have hown : ds.find? id = some (.record own) := by
      unfold record? at hrecord
      split at hrecord
      · next hfind => exact Option.some.inj hrecord ▸ hfind
      · cases hrecord
    split at h
    · exact ⟨id, List.mem_singleton.mp h ▸ hown⟩
    · rcases List.mem_append.mp h with h | h
      · exact ih h
      · exact ⟨id, List.mem_singleton.mp h ▸ hown⟩

/-- The types of the fields of a record are written in declarations. -/
theorem type_mem_written {id : String} {f : FieldDecl} (hf : f ∈ ds.fields id) :
    f.type ∈ ds.written t := by
  have hfold (rs : List RecordDecl) (acc : List FieldDecl)
      (h : f ∈ rs.foldl (fun acc r => override acc r.fields) acc) :
      f ∈ acc ∨ ∃ r ∈ rs, f ∈ r.fields := by
    induction rs generalizing acc with
    | nil => exact .inl h
    | cons r rs ih =>
      rcases ih _ h with h | ⟨r', hr', h⟩
      · exact (mem_of_mem_override h).imp_right fun h => ⟨r, List.mem_cons_self, h⟩
      · exact .inr ⟨r', List.mem_cons_of_mem _ hr', h⟩
  rcases hfold _ _ hf with h | ⟨r, hr, h⟩
  · cases h
  · obtain ⟨id', hfind⟩ := exists_record_of_mem_lineage hr
    exact mem_written hfind (List.mem_map_of_mem h)

/-- A shape that is reached from that of a type has one of the roles. -/
theorem among_of_reaches (hshape : ds.shapeOf t = .ok s) {u : Shape} (h : Reaches ds s u) :
    u.Among (ds.roles t) := by
  have hresolve {v : TypeExpr} {w : Shape} (hv : v ∈ ds.written t) (hw : ds.shapeOf v = .ok w) :
      w.Among (ds.roles t) :=
    among_of_resolve (known_of_mem hv) List.mem_cons_self hw
  refine h.of_closed (fun inner h => h) (fun item container constraints h => h) ?_
    (hresolve List.mem_cons_self hshape)
  intro whole id fields f _ _ hfields hf
  obtain ⟨decl, hdecl, -, htravels⟩ := (fielded_of_fieldShapes hfields).exists_decl hf
  exact hresolve (type_mem_written hdecl) htravels.shape

/-- So has the shape's own role. -/
theorem role_mem_of_reaches (hshape : ds.shapeOf t = .ok s) {u : Shape} (h : Reaches ds s u)
    {role : Role} (hrole : (Source.shape u).role? = some role) : role ∈ ds.roles t := by
  have hamong := among_of_reaches hshape h
  cases u with
  | array | optional => cases hrole
  | primitive | literal | record | enum | union => exact hamong role hrole

end Declarations

end StructuredOutput

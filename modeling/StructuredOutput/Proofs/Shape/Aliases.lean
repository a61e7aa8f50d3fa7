import StructuredOutput.Proofs.Shape.Layers

/-!
Aliases of types. An alias inside any layers takes the shape that its body takes in its place, but
for its name that a union may have, unless the layers meet with the body: guides that stand right
around an annotated body come before its refinements at the alias and after them in place, and a
place for nothing around a union that has one is made again at the alias. A description in the body
is not seen at the alias.
-/

namespace StructuredOutput

/-- Two shapes that are both optional or both not. The first is the second, or that with its union
under a name, just if something holds. -/
def SameIff (name : String) (P : Prop) (w w' : Shape) : Prop :=
  w.isOptional = w'.isOptional ∧ (w.UpToName name w' ↔ P)

/-- Two types that take shapes with the same refinements, where these shapes are the same up to a
name just if something holds. -/
def Alike (ds : Declarations) (name : String) (P : Prop) (u v : TypeExpr) : Prop :=
  ∀ constraints, Option.Rel (SameIff name P) (ds.shape? u constraints) (ds.shape? v constraints)

variable {ds : Declarations} {name : String} {P : Prop} {u v u' v' : TypeExpr}
  {layers : List Layer} {layer : Layer}

theorem orTagged_guideNotes (naming : UnionNaming)
    (guides : List (List Constraint × Option String)) :
    naming.orTagged (guideNotes guides) = naming := by
  induction guides with
  | nil => rfl
  | cons guide guides ih => exact ih

theorem guideNotes_append (guides guides' : List (List Constraint × Option String)) :
    guideNotes (guides ++ guides') = guideNotes guides ++ guideNotes guides' := List.map_append

theorem guided_append (notes notes' : List Note) :
    guided (notes ++ notes') = guided notes ++ guided notes' := List.flatMap_append

theorem orTagged_append (naming : UnionNaming) (notes notes' : List Note) :
    naming.orTagged (notes ++ notes') = (naming.orTagged notes).orTagged notes' :=
  List.foldl_append

theorem Declarations.shape?_guideNotes (t : TypeExpr)
    (guides : List (List Constraint × Option String)) (constraints : List Constraint) :
    ds.shape? (.annotated t (guideNotes guides)) constraints =
      ds.shape? t (constraints ++ guided (guideNotes guides)) := by
  rw [shape?_annotated, orTagged_guideNotes, shape?_eq_bind t (constraints ++ _)]
  rfl

namespace Alike

theorem of_upToName (hP : P)
    (h : ∀ constraints, Option.Rel (Shape.UpToName name) (ds.shape? u constraints)
      (ds.shape? v constraints)) : Alike ds name P u v := by
  intro constraints
  exact rel_imp (h constraints) fun w w' hsame =>
    ⟨hsame.isOptional_eq, fun _ => hP, fun _ => hsame⟩

theorem annotated (h : Alike ds name P u v) (guides : List (List Constraint × Option String)) :
    Alike ds name P (.annotated u (guideNotes guides)) (.annotated v (guideNotes guides)) := by
  intro constraints
  rw [Declarations.shape?_guideNotes, Declarations.shape?_guideNotes]
  exact h _

theorem optional (h : Alike ds name P u v) (hu : u.Single) (hv : v.Single) :
    Alike ds name P (.union [u, .atom .none]) (.union [v, .atom .none]) := by
  intro constraints
  rw [Declarations.shape?_optional (TypeExpr.isNone_of_single hu),
    Declarations.shape?_optional (TypeExpr.isNone_of_single hv)]
  exact rel_map (h constraints) fun w w' hsame =>
    ⟨rfl, Shape.UpToName.optional_iff.trans hsame.2⟩

theorem congr {Q : Prop} (h : Alike ds name P u v) (hPQ : P ↔ Q) : Alike ds name Q u v :=
  propext hPQ ▸ h

theorem array (h : Alike ds name P u v) {container : Container}
    (hu : Declarations.arrayOf? u' = some (u, container))
    (hv : Declarations.arrayOf? v' = some (v, container)) : Alike ds name P u' v' := by
  intro constraints
  rw [Declarations.shape?_array hu, Declarations.shape?_array hv]
  refine rel_bind (h []) fun w w' hsame => ?_
  rw [hsame.1]
  split
  · exact .none
  · exact .some ⟨rfl, Shape.UpToName.array_iff.trans hsame.2⟩

end Alike

/-- Two types that stay alike in every layer: nothing that is wrapped around them is merged with one
of them in another way than with the other. -/
inductive Twin (ds : Declarations) (name : String) (P : Prop) : TypeExpr → TypeExpr → Prop
  | bare {u v : TypeExpr} (h : Alike ds name P u v) (hu : u.Bare) (hv : v.Bare) : Twin ds name P u v
  | annotated {u v : TypeExpr} (h : Alike ds name P u v)
      (guides : List (List Constraint × Option String)) :
      Twin ds name P (.annotated u (guideNotes guides)) (.annotated v (guideNotes guides))
  | hasNone {u v : TypeExpr} (h : Alike ds name P u v) (hu : u.Flat ∧ u.HasNone)
      (hv : v.Flat ∧ v.HasNone) : Twin ds name P u v

theorem Twin.alike (h : Twin ds name P u v) : Alike ds name P u v := by
  cases h with
  | bare h | hasNone h => exact h
  | annotated h guides => exact h.annotated guides

/-- Types that are alike stay so in every layer once a layer other than guides is around them. -/
theorem Alike.twin_apply (h : Alike ds name P u v) (hu : u.Single) (hv : v.Single)
    (hlayer : ∀ guides, layer ≠ .annotated guides) (hu' : layer.apply ds u = .ok u')
    (hv' : layer.apply ds v = .ok v') : Twin ds name P u' v' := by
  cases layer with
  | annotated guides => exact absurd rfl (hlayer guides)
  | optional =>
    have halike : Alike ds name P u' v' := by
      rw [TypeExpr.optional_single hu hu', TypeExpr.optional_single hv hv']
      exact h.optional hu hv
    exact .hasNone halike (TypeExpr.flat_optional hu.flat hu') (TypeExpr.flat_optional hv.flat hv')
  | list | sequence | variadic =>
    cases hu'
    cases hv'
    exact .bare (h.array rfl rfl) trivial trivial

theorem Twin.apply (h : Twin ds name P u v) (hu' : layer.apply ds u = .ok u')
    (hv' : layer.apply ds v = .ok v') : Twin ds name P u' v' := by
  -- Guides join those of an annotated type, on both sides the same ones; around any other type they
  -- are attached anew.
  by_cases hlayer : ∃ guides, layer = .annotated guides
  · obtain ⟨guides, rfl⟩ := hlayer
    cases h with
    | bare h hu hv =>
      rw [TypeExpr.annotate_eq_ok hu.ne_annotated hu', TypeExpr.annotate_eq_ok hv.ne_annotated hv']
      exact .annotated h guides
    | annotated h own =>
      cases hu'
      cases hv'
      rw [← guideNotes_append]
      exact .annotated h (own ++ guides)
    | hasNone h hu hv =>
      rw [TypeExpr.annotate_eq_ok hu.2.ne_annotated hu',
        TypeExpr.annotate_eq_ok hv.2.ne_annotated hv']
      exact .annotated h guides
  · have hother (guides : List (List Constraint × Option String)) : layer ≠ .annotated guides :=
      fun heq => hlayer ⟨guides, heq⟩
    cases h with
    | bare h hu hv => exact h.twin_apply hu.single hv.single hother hu' hv'
    | annotated h own => exact (h.annotated own).twin_apply trivial trivial hother hu' hv'
    | hasNone h hu hv =>
      cases layer with
      | annotated guides => exact absurd rfl (hother guides)
      | optional =>
        rw [TypeExpr.optional_of_hasNone hu.1 hu.2 hu', TypeExpr.optional_of_hasNone hv.1 hv.2 hv']
        exact .hasNone h hu hv
      | list | sequence | variadic =>
        cases hu'
        cases hv'
        exact .bare (h.array rfl rfl) trivial trivial

theorem Twin.wrapped (h : Twin ds name P u v) (hu' : wrapped ds layers u = .ok u')
    (hv' : wrapped ds layers v = .ok v') : Twin ds name P u' v' := by
  induction layers generalizing u v with
  | nil =>
    cases hu'
    cases hv'
    exact h
  | cons layer layers ih =>
    obtain ⟨u₁, hu₁, hu'⟩ := wrapped_cons_eq_ok.mp hu'
    obtain ⟨v₁, hv₁, hv'⟩ := wrapped_cons_eq_ok.mp hv'
    exact ih (h.apply hu₁ hv₁) hu' hv'

/-! ### An alias and its body -/

section

variable {id : String} {body : TypeExpr}

theorem seamless_of (hguides : adjacent layers = [] ∨ ∀ inner notes, body ≠ .annotated inner notes)
    (hnone : layers.head? ≠ some .optional ∨ ¬ body.HasNone) : Seamless body layers := by
  cases body with
  | annotated inner notes =>
    have hnil := hguides.resolve_right fun hne => hne inner notes rfl
    rw [Seamless, hnil, List.nil_append, List.append_nil]
  | union members => exact fun hmem => hnone.resolve_right fun hno => hno hmem
  | _ => trivial

theorem alike_named (h : ds.find? id = some (.typeAlias body)) (hP : P) :
    Alike ds id P (.named id) body :=
  .of_upToName hP (Declarations.shape?_named h)

/-- Guides around an alias come before the refinements of its body, and those around the body come
after them. -/
theorem alike_annotated {inner : TypeExpr} {notes : List Note}
    (h : ds.find? id = some (.typeAlias (.annotated inner notes)))
    (guides : List (List Constraint × Option String)) :
    Alike ds id
      (guided (guideNotes guides) ++ guided notes = guided notes ++ guided (guideNotes guides))
      (.annotated (.named id) (guideNotes guides))
      (.annotated inner (notes ++ guideNotes guides)) := by
  intro constraints
  have halias := Declarations.shape?_named h (constraints ++ guided (guideNotes guides))
  rw [Declarations.shape?_annotated] at halias
  rw [Declarations.shape?_guideNotes, Declarations.shape?_annotated, orTagged_append,
    orTagged_guideNotes, guided_append]
  generalize guided (guideNotes guides) = outer at halias ⊢
  generalize guided notes = own at halias ⊢
  have hempty : constraints ++ outer ++ own = [] ↔ constraints ++ (own ++ outer) = [] := by
    simp [and_comm]
  refine rel_comp halias (Shape.rel_bind_refine? id _ hempty) fun w w₀ w' hnamed hdiffer => ?_
  rw [List.append_assoc, List.append_cancel_left_eq] at hdiffer
  refine ⟨hnamed.isOptional_eq.trans hdiffer.isOptional_eq, fun hsame => ?_, fun hsame => ?_⟩
  · exact hdiffer.of_renamed (hnamed.renamed_eq.symm.trans hsame.renamed_eq)
  · exact hdiffer.eq hsame ▸ hnamed

/-- A place for nothing that is made around an alias is made again if its body has one. -/
theorem alike_optional {members : List TypeExpr}
    (h : ds.find? id = some (.typeAlias (.union members))) (hflat : (TypeExpr.union members).Flat)
    (hv' : (TypeExpr.union members).optional ds = .ok v') :
    Alike ds id (.atom .none ∉ members) (.union [.named id, .atom .none]) v' := by
  have hnamed := Declarations.shape?_named h
  by_cases hnone : .atom .none ∈ members
  · rw [TypeExpr.optional_of_hasNone hflat hnone hv']
    intro constraints
    rw [Declarations.shape?_optional rfl]
    have hrel := hnamed constraints
    have hoptional (w : Shape) : ds.shape? (.union members) constraints = some w →
        w.isOptional = true := Declarations.isOptional_of_shape? hnone
    generalize ds.shape? (.union members) constraints = placed at hrel hoptional ⊢
    generalize ds.shape? (.named id) constraints = found at hrel ⊢
    cases hrel with
    | none => exact .none
    | @some w w' hsame =>
      refine .some ⟨(hoptional w' rfl).symm, fun hmore => ?_, fun hno => absurd hnone hno⟩
      -- A shape is not itself with a place for nothing around it, whatever its union is named.
      have hrenamed := hmore.renamed_eq.trans hsame.renamed_eq.symm
      exact absurd (congrArg sizeOf hrenamed) (by simp [Shape.renamed])
  · rw [TypeExpr.optional_union hflat hnone hv']
    refine .of_upToName hnone fun constraints => ?_
    have htwo := hflat.2.2
    rw [Declarations.shape?_optional rfl, Declarations.shape?_append_none hnone (by omega)]
    exact rel_map (hnamed constraints) fun w w' hsame => Shape.UpToName.optional_iff.mpr hsame

/-- Guides that stand right around an alias are collected before they meet with its body. -/
theorem alike_wrapped_annotated {inner : TypeExpr} {notes : List Note}
    (h : ds.find? id = some (.typeAlias (.annotated inner notes)))
    (guides : List (List Constraint × Option String))
    (hu' : wrapped ds layers (.annotated (.named id) (guideNotes guides)) = .ok u')
    (hv' : wrapped ds layers (.annotated inner (notes ++ guideNotes guides)) = .ok v') :
    Alike ds id
      (guided (guideNotes guides) ++ adjacent layers ++ guided notes =
        guided notes ++ (guided (guideNotes guides) ++ adjacent layers)) u' v' := by
  induction layers generalizing guides with
  | nil =>
    cases hu'
    cases hv'
    simpa [adjacent] using alike_annotated h guides
  | cons layer layers ih =>
    obtain ⟨u₁, hu₁, hu₂⟩ := wrapped_cons_eq_ok.mp hu'
    obtain ⟨v₁, hv₁, hv₂⟩ := wrapped_cons_eq_ok.mp hv'
    have halike := alike_annotated h guides
    cases layer with
    | annotated more =>
      cases hu₁
      cases hv₁
      rw [← guideNotes_append] at hu₂
      rw [List.append_assoc, ← guideNotes_append] at hv₂
      have hrest := ih (guides ++ more) hu₂ hv₂
      rw [guideNotes_append, guided_append] at hrest
      simpa [adjacent] using hrest
    | optional | list | sequence | variadic =>
      have htwin := halike.twin_apply trivial trivial (by simp) hu₁ hv₁
      simpa [adjacent] using (htwin.wrapped hu₂ hv₂).alike

theorem alike_optional_none (h : ds.find? id = some (.typeAlias (.atom .none))) :
    Alike ds id P (.union [.named id, .atom .none]) (.atom .none) := by
  intro constraints
  have hnone : ds.shape? (.atom .none) constraints = none := by
    rw [Declarations.shape?, Declarations.resolve]
    rfl
  have hrel := Declarations.shape?_named h constraints
  rw [hnone] at hrel
  rw [Declarations.shape?_optional rfl, hnone]
  generalize ds.shape? (.named id) constraints = found at hrel ⊢
  cases hrel
  exact .none

/-- A layer other than guides, right around an alias and around its body. -/
theorem twin_apply_named (h : ds.find? id = some (.typeAlias body)) (hflat : body.Flat)
    (hlayer : ∀ guides, layer ≠ .annotated guides) (hu' : layer.apply ds (.named id) = .ok u')
    (hv' : layer.apply ds body = .ok v') : Twin ds id (Seamless body (layer :: layers)) u' v' := by
  cases layer with
  | annotated guides => exact absurd rfl (hlayer guides)
  | optional =>
    by_cases hsingle : body.Single
    · have hseamless : Seamless body (.optional :: layers) :=
        seamless_of (.inl rfl) (.inr hsingle.not_hasNone)
      exact (alike_named h hseamless).twin_apply trivial hsingle hlayer hu' hv'
    have hflat' : (TypeExpr.named id).Flat := trivial
    have hu : u' = .union [.named id, .atom .none] := TypeExpr.optional_single trivial hu'
    refine .hasNone ?_ (TypeExpr.flat_optional hflat' hu') (TypeExpr.flat_optional hflat hv')
    rw [hu]
    cases body with
    | union members => exact (alike_optional h hflat hv').congr (by simp [Seamless])
    | atom a =>
      cases a with
      | none =>
        have hv : v' = .atom .none := TypeExpr.optional_of_hasNone hflat trivial hv'
        rw [hv]
        exact alike_optional_none h
      | _ => exact absurd trivial hsingle
    | _ => exact absurd trivial hsingle
  | list | sequence | variadic =>
    cases hu'
    cases hv'
    exact .bare ((alike_named h (seamless_of (.inl rfl) (.inl (by simp)))).array rfl rfl)
      trivial trivial

theorem alike_wrapped (h : ds.find? id = some (.typeAlias body)) (hflat : body.Flat)
    (hu' : wrapped ds layers (.named id) = .ok u') (hv' : wrapped ds layers body = .ok v') :
    Alike ds id (Seamless body layers) u' v' := by
  cases layers with
  | nil =>
    cases hu'
    cases hv'
    exact alike_named h (seamless_of (.inl rfl) (.inl (by simp)))
  | cons layer layers =>
    obtain ⟨u₁, hu₁, hu₂⟩ := wrapped_cons_eq_ok.mp hu'
    obtain ⟨v₁, hv₁, hv₂⟩ := wrapped_cons_eq_ok.mp hv'
    -- The alias and its body are twins from the first layer on, unless it is guides that meet with
    -- those of the body: these are collected up to the next layer of another kind.
    by_cases hlayer : ∃ guides, layer = .annotated guides
    · obtain ⟨guides, rfl⟩ := hlayer
      cases hu₁
      by_cases hbody : ∃ inner notes, body = .annotated inner notes
      · obtain ⟨inner, notes, rfl⟩ := hbody
        cases hv₁
        exact alike_wrapped_annotated h guides hu₂ hv₂
      · have hbare (inner : TypeExpr) (notes : List Note) : body ≠ .annotated inner notes :=
          fun heq => hbody ⟨inner, notes, heq⟩
        have halike : Alike ds id (Seamless body (.annotated guides :: layers)) (.named id) body :=
          alike_named h (seamless_of (.inr hbare) (.inl (by simp)))
        rw [TypeExpr.annotate_eq_ok hbare hv₁] at hv₂
        exact ((Twin.annotated halike guides).wrapped hu₂ hv₂).alike
    · exact ((twin_apply_named h hflat (by simpa using hlayer) hu₁ hv₁).wrapped hu₂ hv₂).alike

end

/-! ### Shapes and fields -/

/-- Two fields that travel alike, with the same shape up to a name just if one thing holds, and with
the same description just if another holds. -/
structure FieldShape.AgreeIff (name : String) (P Q : Prop) (a b : FieldShape) : Prop where
  attr : a.attr = b.attr
  key : a.key = b.key
  optional : a.optional = b.optional
  shape : a.shape.UpToName name b.shape ↔ P
  description : a.description = b.description ↔ Q

namespace Shape

variable {s s' : Shape}

/-- The shape of a field that has a value: what is optional is left out. -/
def given : Shape → Shape
  | optional inner => inner
  | s => s

theorem given_of_not_optional (h : s.isOptional = false) : s.given = s := by
  cases s <;> first | rfl | cases h

theorem given_inj (h : s.isOptional = s'.isOptional) : s.given = s'.given ↔ s = s' := by
  cases hs : s.isOptional with
  | true =>
    cases s <;> cases hs
    cases s' <;> cases h
    simp [given]
  | false => rw [given_of_not_optional hs, given_of_not_optional (h.symm.trans hs)]

theorem upToName_given (h : s.isOptional = s'.isOptional) :
    s.given.UpToName name s'.given ↔ s.UpToName name s' := by
  have hrenamed : s'.given.renamed name = (s'.renamed name).given := by cases s' <;> rfl
  rw [UpToName, UpToName, hrenamed, given_inj h, given_inj (by rw [h, isOptional_renamed])]

end Shape

theorem toOption_fieldShape (ds : Declarations) (record key : String) (f : FieldDecl) :
    (ds.fieldShape record key f).toOption =
      (ds.shapeOf f.type).toOption.map fun s =>
        ⟨f.name, key, s.given, s.isOptional, f.describe⟩ := by
  unfold Declarations.fieldShape
  cases ds.shapeOf f.type with
  | ok s => cases s <;> rfl
  | error fault => cases fault <;> rfl

theorem describe_eq_or (f : FieldDecl) :
    f.describe = f.type.description?.or (f.description.bind Value.asText?) := by
  unfold FieldDecl.describe
  cases f.type.description? <;> cases f.description <;> rfl

section

variable {id : String} {body aliased inPlace : TypeExpr}

/-- The description inside an alias is not seen, and those of the layers are. -/
theorem describe_eq_iff (hflat : body.Flat) (haliased : wrapped ds layers (.named id) = .ok aliased)
    (hplace : wrapped ds layers body = .ok inPlace) (f : FieldDecl) :
    ({ f with type := aliased } : FieldDecl).describe =
        ({ f with type := inPlace } : FieldDecl).describe ↔
      layers.any Layer.hides = true ∨ body.description? = none ∨
        body.description? = f.description.bind Value.asText? := by
  have hflat' : (TypeExpr.named id).Flat := trivial
  have hnamed : aliased.description? = layers.foldl Layer.describe none :=
    description?_wrapped hflat' haliased
  rw [describe_eq_or, describe_eq_or, hnamed, description?_wrapped hflat hplace,
    foldl_describe layers body.description?]
  cases hhides : layers.any Layer.hides with
  | true => simp
  | false =>
    rw [foldl_describe, hhides]
    cases body.description? with
    | none => simp
    | some d => simpa using eq_comm

end

/-! ### An alias of an annotated type and one of an optional type -/

namespace Levels

def atLeastZero : Constraint := .range ⟨some (.whole 0), none, rfl⟩

def atMostNine : Constraint := .range ⟨none, some (.whole 9), rfl⟩

def level : TypeExpr :=
  .annotated (.atom .integer) (guideNotes [([atLeastZero], some "from zero")])

def maybe : TypeExpr := .union [.atom .integer, .atom .none]

def levels : Declarations := ⟨"m", [("Level", .typeAlias level), ("Maybe", .typeAlias maybe)]⟩

def bounded : Layer := .annotated [([atMostNine], none)]

def boundedAlias : TypeExpr :=
  .annotated (.named "Level") (guideNotes [([atMostNine], none)])

def boundedLevel : TypeExpr :=
  .annotated (.atom .integer)
    (guideNotes [([atLeastZero], some "from zero"), ([atMostNine], none)])

def optionalAlias : TypeExpr :=
  .annotated (.union [.named "Level", .atom .none]) (guideNotes [([atMostNine], none)])

def optionalLevel : TypeExpr :=
  .annotated (.union [level, .atom .none]) (guideNotes [([atMostNine], none)])

def field (type : TypeExpr) : FieldDecl := ⟨"x", type, none, none, false, none, true⟩

end Levels

section

variable {id : String} {body aliased inPlace : TypeExpr}

/-- An alias and its body, inside the same layers and as the types of the same field. Both have a
shape or neither has. The shapes are optional alike, and they are the same, but for the name of the
alias that a union may have, just if the layers are seamless around the body. The fields are
described alike just if a layer hides what is inside it, or the body has no description, or the
field has the same itself. -/
theorem same_in_place_iff (h : ds.find? id = some (.typeAlias body)) (hflat : body.Flat)
    (haliased : wrapped ds layers (.named id) = .ok aliased)
    (hplace : wrapped ds layers body = .ok inPlace) (f : FieldDecl) (record key : String) :
    Option.Rel (SameIff id (Seamless body layers))
        (ds.shapeOf aliased).toOption (ds.shapeOf inPlace).toOption ∧
      Option.Rel
        (FieldShape.AgreeIff id (Seamless body layers)
          (layers.any Layer.hides = true ∨ body.description? = none ∨
            body.description? = f.description.bind Value.asText?))
        (ds.fieldShape record key { f with type := aliased }).toOption
        (ds.fieldShape record key { f with type := inPlace }).toOption := by
  have hrel : Option.Rel (SameIff id (Seamless body layers)) (ds.shapeOf aliased).toOption
      (ds.shapeOf inPlace).toOption := alike_wrapped h hflat haliased hplace []
  refine ⟨hrel, ?_⟩
  rw [toOption_fieldShape, toOption_fieldShape]
  refine rel_map hrel fun s s' ⟨hoptional, hshape⟩ => ?_
  exact ⟨rfl, rfl, hoptional, (Shape.upToName_given hoptional).trans hshape,
    describe_eq_iff hflat haliased hplace f⟩

end

open Levels in
/-- A place for nothing keeps guides apart from what it is made around, so that they come before the
refinements inside at the alias and in its place. -/
theorem same_in_place_level :
    levels.find? "Level" = some (.typeAlias level) ∧ level.Flat ∧
      wrapped levels [.optional, bounded] (.named "Level") = .ok optionalAlias ∧
      wrapped levels [.optional, bounded] level = .ok optionalLevel ∧
      Seamless level [.optional, bounded] ∧
      levels.shapeOf optionalAlias =
        .ok (.optional (.primitive .integer [atMostNine, atLeastZero])) ∧
      Option.Rel (SameIff "Level" (Seamless level [.optional, bounded]))
          (levels.shapeOf optionalAlias).toOption (levels.shapeOf optionalLevel).toOption ∧
        Option.Rel
          (FieldShape.AgreeIff "Level" (Seamless level [.optional, bounded])
            ([Layer.optional, bounded].any Layer.hides = true ∨ level.description? = none ∨
              level.description? = none))
          (levels.fieldShape "Form" "x" (field optionalAlias)).toOption
          (levels.fieldShape "Form" "x" (field optionalLevel)).toOption := by
  have hlevel : levels.find? "Level" = some (.typeAlias level) := rfl
  have hflat : level.Flat := trivial
  have haliased : wrapped levels [.optional, bounded] (.named "Level") = .ok optionalAlias := by cbv
  have hplace : wrapped levels [.optional, bounded] level = .ok optionalLevel := by cbv
  exact ⟨hlevel, hflat, haliased, hplace, rfl, by cbv,
    same_in_place_iff hlevel hflat haliased hplace (field level) "Form" "x"⟩

open Levels in
/-- An alias differs from its body in three ways: guides right around it come before the refinements
of the body and not after them, a place for nothing is made twice, and the description is lost. -/
theorem not_same_in_place :
    (wrapped levels [bounded] (.named "Level") = .ok boundedAlias ∧
      wrapped levels [bounded] level = .ok boundedLevel ∧
      levels.shapeOf boundedAlias = .ok (.primitive .integer [atMostNine, atLeastZero]) ∧
      levels.shapeOf boundedLevel = .ok (.primitive .integer [atLeastZero, atMostNine]) ∧
      ¬ Shape.UpToName "Level" (.primitive .integer [atMostNine, atLeastZero])
        (.primitive .integer [atLeastZero, atMostNine])) ∧
    (wrapped levels [.optional] (.named "Maybe") = .ok (.union [.named "Maybe", .atom .none]) ∧
      wrapped levels [.optional] maybe = .ok maybe ∧
      levels.shapeOf (.union [.named "Maybe", .atom .none]) =
        .ok (.optional (.optional (.primitive .integer []))) ∧
      levels.shapeOf maybe = .ok (.optional (.primitive .integer [])) ∧
      ¬ Shape.UpToName "Maybe" (.optional (.optional (.primitive .integer [])))
        (.optional (.primitive .integer []))) ∧
    levels.fieldShape "Form" "x" (field (.named "Level")) =
      .ok ⟨"x", "x", .primitive .integer [atLeastZero], false, none⟩ ∧
    levels.fieldShape "Form" "x" (field level) =
      .ok ⟨"x", "x", .primitive .integer [atLeastZero], false, some "from zero"⟩ := by
  refine ⟨⟨by cbv, by cbv, by cbv, by cbv, ?order⟩, ⟨by cbv, by cbv, by cbv, by cbv, ?twice⟩,
    by cbv, by cbv⟩
  case order =>
    simp [Shape.UpToName, Shape.renamed, atMostNine, atLeastZero]
    decide
  case twice => simp [Shape.UpToName, Shape.renamed]

end StructuredOutput

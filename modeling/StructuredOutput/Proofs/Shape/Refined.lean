import StructuredOutput.Proofs.Shape.AliasChains

/-!
What decides the shape of a type besides the type. Refinements that a type is resolved with go
before those that it has itself, and an alias that is followed on the way gives a name to a union or
nothing.
-/

namespace StructuredOutput

section Rel

/-! ### Options that are related -/

variable {α β γ δ : Type} {R : α → β → Prop} {o : Option α} {o' : Option β}

theorem rel_refl {R : α → α → Prop} (hR : ∀ a, R a a) (o : Option α) : Option.Rel R o o := by
  cases o with
  | none => exact .none
  | some a => exact .some (hR a)

theorem rel_imp {S : α → β → Prop} (h : Option.Rel R o o') (hRS : ∀ a b, R a b → S a b) :
    Option.Rel S o o' := by
  cases h with
  | none => exact .none
  | some hab => exact .some (hRS _ _ hab)

theorem rel_comp {S : β → γ → Prop} {T : α → γ → Prop} {o'' : Option γ} (h : Option.Rel R o o')
    (h' : Option.Rel S o' o'') (hRST : ∀ a b c, R a b → S b c → T a c) : Option.Rel T o o'' := by
  cases h with
  | none =>
    cases h'
    exact .none
  | some hab =>
    cases h' with
    | some hbc => exact .some (hRST _ _ _ hab hbc)

theorem rel_map {S : γ → δ → Prop} {f : α → γ} {g : β → δ} (h : Option.Rel R o o')
    (hstep : ∀ a b, R a b → S (f a) (g b)) : Option.Rel S (o.map f) (o'.map g) := by
  cases h with
  | none => exact .none
  | some hab => exact .some (hstep _ _ hab)

theorem rel_bind {S : γ → δ → Prop} {f : α → Option γ} {g : β → Option δ}
    (h : Option.Rel R o o') (hstep : ∀ a b, R a b → Option.Rel S (f a) (g b)) :
    Option.Rel S (o.bind f) (o'.bind g) := by
  cases h with
  | none => exact .none
  | some hab => exact hstep _ _ hab

end Rel

namespace Shape

/-! ### Refinements and names in a shape -/

/-- The shape with refinements put before its own, if it takes any. -/
def refine? (constraints : List Constraint) : Shape → Option Shape
  | primitive type own => some (primitive type (constraints ++ own))
  | literal values own => some (literal values (constraints ++ own))
  | array item container own => some (array item container (constraints ++ own))
  | optional inner => (inner.refine? constraints).map optional
  | s => if constraints.isEmpty then some s else none

@[simp] theorem refine?_nil (s : Shape) : s.refine? [] = some s := by
  induction s with
  | optional inner ih => rw [refine?, ih, Option.map_some]
  | _ => rfl

@[simp] theorem bind_refine?_nil (o : Option Shape) : o.bind (refine? []) = o := by
  cases o <;> simp

theorem refine?_append (outer inner : List Constraint) (s : Shape) :
    s.refine? (outer ++ inner) = (s.refine? inner).bind (refine? outer) := by
  induction s with
  | optional item ih =>
    rw [refine?, refine?, ih]
    cases item.refine? inner <;> rfl
  | primitive | literal | array => simp [refine?, List.append_assoc]
  | record | enum | union => cases outer <;> cases inner <;> simp [refine?]

theorem isOptional_of_refine? {constraints : List Constraint} {s w : Shape}
    (h : s.refine? constraints = some w) : w.isOptional = s.isOptional := by
  cases s with
  | optional inner =>
    obtain ⟨inner', -, rfl⟩ := Option.map_eq_some_iff.mp h
    rfl
  | primitive | literal | array =>
    cases h
    rfl
  | record | enum | union =>
    simp only [refine?, Option.ite_none_right_eq_some, Option.some.injEq] at h
    rw [← h.2]

/-- The shape with its union, if it has one, under a name. -/
def renamed (name : String) : Shape → Shape
  | array item container constraints => array (item.renamed name) container constraints
  | optional inner => optional (inner.renamed name)
  | union _ description cases => union name description cases
  | s => s

@[simp] theorem renamed_renamed (name : String) (s : Shape) :
    (s.renamed name).renamed name = s.renamed name := by
  induction s with
  | array _ _ _ ih | optional _ ih => simp [renamed, ih]
  | _ => rfl

@[simp] theorem isOptional_renamed (name : String) (s : Shape) :
    (s.renamed name).isOptional = s.isOptional := by
  cases s <;> rfl

/-- A shape is another one, or that with its union under a name. -/
def UpToName (name : String) (s s' : Shape) : Prop := s = s' ∨ s = s'.renamed name

namespace UpToName

variable {name : String} {s s' : Shape}

theorem refl (s : Shape) : UpToName name s s := .inl rfl

theorem renamed_eq (h : UpToName name s s') : s.renamed name = s'.renamed name := by
  obtain rfl | rfl := h
  · rfl
  · exact renamed_renamed name s'

theorem isOptional_eq (h : UpToName name s s') : s.isOptional = s'.isOptional := by
  obtain rfl | rfl := h
  · rfl
  · exact isOptional_renamed name s'

@[simp] theorem optional_iff : UpToName name (optional s) (optional s') ↔ UpToName name s s' := by
  simp [UpToName, renamed]

@[simp] theorem array_iff {container : Container} {constraints : List Constraint} :
    UpToName name (array s container constraints) (array s' container constraints) ↔
      UpToName name s s' := by
  simp [UpToName, renamed]

theorem orNothing (h : UpToName name s s') (hasNone : Bool) :
    UpToName name (Declarations.orNothing hasNone s) (Declarations.orNothing hasNone s') := by
  cases hasNone with
  | true => exact optional_iff.mpr h
  | false => exact h

end UpToName

/-- Two shapes that are both optional or both not, and that are the same just if something holds,
also with their unions under one name. -/
structure DifferUnless (name : String) (P : Prop) (w w' : Shape) : Prop where
  isOptional_eq : w.isOptional = w'.isOptional
  eq : P → w = w'
  of_renamed : w.renamed name = w'.renamed name → P

/-- Refinements that are put before others are told from the shape, unless there are none. -/
theorem rel_refine? {outer outer' : List Constraint} (name : String) (s : Shape)
    (hempty : outer = [] ↔ outer' = []) :
    Option.Rel (DifferUnless name (outer = outer')) (s.refine? outer) (s.refine? outer') := by
  induction s with
  | primitive | literal | array =>
    exact .some ⟨rfl, by rintro rfl; rfl, by simp [renamed]⟩
  | optional inner ih =>
    refine rel_map ih fun w w' h => ⟨rfl, fun heq => congrArg optional (h.eq heq), fun heq => ?_⟩
    exact h.of_renamed (by simpa [renamed] using heq)
  | record | enum | union =>
    simp only [refine?, List.isEmpty_iff]
    by_cases hnil : outer = []
    · rw [if_pos hnil, if_pos (hempty.mp hnil)]
      exact .some ⟨rfl, fun _ => rfl, fun _ => hnil.trans (hempty.mp hnil).symm⟩
    · rw [if_neg hnil, if_neg (mt hempty.mpr hnil)]
      exact .none

theorem rel_bind_refine? {outer outer' : List Constraint} (name : String) (o : Option Shape)
    (hempty : outer = [] ↔ outer' = []) :
    Option.Rel (DifferUnless name (outer = outer')) (o.bind (refine? outer))
      (o.bind (refine? outer')) := by
  cases o with
  | none => exact .none
  | some s => exact rel_refine? name s hempty

end Shape

namespace UnionNaming

/-- Notes name a union, whatever name it had, or leave its name. -/
theorem orTagged_cases (notes : List Note) :
    (∃ name description, ∀ n : UnionNaming, n.orTagged notes = tagged name description) ∨
      ∀ n : UnionNaming, n.orTagged notes = n := by
  induction notes with
  | nil => exact .inr fun _ => rfl
  | cons note notes ih =>
    obtain ⟨name, description, h⟩ | h := ih
    · exact .inl ⟨name, description, fun n => h _⟩
    · cases note with
      | tagged name description => exact .inl ⟨name, description, fun n => h _⟩
      | guide | remark => exact .inr fun n => h n

/-- Whether a union has no name that is attached to its type. -/
def Untagged : UnionNaming → Prop
  | tagged _ _ => False
  | _ => True

theorem Untagged.orAlias {n : UnionNaming} (h : n.Untagged) (name : String) :
    (n.orAlias name).Untagged := by
  cases n <;> trivial

end UnionNaming

namespace Declarations

variable {ds : Declarations} {t : TypeExpr} {depth : Nat} {constraints : List Constraint}
  {naming : UnionNaming} {members : List TypeExpr} {r r' : Except TypeFault Shape}

/-! ### Resolving with refinements -/

theorem toOption_orNothing (hasNone : Bool) :
    (r.map (orNothing hasNone)).toOption = r.toOption.map (orNothing hasNone) := by
  cases r <;> rfl

theorem toOption_union (r : Except DefinitionError Shape) (hasNone : Bool) :
    ((r.map (orNothing hasNone)).mapError TypeFault.definition).toOption =
      (r.mapError TypeFault.definition).toOption.map (orNothing hasNone) := by
  cases r <;> rfl

theorem refine?_orNothing (hasNone : Bool) (o : Option Shape) :
    (o.map (orNothing hasNone)).bind (Shape.refine? constraints) =
      (o.bind (Shape.refine? constraints)).map (orNothing hasNone) := by
  cases o with
  | none => rfl
  | some s =>
    cases hasNone with
    | true => rfl
    | false => cases h : s.refine? constraints <;> simp [orNothing, h]

theorem refine?_notUnion (hr : r'.toOption = r.toOption.bind (Shape.refine? constraints)) :
    (ds.notUnion t naming r').toOption =
      (ds.notUnion t naming r).toOption.bind (Shape.refine? constraints) := by
  cases naming <;> first | exact hr | rfl

theorem toOption_many (h : (present members).length ≠ 1) :
    (ds.resolve depth (.union members) [] naming).toOption =
      ((ds.unionShape (present members) naming).mapError TypeFault.definition).toOption.map
        (orNothing ((present members).length < members.length)) := by
  rw [resolve_many h]
  exact toOption_union _ _

theorem refine?_unionShape (hne : constraints ≠ []) :
    ((ds.unionShape members naming).mapError TypeFault.definition).toOption.bind
      (Shape.refine? constraints) = none := by
  have hempty : constraints.isEmpty = false := by simpa using hne
  unfold unionShape
  cases members.mapM ds.unionCase with
  | error => rfl
  | ok cases =>
    simp only [bind, Except.bind]
    split
    · rfl
    · cases naming <;> simp [Except.mapError, Except.toOption, Shape.refine?, hempty]

theorem refine?_classShape (id : String) :
    ((ds.classShape id constraints).mapError TypeFault.definition).toOption =
      ((ds.classShape id []).mapError TypeFault.definition).toOption.bind
        (Shape.refine? constraints) := by
  cases constraints with
  | nil => simp
  | cons first rest =>
    unfold classShape
    split
    · next e _ =>
      by_cases hempty : (e.wires.map (·.1)).isEmpty <;>
        by_cases hdistinct : (Entries.distinct (e.wires.map (·.1))).length = e.wires.length <;>
        simp [hempty, hdistinct, Except.mapError, Except.toOption, Shape.refine?]
    · rfl
    · rfl

theorem refine?_arrayShape (written : String) (item : Except TypeFault Shape)
    (container : Container) :
    (item >>= fun inner => arrayShape written inner container constraints).toOption =
      (item >>= fun inner => arrayShape written inner container []).toOption.bind
        (Shape.refine? constraints) := by
  cases item with
  | error => rfl
  | ok inner =>
    cases inner <;> simp [bind, Except.bind, arrayShape, Except.toOption, Shape.refine?]

theorem refine?_literalShape (written : String) (values : List Value) :
    ((literalShape written values constraints).mapError TypeFault.definition).toOption =
      ((literalShape written values []).mapError TypeFault.definition).toOption.bind
        (Shape.refine? constraints) := by
  unfold literalShape
  split <;> simp [Except.mapError, Except.toOption, Shape.refine?]

theorem refine?_atomShape (a : Atom) :
    ((atomShape a constraints).mapError TypeFault.definition).toOption =
      ((atomShape a []).mapError TypeFault.definition).toOption.bind
        (Shape.refine? constraints) := by
  cases a <;> simp [atomShape, Except.mapError, Except.toOption, Shape.refine?]

theorem refine?_settled (hsettled : ds.Settled t) :
    (ds.resolve depth t constraints naming).toOption =
      (ds.resolve depth t [] naming).toOption.bind (Shape.refine? constraints) := by
  cases t with
  | named id =>
    rw [resolve, resolve]
    split
    · next body hbody => exact absurd hbody (hsettled body)
    · exact refine?_notUnion (refine?_classShape id)
  | union members =>
    rw [toOption_many hsettled, refine?_orNothing]
    cases constraints with
    | nil => rw [toOption_many hsettled, Shape.bind_refine?_nil]
    | cons first rest =>
      rw [resolve_many hsettled, refine?_unionShape (List.cons_ne_nil first rest)]
      rfl
  | annotated | list | sequence => cases hsettled
  | literal values =>
    rw [resolve, resolve]
    exact refine?_notUnion (refine?_literalShape _ _)
  | atom a =>
    rw [resolve, resolve]
    exact refine?_notUnion (refine?_atomShape a)
  | variadic items =>
    have hmany := hsettled.items_ne_singleton
    rw [resolve, resolve] <;> first | exact hmany | exact refine?_notUnion rfl
  | tuple | set | dict | undefined =>
    rw [resolve, resolve]
    exact refine?_notUnion rfl

/-- Refinements that a type is resolved with go before those that it has itself. -/
theorem refine?_resolve :
    (ds.resolve depth t constraints naming).toOption =
      (ds.resolve depth t [] naming).toOption.bind (Shape.refine? constraints) := by
  induction depth, t using ds.resolve_induction generalizing constraints naming with
  | settled depth t hsettled => exact refine?_settled hsettled
  | endless id body hbody =>
    rw [resolve, resolve, hbody]
    rfl
  | follow depth id body hbody ih =>
    rw [resolve_follow hbody, resolve_follow hbody]
    exact ih
  | annotated depth t notes ih =>
    rw [resolve, resolve, ih, List.nil_append, @ih (guided notes), Option.bind_assoc]
    simp only [← Shape.refine?_append]
  | only depth members m hone ih =>
    rw [resolve_only hone, resolve_only hone, toOption_orNothing, toOption_orNothing, ih,
      refine?_orNothing]
  | array depth t item container harray _ =>
    rw [resolve_array harray, resolve_array harray]
    exact refine?_notUnion (refine?_arrayShape _ _ _)

/-! ### Resolving under the name of an alias -/

theorem notUnion_of_untagged (h : naming.Untagged) : ds.notUnion t naming r = r := by
  cases naming with
  | tagged name description => cases h
  | _ => rfl

theorem upToName_unionShape {name : String} (h : naming.Untagged) :
    Option.Rel (Shape.UpToName name)
      ((ds.unionShape members (.byAlias name)).mapError TypeFault.definition).toOption
      ((ds.unionShape members naming).mapError TypeFault.definition).toOption := by
  unfold unionShape
  cases members.mapM ds.unionCase with
  | error => exact .none
  | ok cases =>
    simp only [bind, Except.bind]
    split
    · exact .none
    · cases naming with
      | tagged name description => cases h
      | _ => exact .some (.inr rfl)

theorem upToName_settled {name : String} (hsettled : ds.Settled t) (h : naming.Untagged) :
    Option.Rel (Shape.UpToName name) (ds.resolve depth t constraints (.byAlias name)).toOption
      (ds.resolve depth t constraints naming).toOption := by
  have hname : (UnionNaming.byAlias name).Untagged := trivial
  cases t with
  | named id =>
    rw [resolve, resolve]
    split
    · next body hbody => exact absurd hbody (hsettled body)
    · rw [notUnion_of_untagged hname, notUnion_of_untagged h]
      exact rel_refl .refl _
  | union members =>
    rw [resolve_many hsettled, resolve_many hsettled]
    split
    · exact .none
    · rw [toOption_union, toOption_union]
      exact rel_map (upToName_unionShape h) fun s s' hs => hs.orNothing _
  | annotated | list | sequence => cases hsettled
  | variadic items =>
    have hmany := hsettled.items_ne_singleton
    rw [resolve, resolve] <;> first | exact hmany | skip
    rw [notUnion_of_untagged hname, notUnion_of_untagged h]
    exact rel_refl .refl _
  | literal | atom | tuple | set | dict | undefined =>
    rw [resolve, resolve, notUnion_of_untagged hname, notUnion_of_untagged h]
    exact rel_refl .refl _

/-- An alias that is followed gives its name to a union, or changes nothing. -/
theorem upToName_resolve {name : String} (h : naming.Untagged) :
    Option.Rel (Shape.UpToName name) (ds.resolve depth t constraints (.byAlias name)).toOption
      (ds.resolve depth t constraints naming).toOption := by
  have hname : (UnionNaming.byAlias name).Untagged := trivial
  induction depth, t using ds.resolve_induction generalizing constraints naming with
  | settled depth t hsettled => exact upToName_settled hsettled h
  | endless id body hbody =>
    rw [resolve, resolve, hbody]
    exact .none
  | follow depth id body hbody ih =>
    rw [resolve_follow hbody, resolve_follow hbody]
    exact ih (h.orAlias id)
  | annotated depth t notes ih =>
    rw [resolve, resolve]
    obtain ⟨tag, description, htag⟩ | hsame := UnionNaming.orTagged_cases notes
    · rw [htag, htag]
      exact rel_refl .refl _
    · rw [hsame, hsame]
      exact ih h
  | only depth members m hone ih =>
    rw [resolve_only hone, resolve_only hone, toOption_orNothing, toOption_orNothing]
    exact rel_map (ih h) fun s s' hs => hs.orNothing _
  | array depth t item container harray _ =>
    rw [resolve_array harray, resolve_array harray, notUnion_of_untagged hname,
      notUnion_of_untagged h]
    exact rel_refl .refl _

theorem toOption_of_bound {depth' : Nat} (hdepth : ds.entries.length ≤ depth)
    (hdepth' : ds.entries.length ≤ depth') :
    (ds.resolve depth t constraints naming).toOption =
      (ds.resolve depth' t constraints naming).toOption := by
  cases h : ds.resolve depth t constraints naming with
  | ok s => rw [resolve_of_bound hdepth hdepth' h]
  | error fault =>
    cases h' : ds.resolve depth' t constraints naming with
    | ok s => cases h.symm.trans (resolve_of_bound hdepth' hdepth h')
    | error fault' => rfl

/-! ### The shape that a type takes -/

/-- The shape that a type takes with refinements. -/
def shape? (ds : Declarations) (t : TypeExpr) (constraints : List Constraint) : Option Shape :=
  (ds.resolve (ds.entries.length + 1) t constraints .byCases).toOption

theorem shape?_eq_bind (t : TypeExpr) (constraints : List Constraint) :
    ds.shape? t constraints = (ds.shape? t []).bind (Shape.refine? constraints) :=
  refine?_resolve

/-- An alias takes the shape of its body, and may give its name to a union. -/
theorem shape?_named {id : String} {body : TypeExpr}
    (h : ds.find? id = some (.typeAlias body)) (constraints : List Constraint) :
    Option.Rel (Shape.UpToName id) (ds.shape? (.named id) constraints)
      (ds.shape? body constraints) := by
  have hbody : ds.shape? body constraints =
      (ds.resolve ds.entries.length body constraints .byCases).toOption :=
    toOption_of_bound (Nat.le_succ _) (Nat.le_refl _)
  rw [hbody, shape?, resolve_follow h]
  exact upToName_resolve trivial

theorem shape?_annotated (t : TypeExpr) (notes : List Note) (constraints : List Constraint) :
    ds.shape? (.annotated t notes) constraints =
      (ds.resolve (ds.entries.length + 1) t [] (UnionNaming.byCases.orTagged notes)).toOption.bind
        (Shape.refine? (constraints ++ guided notes)) := by
  rw [shape?, resolve]
  exact refine?_resolve

theorem shape?_optional (ht : isNone t = false) (constraints : List Constraint) :
    ds.shape? (.union [t, .atom .none]) constraints =
      (ds.shape? t constraints).map .optional := by
  have hpresent : present [t, .atom .none] = [t] := by
    rw [present, List.filter_cons_of_pos (by simp [ht])]
    rfl
  rw [shape?, resolve_only hpresent, toOption_orNothing]
  rfl

theorem shape?_array {item : TypeExpr} {container : Container}
    (h : arrayOf? t = some (item, container)) (constraints : List Constraint) :
    ds.shape? t constraints = (ds.shape? item []).bind fun inner =>
      if inner.isOptional then none else some (.array inner container constraints) := by
  rw [shape?, shape?, resolve_array h]
  cases ds.resolve (ds.entries.length + 1) item [] .byCases with
  | error fault => rfl
  | ok inner => cases inner <;> rfl

/-- A union that has a place for nothing takes an optional shape. -/
theorem isOptional_of_shape? {w : Shape} (hnone : .atom .none ∈ members)
    (h : ds.shape? (.union members) constraints = some w) : w.isOptional = true := by
  have hfewer : (present members).length < members.length :=
    List.length_filter_lt_length_iff_exists.mpr ⟨_, hnone, by simp [isNone]⟩
  have hoptional (o : Option Shape) (s : Shape) (hs : o.map (orNothing true) = some s) :
      s.isOptional = true := by
    obtain ⟨inner, -, rfl⟩ := Option.map_eq_some_iff.mp hs
    rfl
  rw [shape?_eq_bind] at h
  obtain ⟨s, hs, hrefined⟩ := Option.bind_eq_some_iff.mp h
  rw [Shape.isOptional_of_refine? hrefined]
  by_cases hone : (present members).length = 1
  · obtain ⟨m, hm⟩ := List.length_eq_one_iff.mp hone
    rw [shape?, resolve_only hm, toOption_orNothing, ← hone, decide_eq_true hfewer] at hs
    exact hoptional _ s hs
  · rw [shape?, toOption_many hone, decide_eq_true hfewer] at hs
    exact hoptional _ s hs

theorem present_eq_self (hnone : .atom .none ∉ members) : present members = members := by
  refine List.filter_eq_self.mpr fun m hm => ?_
  cases m with
  | atom a => cases a <;> first | rfl | exact absurd hm hnone
  | _ => rfl

/-- A place for nothing that is made in a union of several types makes its shape optional. -/
theorem shape?_append_none (hnone : .atom .none ∉ members) (hmany : members.length ≠ 1)
    (constraints : List Constraint) :
    ds.shape? (.union (members ++ [.atom .none])) constraints =
      (ds.shape? (.union members) constraints).map .optional := by
  have hself := present_eq_self hnone
  have happend : present (members ++ [.atom .none]) = members := by
    rw [present, List.filter_append, ← present, hself]
    exact List.append_nil members
  rw [shape?_eq_bind, shape?_eq_bind (.union members), shape?, shape?,
    toOption_many (by rwa [happend]), toOption_many (by rwa [hself]), happend, hself,
    decide_eq_true (by simp), decide_eq_false (by simp), refine?_orNothing, refine?_orNothing]
  exact congrArg _ (congrFun Option.map_id _).symm

end Declarations

end StructuredOutput

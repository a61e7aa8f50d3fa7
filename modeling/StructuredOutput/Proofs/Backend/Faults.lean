import StructuredOutput.Backend.Projection
import StructuredOutput.Proofs.Document.Members

/-!
What can go wrong when a schema is written for a backend: once its named schemas have been
collected, no schema is refused because two of its parts share a name.
-/

namespace StructuredOutput

/-- Whether a schema is refused because two of its parts share a name. -/
def ProjectionFault.isClash : ProjectionFault → Bool
  | .sharedName _ => true
  | _ => false

variable {fault : ProjectionFault}

namespace Document

variable {st : Style}

theorem isClash_reference {s : Schema} {r : Except ProjectionFault Members}
    (hr : st.reference? s = some r) (h : r = .error fault) : fault.isClash = false := by
  subst h
  have hnamed (name : String) : Style.reference?.named st name ≠ some (.error fault) := by
    unfold Style.reference?.named
    split <;> simp
  cases s with
  | object name | union name => exact absurd hr (hnamed name)
  | ref name =>
    simp only [Style.reference?, Option.some.injEq] at hr
    split at hr <;> cases hr
    rfl
  | _ => cases hr

mutual

theorem isClash_body (s : Schema) (h : body st s = .error fault) : fault.isClash = false := by
  match s with
  | .string _ | .integer _ | .number _ | .boolean => cases h
  | .array item counts =>
    rw [body_array_eq] at h
    rcases Outcome.bind_eq_error.mp h with h | ⟨r, -, h⟩
    · exact isClash_emit item h
    · cases h
  | .object name description properties =>
    rw [body, Outcome.map_eq_error] at h
    exact isClash_bodies properties h
  | .union name description alternatives =>
    rw [body] at h
    split at h
    · cases h
      rfl
    · rcases Outcome.bind_eq_error.mp h with h | ⟨r, -, h⟩
      · exact isClash_choices alternatives h
      · cases h
  | .ref name =>
    rw [body] at h
    split at h <;> cases h
    rfl
termination_by (sizeOf s, 0)

theorem isClash_emit (s : Schema) (h : emit st s = .error fault) : fault.isClash = false := by
  unfold emit at h
  split at h
  · next r hr => exact isClash_reference hr h
  · exact isClash_body s h
termination_by (sizeOf s, 1)

theorem isClash_bodies (properties : List (Property Schema))
    (h : bodies st properties = .error fault) : fault.isClash = false := by
  match properties with
  | [] => cases h
  | ⟨key, s, description, optional⟩ :: properties =>
    rw [bodies_cons] at h
    rcases Outcome.bind_eq_error.mp h with h | ⟨r, -, h⟩
    · exact isClash_emit s h
    rcases Outcome.bind_eq_error.mp h with h | ⟨rest, -, h⟩
    · exact isClash_bodies properties h
    · cases h
termination_by (sizeOf properties, 0)

theorem isClash_choices (alternatives : List Schema)
    (h : choices st alternatives = .error fault) : fault.isClash = false := by
  match alternatives with
  | [] => cases h
  | s :: alternatives =>
    rw [choices_cons] at h
    rcases Outcome.bind_eq_error.mp h with h | ⟨r, -, h⟩
    · exact isClash_emit s h
    rcases Outcome.bind_eq_error.mp h with h | ⟨rest, -, h⟩
    · exact isClash_choices alternatives h
    · cases h
termination_by (sizeOf alternatives, 0)

end

theorem isClash_definitions {named : NamedSchemas} {names : List String}
    (h : definitions st named names = .error fault) : fault.isClash = false := by
  induction names with
  | nil => cases h
  | cons name names ih =>
    rw [definitions] at h
    split at h
    · cases h
      rfl
    rcases Outcome.bind_eq_error.mp h with h | ⟨r, -, h⟩
    · exact isClash_body _ h
    rcases Outcome.bind_eq_error.mp h with h | ⟨rest, -, h⟩
    · exact ih h
    · cases h

theorem isClash_render {root : Schema} {backend : Backend} {named : NamedSchemas}
    {settings : ProjectionSettings} (h : render root backend named settings = .error fault) :
    fault.isClash = false := by
  unfold render at h
  dsimp only at h
  split_ifs at h
  · cases h
    rfl
  · rcases Outcome.bind_eq_error.mp h with h | ⟨members, -, h⟩
    · exact isClash_body _ h
    · cases h
  · rcases Outcome.bind_eq_error.mp h with h | ⟨members, -, h⟩
    · exact isClash_body _ h
    rcases Outcome.bind_eq_error.mp h with h | ⟨defs, -, h⟩
    · exact isClash_definitions h
    · cases h

end Document

namespace Grammar

variable {α β : Type}

/-- A step in making a grammar never fails because of a name. -/
def Clashless (m : Build α) : Prop :=
  ∀ b fault, m.run b = .error fault → fault.isClash = false

namespace Clashless

theorem pure (a : α) : Clashless (Pure.pure a : Build α) := fun _ _ h => by cases h

theorem throw (h : fault.isClash = false) : Clashless (MonadExcept.throw fault : Build α) := by
  intro b f hrun
  cases hrun
  exact h

theorem lift {r : Except ProjectionFault α}
    (h : ∀ fault, r = .error fault → fault.isClash = false) : Clashless (liftM r : Build α) := by
  intro b f hrun
  cases r with
  | error fault =>
    cases hrun
    exact h f rfl
  | ok a => cases hrun

theorem get : Clashless (MonadState.get : Build Builder) := fun _ _ h => by cases h

theorem set (b : Builder) : Clashless (MonadStateOf.set b : Build PUnit) := fun _ _ h => by cases h

theorem modify (f : Builder → Builder) : Clashless (modify f : Build PUnit) :=
  fun _ _ h => by cases h

theorem bind {m : Build α} {f : α → Build β} (hm : Clashless m) (hf : ∀ a, Clashless (f a)) :
    Clashless (m >>= f) := by
  intro b fault h
  rw [StateT.run_bind] at h
  rcases Outcome.bind_eq_error.mp h with h | ⟨⟨a, b'⟩, -, h⟩
  · exact hm b fault h
  · exact hf a b' fault h

end Clashless

theorem isClash_addRules {rules : List TextRule} {bounds : TextBounds}
    (h : rules.foldlM TextBounds.add bounds = .error fault) : fault.isClash = false := by
  induction rules generalizing bounds with
  | nil => cases h
  | cons rule rules ih =>
    rw [List.foldlM_cons] at h
    rcases Outcome.bind_eq_error.mp h with h | ⟨next, -, h⟩
    · cases rule <;> cases h
      rfl
    · exact ih h

theorem isClash_textExpr {rules : List TextRule} (h : textExpr rules = .error fault) :
    fault.isClash = false := by
  rcases Outcome.bind_eq_error.mp h with h | ⟨bounds, -, h⟩
  · exact isClash_addRules h
  repeat' split at h
  all_goals cases h
  rfl

theorem isClash_arrayExpr {item : Expr} {counts : List Span}
    (h : arrayExpr item counts = .error fault) : fault.isClash = false := by
  unfold arrayExpr at h
  dsimp only at h
  repeat' split at h
  all_goals cases h
  rfl

theorem clashless_ruleName (name : String) : Clashless (ruleName name) := by
  refine .bind .get fun b => ?_
  split
  · exact .pure _
  · exact .bind (.set _) fun _ => .pure _

theorem clashless_namedRule (name : String) {body : Build Expr} (h : Clashless body) :
    Clashless (namedRule name body) := by
  refine .bind (clashless_ruleName name) fun rule => .bind .get fun b => ?_
  split
  · exact .pure _
  · exact .bind (.set _) fun _ => .bind h fun e => .bind (.modify _) fun _ => .pure _

variable {follow : String → Build Expr}

mutual

theorem clashless_expr (hfollow : ∀ name, Clashless (follow name)) (s : Schema) :
    Clashless (expr follow s) := by
  match s with
  | .string rules => exact .lift fun fault h => isClash_textExpr h
  | .integer ranges =>
    rw [expr]
    split
    · exact .pure _
    · exact .throw rfl
  | .number ranges =>
    rw [expr]
    split
    · exact .pure _
    · exact .throw rfl
  | .boolean => exact .pure _
  | .array item counts =>
    exact .bind (clashless_expr hfollow item) fun e => .lift fun fault h => isClash_arrayExpr h
  | .object name description properties =>
    exact clashless_namedRule name (.bind (clashless_members hfollow properties) fun _ => .pure _)
  | .union name description alternatives =>
    refine clashless_namedRule name ?_
    split
    · exact .throw rfl
    · exact .bind (clashless_exprs hfollow alternatives) fun _ => .pure _
  | .ref name => exact hfollow name
termination_by sizeOf s

theorem clashless_members (hfollow : ∀ name, Clashless (follow name))
    (properties : List (Property Schema)) : Clashless (members follow properties) := by
  match properties with
  | [] => exact .pure _
  | ⟨key, s, description, optional⟩ :: properties =>
    exact .bind (clashless_expr hfollow s) fun _ =>
      .bind (clashless_members hfollow properties) fun _ => .pure _
termination_by sizeOf properties

theorem clashless_exprs (hfollow : ∀ name, Clashless (follow name)) (alternatives : List Schema) :
    Clashless (exprs follow alternatives) := by
  match alternatives with
  | [] => exact .pure _
  | s :: alternatives =>
    exact .bind (clashless_expr hfollow s) fun _ =>
      .bind (clashless_exprs hfollow alternatives) fun _ => .pure _
termination_by sizeOf alternatives

end

theorem clashless_follow (g : SchemaGraph) (named : NamedSchemas) (fuel : Nat) (name : String) :
    Clashless (Grammar.follow g named fuel name) := by
  induction fuel generalizing name with
  | zero => exact .throw rfl
  | succ fuel ih =>
    rw [Grammar.follow]
    split
    · exact clashless_expr ih _
    · exact .throw rfl

theorem isClash_rulesOf {g : SchemaGraph} {named : NamedSchemas}
    (h : rulesOf g named = .error fault) : fault.isClash = false := by
  rcases Outcome.bind_eq_error.mp h with h | ⟨r, -, h⟩
  · exact clashless_expr (clashless_follow g named _) g.root _ fault h
  · cases h

end Grammar

/-- A schema whose named schemas can be collected is refused by no backend because of a name. -/
theorem SchemaGraph.isClash_project {g : SchemaGraph} {named : NamedSchemas}
    (hnamed : NamedSchemas.collect g = .ok named) {backend : Backend}
    {settings : ProjectionSettings} (h : g.project backend settings = .error fault) :
    fault.isClash = false := by
  unfold project at h
  rw [hnamed] at h
  rcases Outcome.bind_eq_error.mp h with h | ⟨n, hn, h⟩
  · cases h
  dsimp only at h
  split_ifs at h
  · rcases Outcome.bind_eq_error.mp h with h | ⟨projected, -, h⟩
    · exact Grammar.isClash_rulesOf (Outcome.map_eq_error.mp h)
    · cases h
  · rcases Outcome.bind_eq_error.mp h with h | ⟨projected, -, h⟩
    · exact Document.isClash_render (Outcome.map_eq_error.mp h)
    · cases h

end StructuredOutput

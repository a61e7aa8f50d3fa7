import StructuredOutput.Proofs.Backend.Clashes
import StructuredOutput.Proofs.Grammar.Rules

/-!
Every node of a schema is rendered in the rules of the schema, or an equal node is: the rule of a
name is made from one of the nodes that define the name.
-/

namespace StructuredOutput.Grammar

variable {g : SchemaGraph} {named : NamedSchemas} {names : RuleNames} {rules : List Rule}
  {s part : Schema} {body : Expr}

/-- A node has an expression, and what defines a name is rendered by the body of a rule. -/
structure Rendered (names : RuleNames) (rules : List Rule) (s : Schema) : Prop where
  expr : ∃ e, Renders names s e
  body : s.defines = true → ∃ r ∈ rules, RendersBody names s r.body

theorem RendersBody.of_part (h : RendersBody names s body) (hpart : part ∈ s.parts) :
    ∃ e, Renders names part e := by
  cases h with
  | object each name description =>
    obtain ⟨p, hp, rfl⟩ := List.mem_map.mp hpart
    obtain ⟨-, -, e, he, -⟩ := Outcome.exists_mem_right each hp
    exact ⟨e, he⟩
  | union each some name description =>
    obtain ⟨e, -, he⟩ := Outcome.exists_mem_right each hpart
    exact ⟨e, he⟩

theorem rendered_of_plain {e : Expr} (h : Renders names s e) (hs : s.defines = false) :
    Rendered names rules s :=
  ⟨⟨e, h⟩, fun hdefines => absurd (hs.symm.trans hdefines) Bool.false_ne_true⟩

/-- What has an expression is rendered, as an equal node whose parts have expressions. -/
theorem RulesFor.step (hg : g.Anchored) (hnamed : NamedSchemas.collect g = .ok named)
    (h : RulesFor g names rules) (hs : s.Within g.root) (hseen : ∃ e, Renders names s e) :
    ∃ t, t.Within g.root ∧ t.same s = true ∧ Rendered names rules t ∧
      ∀ part ∈ t.parts, ∃ e, Renders names part e := by
  obtain ⟨e, he⟩ := hseen
  have hscalar (hplain : s.defines = false) (hparts : s.parts = []) :
      ∃ t, t.Within g.root ∧ t.same s = true ∧ Rendered names rules t ∧
        ∀ part ∈ t.parts, ∃ e, Renders names part e :=
    ⟨s, hs, s.same_refl, rendered_of_plain he hplain, by simp [hparts]⟩
  cases he with
  | string | integer | number | boolean => exact hscalar rfl rfl
  | @array item counts inner _ items array =>
    refine ⟨_, hs, Schema.same_refl _, rendered_of_plain (.array items array) rfl, ?_⟩
    exact fun part hpart => ⟨inner, List.mem_singleton.mp hpart ▸ items⟩
  | @named _ name rule hname ruled =>
    cases hdefines : s.defines with
    | false =>
      cases s with
      | ref name => exact hscalar rfl rfl
      | object | union => cases hdefines
      | _ => cases hname
    | true =>
      obtain ⟨node, body, hmem, hwithin, hnode, hbody⟩ := h.named name rule ruled
      refine ⟨node, hwithin, ?_, ⟨⟨_, .named hnode ruled⟩, fun _ => ⟨_, hmem, hbody⟩⟩,
        fun part => hbody.of_part⟩
      exact NamedSchemas.same_of_collect hg hnamed hwithin hs hbody.defines hdefines hnode hname

/-- Every node of a schema equals one that is rendered. -/
theorem RulesFor.exists_rendered (hg : g.Anchored) (hnamed : NamedSchemas.collect g = .ok named)
    (h : RulesFor g names rules) (hs : s.Within g.root) :
    ∃ t, t.Within g.root ∧ t.same s = true ∧ Rendered names rules t := by
  obtain ⟨start, -, hstart⟩ := h.root
  have hroot : ∃ e, Renders names g.root e := ⟨start, hstart⟩
  exact Schema.exists_same_of_walk hroot (fun s hs => h.step hg hnamed hs) hs

/-- There is a rule for every name in a schema. -/
theorem RulesFor.exists_rule (hg : g.Anchored) (hnamed : NamedSchemas.collect g = .ok named)
    (h : RulesFor g names rules) (hs : s.Within g.root) {name : String}
    (hname : s.name? = some name) : ∃ rule, Entries.get? names name = some rule := by
  obtain ⟨t, -, hsame, ⟨e, he⟩, -⟩ := h.exists_rendered hg hnamed hs
  have htname : t.name? = some name := (Schema.same_iff.mp hsame).name?_eq.trans hname
  cases he with
  | @named _ _ rule hnamed ruled =>
    cases hnamed.symm.trans htname
    exact ⟨rule, ruled⟩
  | _ => cases htname

end StructuredOutput.Grammar

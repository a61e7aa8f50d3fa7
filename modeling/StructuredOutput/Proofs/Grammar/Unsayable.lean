import StructuredOutput.Proofs.Grammar.Forms
import StructuredOutput.Proofs.Grammar.Rendered

/-!
When no grammar can be made of a schema: when a node in it says what no grammar can state, or is a
union without alternatives. Rules that are begun one inside another are as many as the names in the
schema at most, so that references are always followed far enough.
-/

namespace StructuredOutput

/-- A node says what no grammar can state, and the fault tells what: a pattern, a range, or last
bounds that cross. -/
inductive Schema.Unsayable : Schema → ProjectionFault → Prop
  | pattern {rules : List TextRule} {regex : String} (stated : .pattern regex ∈ rules) :
      Unsayable (.string rules) (.pattern regex)
  | length {rules : List TextRule} {lower upper : Nat}
      (free : ∀ rule ∈ rules, rule.isChoice = false)
      (lowest : Span.lastLower (rules.filterMap TextRule.span?) = some lower)
      (highest : Span.lastUpper (rules.filterMap TextRule.span?) = some upper)
      (crossed : upper < lower) : Unsayable (.string rules) (.reversedLength lower upper)
  | integer {ranges : List Range} (some : ranges ≠ []) : Unsayable (.integer ranges) .numericRange
  | number {ranges : List Range} (some : ranges ≠ []) : Unsayable (.number ranges) .numericRange
  | count {item : Schema} {counts : List Span} {lower upper : Nat}
      (lowest : Span.lastLower counts = some lower) (highest : Span.lastUpper counts = some upper)
      (crossed : upper < lower) : Unsayable (.array item counts) (.reversedCount lower upper)

/-- What equals a node that no grammar can state can be stated by none either. -/
theorem Schema.Unsayable.of_same {s t : Schema} {fault : ProjectionFault} (h : s.Unsayable fault)
    (hsame : t.same s = true) : t.Unsayable fault := by
  have hmatches := Schema.same_iff.mp hsame
  cases h with
  | pattern stated =>
    cases hmatches
    exact .pattern stated
  | length free lowest highest crossed =>
    cases hmatches
    exact .length free lowest highest crossed
  | integer some =>
    cases hmatches with
    | integer alike =>
      refine .integer fun hnil => some ?_
      exact List.length_eq_zero_iff.mp (hnil ▸ alike.length_eq).symm
  | number some =>
    cases hmatches with
    | number alike =>
      refine .number fun hnil => some ?_
      exact List.length_eq_zero_iff.mp (hnil ▸ alike.length_eq).symm
  | count lowest highest crossed =>
    cases hmatches
    exact .count lowest highest crossed

namespace Grammar

variable {α β : Type} {g : SchemaGraph} {named : NamedSchemas} {names : RuleNames}
  {fault : ProjectionFault} {given : List TextRule}

/-! ### Texts and arrays -/

theorem pattern_of_addRules {b : TextBounds} (h : given.foldlM TextBounds.add b = .error fault) :
    ∃ regex, .pattern regex ∈ given ∧ fault = .pattern regex := by
  induction given generalizing b with
  | nil => cases h
  | cons rule given ih =>
    rw [List.foldlM_cons] at h
    rcases Outcome.bind_eq_error.mp h with h | ⟨next, -, h⟩
    · cases rule with
      | pattern regex =>
        cases h
        exact ⟨regex, List.mem_cons_self, rfl⟩
      | _ => cases h
    · obtain ⟨regex, hmem, heq⟩ := ih h
      exact ⟨regex, List.mem_cons_of_mem rule hmem, heq⟩

theorem not_pattern_of_addRules {b b' : TextBounds}
    (h : given.foldlM TextBounds.add b = .ok b') (regex : String) : .pattern regex ∉ given := by
  induction given generalizing b with
  | nil => exact List.not_mem_nil
  | cons rule given ih =>
    rw [List.foldlM_cons] at h
    obtain ⟨next, hnext, hrest⟩ := Outcome.bind_eq_ok.mp h
    intro hmem
    rcases List.mem_cons.mp hmem with rfl | hmem
    · cases hnext
    · exact ih hrest hmem

theorem unsayable_of_textExpr (h : textExpr given = .error fault) :
    (Schema.string given).Unsayable fault := by
  rcases Outcome.bind_eq_error.mp h with h | ⟨b, hb, h⟩
  · obtain ⟨regex, hmem, rfl⟩ := pattern_of_addRules h
    exact .pattern hmem
  obtain ⟨hoptions, hlower, hupper⟩ := add_eq_ok hb
  simp only [Option.or_none] at hoptions hlower hupper
  split at h
  · cases h
  next hnone =>
  split at h
  · cases h
  · next lo hi hlo hhi =>
    split at h
    · next hcrossed =>
      cases h
      exact .length (lastOptions_eq_none.mp (hoptions.symm.trans hnone)) (hlower.symm.trans hlo)
        (hupper.symm.trans hhi) hcrossed
    · cases h
  · cases h

theorem not_unsayable_of_textExpr {e : Expr} (h : textExpr given = .ok e) :
    ¬ (Schema.string given).Unsayable fault := by
  obtain ⟨b, hb, h⟩ := Outcome.bind_eq_ok.mp h
  obtain ⟨hoptions, hlower, hupper⟩ := add_eq_ok hb
  simp only [Option.or_none] at hoptions hlower hupper
  intro hunsayable
  cases hunsayable with
  | pattern stated => exact not_pattern_of_addRules hb _ stated
  | length free lowest highest crossed =>
    simp [hoptions, lastOptions_eq_none.mpr free, hlower, lowest, hupper, highest, crossed] at h

theorem unsayable_of_arrayExpr {item : Schema} {e : Expr} {counts : List Span}
    (h : arrayExpr e counts = .error fault) : (Schema.array item counts).Unsayable fault := by
  unfold arrayExpr at h
  simp only [foldl_or, Option.or_none] at h
  split at h
  · next lo hi hlo hhi =>
    split at h
    · next hcrossed =>
      cases h
      exact .count hlo hhi hcrossed
    · cases h
  · cases h

theorem not_unsayable_of_arrayExpr {item : Schema} {e whole : Expr} {counts : List Span}
    (h : arrayExpr e counts = .ok whole) : ¬ (Schema.array item counts).Unsayable fault := by
  unfold arrayExpr at h
  simp only [foldl_or, Option.or_none] at h
  intro hunsayable
  cases hunsayable with
  | count lowest highest crossed =>
    unfold Span.lastLower at lowest
    unfold Span.lastUpper at highest
    simp [lowest, highest, crossed] at h

/-! ### What a schema's rules fail at -/

/-- A fault in making a grammar tells of a node in the schema. -/
inductive Blamed (g : SchemaGraph) : ProjectionFault → Prop
  | unsayable {s : Schema} {fault : ProjectionFault} (within : s.Within g.root)
      (unsayable : s.Unsayable fault) : Blamed g fault
  | empty {name : String} {description : Option String}
      (within : (Schema.union name description []).Within g.root) : Blamed g (.emptyUnion name)

/-- Whenever a step fails, a node in the schema is blamed, if at least so many rules have been
begun. -/
def Fails (g : SchemaGraph) (begun : Nat) (m : Build α) : Prop :=
  ∀ b fault, Sound g b → Begun b → begun ≤ b.pending.length → m.run b = .error fault →
    Blamed g fault

theorem run_bind_eq_error {m : Build α} {f : α → Build β} {b : Builder} :
    (m >>= f).run b = .error fault ↔ m.run b = .error fault ∨
      ∃ a b', m.run b = .ok (a, b') ∧ (f a).run b' = .error fault := by
  rw [StateT.run_bind, Outcome.bind_eq_error, Prod.exists]

namespace Fails

variable {begun : Nat}

theorem pure (a : α) : Fails g begun (Pure.pure a : Build α) := fun _ _ _ _ _ h => by cases h

theorem throw (h : Blamed g fault) : Fails g begun (MonadExcept.throw fault : Build α) := by
  intro b f _ _ _ hrun
  cases hrun
  exact h

theorem lift {r : Except ProjectionFault α} (h : ∀ fault, r = .error fault → Blamed g fault) :
    Fails g begun (liftM r : Build α) := by
  cases r with
  | ok a => exact .pure a
  | error fault => exact .throw (h fault rfl)

theorem mono {more : Nat} {m : Build α} (h : Fails g begun m) (hle : begun ≤ more) :
    Fails g more m :=
  fun b fault hb hbegun hmore hrun => h b fault hb hbegun (hle.trans hmore) hrun

theorem bind {m : Build α} {f : α → Build β} {post : RuleNames → α → Prop} (hm : Fails g begun m)
    (hmakes : Makes g m post) (hf : ∀ a, Fails g begun (f a)) : Fails g begun (m >>= f) := by
  intro b fault hb hbegun hle hrun
  rcases run_bind_eq_error.mp hrun with hrun | ⟨a, b', hma, hrun⟩
  · exact hm b fault hb hbegun hle hrun
  · obtain ⟨hb', hbegun', hpending, -⟩ := hmakes b a b' hb hbegun hma
    exact hf a b' fault hb' hbegun' (hpending ▸ hle) hrun

theorem namedRule {node : Schema} {name : String} (hnode : node.Within g.root)
    (hname : node.name? = some name) {body : Build Expr} (hbody : Fails g (begun + 1) body) :
    Fails g begun (namedRule name body) := by
  intro b fault hb hbegun hle hrun
  rcases run_bind_eq_error.mp hrun with hrun | ⟨rule, b₁, hrule, hrun⟩
  · rcases run_bind_eq_error.mp hrun with hrun | ⟨_, _, hget, hrun⟩
    · cases hrun
    · split at hrun <;> cases hrun
  have hpending : b₁.pending = b.pending := (sound_of_ruleName hb hnode hname hrule).2.2.1
  rcases run_bind_eq_error.mp hrun with hrun | ⟨_, _, hget, hrun⟩
  · cases hrun
  cases hget
  split at hrun
  · cases hrun
  next hunknown =>
  rcases run_bind_eq_error.mp hrun with hrun | ⟨_, _, hset, hrun⟩
  · cases hrun
  cases hset
  obtain ⟨hbegin, hbegunBegin, -⟩ := begin_of_ruleName hb hbegun hnode hname hrule hunknown
  rcases run_bind_eq_error.mp hrun with hrun | ⟨_, _, -, hrun⟩
  · refine hbody (b₁.begin rule) fault hbegin hbegunBegin ?_ hrun
    exact Nat.succ_le_succ (hpending ▸ hle)
  · cases hrun

end Fails

/-! ### Schemas -/

section

variable {follow : String → Build Expr} {begun : Nat}

theorem members_fails (hfollows : Follows g follow) {properties : List (Property Schema)}
    (h : ∀ p ∈ properties, p.schema.Within g.root ∧ Fails g begun (expr follow p.schema)) :
    Fails g begun (members follow properties) := by
  induction properties with
  | nil => exact .pure []
  | cons p properties ih =>
    obtain ⟨hp, hrest⟩ := List.forall_mem_cons.mp h
    have hall : ∀ q ∈ properties, q.schema.Within g.root := fun q hq => (hrest q hq).1
    refine hp.2.bind (expr_makes hfollows p.schema hp.1) fun e => ?_
    exact (ih hrest).bind (members_makes hfollows properties hall) fun _ => .pure _

theorem exprs_fails (hfollows : Follows g follow) {alternatives : List Schema}
    (h : ∀ s ∈ alternatives, s.Within g.root ∧ Fails g begun (expr follow s)) :
    Fails g begun (exprs follow alternatives) := by
  induction alternatives with
  | nil => exact .pure []
  | cons s alternatives ih =>
    obtain ⟨hs, hrest⟩ := List.forall_mem_cons.mp h
    have hall : ∀ t ∈ alternatives, t.Within g.root := fun t ht => (hrest t ht).1
    refine hs.2.bind (expr_makes hfollows s hs.1) fun e => ?_
    exact (ih hrest).bind (exprs_makes hfollows alternatives hall) fun _ => .pure _

/-- What defines a name begins a rule before its parts are rendered. -/
theorem definition_fails (hfollows : Follows g follow) {s : Schema} (hs : s.Within g.root)
    (hdefines : s.defines = true)
    (hparts : ∀ part ∈ s.parts, Fails g (begun + 1) (expr follow part)) :
    Fails g begun (expr follow s) := by
  have hwithin {part : Schema} (hpart : part ∈ s.parts) : part.Within g.root := hs.part hpart
  cases s with
  | object name description properties =>
    rw [expr]
    have hall : ∀ p ∈ properties,
        p.schema.Within g.root ∧ Fails g (begun + 1) (expr follow p.schema) := by
      intro p hp
      have hpart : p.schema ∈ (Schema.object name description properties).parts :=
        Schema.mem_parts_of_mem_properties hp
      exact ⟨hwithin hpart, hparts p.schema hpart⟩
    refine .namedRule hs rfl ((members_fails hfollows hall).bind
      (members_makes hfollows properties fun p hp => (hall p hp).1) fun _ => .pure _)
  | union name description alternatives =>
    rw [expr]
    refine .namedRule hs rfl ?_
    split
    · next hempty =>
      rw [List.isEmpty_iff] at hempty
      exact .throw (.empty (hempty ▸ hs))
    · have hall : ∀ t ∈ alternatives, t.Within g.root ∧ Fails g (begun + 1) (expr follow t) :=
        fun t ht => ⟨hwithin ht, hparts t ht⟩
      exact (exprs_fails hfollows hall).bind
        (exprs_makes hfollows alternatives fun t ht => (hall t ht).1) fun _ => .pure _
  | _ => cases hdefines

theorem expr_fails (hfollows : Follows g follow)
    (hfollow : ∀ name, (Schema.ref name).Within g.root → Fails g begun (follow name)) (s : Schema)
    (hs : s.Within g.root) : Fails g begun (expr follow s) := by
  induction s using Schema.parts_induction with
  | h s ih =>
    have hparts (part : Schema) (hpart : part ∈ s.parts) :
        part.Within g.root ∧ Fails g begun (expr follow part) := by
      have hwithin : part.Within g.root := hs.part hpart
      exact ⟨hwithin, ih part hpart hwithin⟩
    cases s with
    | string rules =>
      rw [expr]
      exact .lift fun fault h => .unsayable hs (unsayable_of_textExpr h)
    | integer ranges =>
      rw [expr]
      split
      · exact .pure _
      · next hsome =>
        exact .throw (.unsayable hs (.integer fun hnil => hsome (List.isEmpty_iff.mpr hnil)))
    | number ranges =>
      rw [expr]
      split
      · exact .pure _
      · next hsome =>
        exact .throw (.unsayable hs (.number fun hnil => hsome (List.isEmpty_iff.mpr hnil)))
    | boolean =>
      rw [expr]
      exact .pure _
    | array item counts =>
      rw [expr]
      obtain ⟨hwithin, hitem⟩ := hparts item (List.mem_singleton_self item)
      refine hitem.bind (expr_makes hfollows item hwithin) fun e => .lift fun fault h => ?_
      exact .unsayable hs (unsayable_of_arrayExpr h)
    | ref name =>
      rw [expr]
      exact hfollow name hs
    | object | union =>
      exact definition_fails hfollows hs rfl fun part hpart =>
        (hparts part hpart).2.mono (Nat.le_succ begun)

end

/-! ### References -/

/-- The rules that are being made belong to different recorded schemas. -/
theorem pending_length_le {b : Builder} (hg : g.Anchored)
    (hnamed : NamedSchemas.collect g = .ok named) (hb : Sound g b) :
    b.pending.length ≤ named.schemas.length := by
  have hrules : b.pending.length ≤ (b.ruleNames.map (·.2)).length :=
    (List.subperm_of_subset hb.nested hb.ruled).length_le
  have hnames : (b.ruleNames.map (·.1)).length ≤ (named.schemas.map (·.1)).length := by
    refine (List.subperm_of_subset hb.single fun name hname => ?_).length_le
    obtain ⟨node, hnode, hnodeName⟩ := hb.known name hname
    obtain ⟨r, hr, -⟩ := NamedSchemas.exists_recorded_of_collect hg hnamed hnode hnodeName
    exact List.mem_map_of_mem (Entries.mem_of_get? hr)
  simp only [List.length_map] at hrules hnames
  exact hrules.trans hnames

/-- With every reference that is followed a rule is begun, so that the fuel is not used up. -/
theorem follow_fails (hg : g.Anchored) (hnamed : NamedSchemas.collect g = .ok named) {fuel : Nat} :
    ∀ {begun : Nat}, named.schemas.length < begun + fuel → ∀ name,
      (Schema.ref name).Within g.root → Fails g begun (follow g named fuel name) := by
  induction fuel with
  | zero =>
    intro begun hfuel name _ b fault hb _ hle _
    have hpending := pending_length_le hg hnamed hb
    omega
  | succ fuel ih =>
    intro begun hfuel name hname
    have hrecorded := NamedSchemas.recorded_of_collect hg hnamed
    obtain ⟨r, hr, -⟩ := NamedSchemas.exists_recorded_of_collect hg hnamed hname rfl
    obtain ⟨hwithin, hdefines, -⟩ := hrecorded name r hr
    have hfollows := follow_follows hg hrecorded fuel
    rw [Grammar.follow, hr, Option.some_or]
    refine definition_fails hfollows hwithin hdefines fun part hpart => ?_
    refine expr_fails hfollows (ih (by omega)) part ?_
    exact hwithin.part hpart

/-! ### Whole grammars -/

theorem blamed_of_rulesOf (hg : g.Anchored) (hnamed : NamedSchemas.collect g = .ok named)
    (h : rulesOf g named = .error fault) : Blamed g fault := by
  rcases Outcome.bind_eq_error.mp h with h | ⟨_, -, h⟩
  · have hfollows := follow_follows hg (NamedSchemas.recorded_of_collect hg hnamed)
      (named.schemas.length + g.table.length + 1)
    exact expr_fails hfollows (follow_fails hg hnamed (by omega)) g.root (.refl _) _ _ sound_nil
      (fun _ _ hget => by cases hget) (Nat.zero_le _) h
  · cases h

theorem not_unsayable_of_renders {s : Schema} {e : Expr} (h : Renders names s e) :
    ¬ s.Unsayable fault := by
  intro hunsayable
  cases h with
  | string text => exact not_unsayable_of_textExpr text hunsayable
  | array _ array => exact not_unsayable_of_arrayExpr array hunsayable
  | integer | number =>
    cases hunsayable with
    | _ some => exact some rfl
  | boolean => cases hunsayable
  | named named => cases hunsayable <;> cases named

/-- Where a grammar is made nothing in the schema can be blamed: every node equals one that is
rendered. -/
theorem not_blamed_of_rulesOf {rules : List Rule} (hg : g.Anchored)
    (hnamed : NamedSchemas.collect g = .ok named) (h : rulesOf g named = .ok rules) :
    ¬ Blamed g fault := by
  obtain ⟨names, hrules⟩ := exists_rulesFor hg hnamed h
  rintro (⟨hs, hunsayable⟩ | @⟨name, description, hempty⟩)
  · obtain ⟨t, -, hsame, ⟨e, he⟩, -⟩ := hrules.exists_rendered hg hnamed hs
    exact not_unsayable_of_renders he (hunsayable.of_same hsame)
  · obtain ⟨t, -, hsame, -, hbody⟩ := hrules.exists_rendered hg hnamed hempty
    cases Schema.same_iff.mp hsame with
    | union _ _ each =>
      cases each
      obtain ⟨⟨rule, body⟩, -, hr⟩ := hbody rfl
      dsimp only at hr
      cases hr with
      | union _ some => exact some rfl

end Grammar

end StructuredOutput

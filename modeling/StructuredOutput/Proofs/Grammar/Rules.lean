import StructuredOutput.Proofs.Backend.Visits
import StructuredOutput.Proofs.Grammar.Notation
import StructuredOutput.Proofs.Schema.Defined

/-!
The rules of a schema. Wherever a schema needs a rule its expression is the name of the rule, and
in the end there is one rule for every such name, whose body renders what defines the schema's name.
-/

namespace StructuredOutput.Grammar

open Text

variable {α β : Type} {g : SchemaGraph}

/-! ### Rendered schemas -/

/-- The rules of schemas by the names of the schemas. -/
abbrev RuleNames := List (String × String)

def RuleNames.Extends (wide narrow : RuleNames) : Prop :=
  ∀ name rule, Entries.get? narrow name = some rule → Entries.get? wide name = some rule

/-- An expression renders a schema. What has a name is the name of a rule. -/
inductive Renders (names : RuleNames) : Schema → Expr → Prop
  | string {rules : List TextRule} {e : Expr} (text : textExpr rules = .ok e) :
      Renders names (.string rules) e
  | integer : Renders names (.integer []) (.rule "integer")
  | number : Renders names (.number []) (.rule "number")
  | boolean : Renders names .boolean (.rule "boolean")
  | array {item : Schema} {counts : List Span} {e whole : Expr} (items : Renders names item e)
      (array : arrayExpr e counts = .ok whole) : Renders names (.array item counts) whole
  | named {s : Schema} {name rule : String} (named : s.name? = some name)
      (ruled : Entries.get? names name = some rule) : Renders names s (.rule rule)

/-- The body of a rule renders what defines a name. -/
inductive RendersBody (names : RuleNames) : Schema → Expr → Prop
  | object {properties : List (Property Schema)} {members : List Expr}
      (each : List.Forall₂ (fun p m => ∃ e, Renders names p.schema e ∧
        m = memberExpr p.key p.optional e) properties members)
      (name : String) (description : Option String) :
      RendersBody names (.object name description properties) (objectExpr members)
  | union {alternatives : List Schema} {es : List Expr}
      (each : List.Forall₂ (Renders names) alternatives es) (some : alternatives ≠ []) (name : String)
      (description : Option String) :
      RendersBody names (.union name description alternatives) (.alt es)

namespace RuleNames

theorem extends_refl (names : RuleNames) : RuleNames.Extends names names := fun _ _ h => h

theorem extends_trans {a b c : RuleNames} (hab : RuleNames.Extends a b)
    (hbc : RuleNames.Extends b c) : RuleNames.Extends a c :=
  fun name rule h => hab name rule (hbc name rule h)

end RuleNames

section

variable {names wide : RuleNames} {s : Schema} {e : Expr}

theorem Renders.extend (h : Renders names s e) (hwide : RuleNames.Extends wide names) :
    Renders wide s e := by
  induction h with
  | string text => exact .string text
  | integer => exact .integer
  | number => exact .number
  | boolean => exact .boolean
  | array _ array ih => exact .array ih array
  | named named ruled => exact .named named (hwide _ _ ruled)

theorem RendersBody.extend (h : RendersBody names s e) (hwide : RuleNames.Extends wide names) :
    RendersBody wide s e := by
  cases h with
  | object each name description =>
    refine .object (each.imp ?_) name description
    rintro p m ⟨e, he, rfl⟩
    exact ⟨e, he.extend hwide, rfl⟩
  | union each some name description =>
    exact .union (each.imp fun _ _ h => h.extend hwide) some name description

theorem RendersBody.defines (h : RendersBody names s e) : s.defines = true := by
  cases h <;> rfl

end

/-! ### What a step keeps -/

/-- A character of the names that rules get. -/
def isWordChar (c : Char) : Bool := c.isLower || c.isDigit || c = '-'

/-- A text of small letters, digits and dashes. -/
def IsWord (cs : List Char) : Prop := cs ≠ [] ∧ ∀ c ∈ cs, isWordChar c = true

/-- The rules made so far render what defines the names, and rule names differ. What is being made
has the names of different rules. -/
structure Sound (g : SchemaGraph) (b : Builder) : Prop where
  known : ∀ name ∈ b.ruleNames.map (·.1), ∃ node : Schema,
    node.Within g.root ∧ node.name? = some name
  single : (b.ruleNames.map (·.1)).Nodup
  distinct : (b.ruleNames.map (·.2)).Nodup
  free : ∀ rule ∈ b.ruleNames.map (·.2), rule ∉ reserved
  words : ∀ rule ∈ b.ruleNames.map (·.2), IsWord rule.toList
  once : (b.rules.map (·.name)).Nodup
  nested : b.pending.Nodup
  ruled : ∀ rule ∈ b.pending, rule ∈ b.ruleNames.map (·.2)
  apart : ∀ rule ∈ b.pending, rule ∉ b.rules.map (·.name)
  made : ∀ r ∈ b.rules, ∃ node name, node.Within g.root ∧ node.name? = some name ∧
    Entries.get? b.ruleNames name = some r.name ∧ RendersBody b.ruleNames node r.body

theorem sound_nil : Sound g ⟨[], [], []⟩ :=
  ⟨by simp, List.nodup_nil, List.nodup_nil, by simp, by simp, List.nodup_nil, List.nodup_nil,
    by simp, by simp, by simp⟩

/-- Every name has its rule, or the rule is being made. -/
def Begun (b : Builder) : Prop :=
  ∀ name rule, Entries.get? b.ruleNames name = some rule →
    rule ∈ b.rules.map (·.name) ∨ rule ∈ b.pending

/-- A step that succeeds keeps a builder sound and what is being made; of its result something is
known in terms of the rule names afterwards. -/
def Makes (g : SchemaGraph) (m : Build α) (post : RuleNames → α → Prop) : Prop :=
  ∀ b a b', Sound g b → Begun b → m.run b = .ok (a, b') →
    Sound g b' ∧ Begun b' ∧ b'.pending = b.pending ∧
      RuleNames.Extends b'.ruleNames b.ruleNames ∧ post b'.ruleNames a

theorem run_bind_eq_ok {m : Build α} {f : α → Build β} {b b'' : Builder} {y : β} :
    (m >>= f).run b = .ok (y, b'') ↔
      ∃ a b', m.run b = .ok (a, b') ∧ (f a).run b' = .ok (y, b'') := by
  rw [StateT.run_bind, Outcome.bind_eq_ok, Prod.exists]

namespace Makes

variable {post : RuleNames → α → Prop}

theorem pure {a : α} (h : ∀ names, post names a) : Makes g (Pure.pure a) post := by
  intro b a b' hb hbegun hrun
  cases hrun
  exact ⟨hb, hbegun, rfl, RuleNames.extends_refl _, h _⟩

theorem throw (fault : ProjectionFault) : Makes g (MonadExcept.throw fault : Build α) post :=
  fun _ _ _ _ _ hrun => by cases hrun

theorem lift {r : Except ProjectionFault α} (h : ∀ a, r = .ok a → ∀ names, post names a) :
    Makes g (liftM r : Build α) post := by
  cases r with
  | ok a => exact Makes.pure (h a rfl)
  | error fault => exact Makes.throw fault

theorem bind {m : Build α} {f : α → Build β} {post' : RuleNames → β → Prop}
    (hm : Makes g m post)
    (hkeep : ∀ wide narrow a, RuleNames.Extends wide narrow → post narrow a → post wide a)
    (hf : ∀ a, Makes g (f a) fun names y => post names a → post' names y) :
    Makes g (m >>= f) post' := by
  intro b y b'' hb hbegun hrun
  obtain ⟨a, b', hma, hfa⟩ := run_bind_eq_ok.mp hrun
  obtain ⟨hb', hbegun', hpending, hextend, hpost⟩ := hm b a b' hb hbegun hma
  obtain ⟨hb'', hbegun'', hpending', hextend', hpost'⟩ := hf a b' y b'' hb' hbegun' hfa
  exact ⟨hb'', hbegun'', hpending'.trans hpending, RuleNames.extends_trans hextend' hextend,
    hpost' (hkeep _ _ _ hextend' hpost)⟩

theorem imp {m : Build α} {post' : RuleNames → α → Prop} (h : Makes g m post)
    (himp : ∀ names a, post names a → post' names a) : Makes g m post' :=
  fun b a b' hb hbegun hrun =>
    have ⟨hb', hbegun', hpending, hextend, hpost⟩ := h b a b' hb hbegun hrun
    ⟨hb', hbegun', hpending, hextend, himp _ _ hpost⟩

end Makes

/-! ### Rule names -/

theorem numbered_injective (base : String) :
    Function.Injective fun i : Nat => s!"{base}-{i + 2}" := fun _ _ h =>
  Derivation.numbered_injective s!"{base}-" h

theorem freshRule_not_mem (taken : List String) (base : String) :
    freshRule taken base ∉ taken :=
  Derivation.find?_getD_not_mem base (List.nodup_range.map (numbered_injective base)) (by simp)

theorem isNameChar_of_isWordChar {c : Char} (h : isWordChar c = true) : isNameChar c = true := by
  simp only [isWordChar, isNameChar, Char.isAlphanum, Char.isAlpha, Bool.or_eq_true] at h ⊢
  rcases h with (h | h) | h
  · exact .inl (.inl (.inr h))
  · exact .inl (.inr h)
  · exact .inr h

theorem IsWord.isName {cs : List Char} (h : IsWord cs) : IsName cs :=
  ⟨h.1, fun c hc => isNameChar_of_isWordChar (h.2 c hc)⟩

theorem isWordChar_lowerAscii {c : Char} (h : isRuleChar c = true) :
    isWordChar (lowerAscii c) = true := by
  unfold lowerAscii
  split
  · next hupper =>
    obtain ⟨hlow, hhigh⟩ : 65 ≤ c.toNat ∧ c.toNat ≤ 90 := hupper
    have hall : ∀ n < 26, isWordChar (Char.ofNat (65 + n + 32)) = true := by decide
    obtain ⟨n, hn⟩ := Nat.exists_eq_add_of_le hlow
    rw [hn]
    exact hall n (by omega)
  · next hupper =>
    have hnot : c.isUpper = false :=
      Bool.eq_false_of_not_eq_true fun h => hupper (by simpa [Char.isUpper, Char.le_def] using h)
    simp only [isRuleChar, Char.isAlphanum, Char.isAlpha, hnot, Bool.false_or] at h
    simp [isWordChar, h]

theorem isWordChar_of_mem_dashes {dashed : Bool} {cs : List Char} {c : Char}
    (h : c ∈ dashes dashed cs) : isWordChar c = true := by
  induction cs generalizing dashed with
  | nil => cases h
  | cons d cs ih =>
    unfold dashes at h
    split at h
    · next hd =>
      rcases List.mem_cons.mp h with rfl | h
      · exact isWordChar_lowerAscii hd
      · exact ih h
    split at h
    · exact ih h
    · rcases List.mem_cons.mp h with rfl | h
      · rfl
      · exact ih h

theorem mem_of_mem_stripped {mark c : Char} {cs : List Char} (h : c ∈ stripped mark cs) : c ∈ cs := by
  have hend := (List.dropWhile_sublist _).mem (List.mem_reverse.mp h)
  exact (List.dropWhile_sublist _).mem (List.mem_reverse.mp hend)

theorem isWord_baseName (name : String) : IsWord (baseName name).toList := by
  unfold baseName
  split
  · exact ⟨by decide, List.all_eq_true.mp (by decide)⟩
  · next cs hcs =>
    rw [String.toList_ofList]
    refine ⟨hcs, fun c hc => ?_⟩
    exact isWordChar_of_mem_dashes (mem_of_mem_stripped hc)

theorem isWord_numbered {base : String} (h : IsWord base.toList) (n : Nat) :
    IsWord s!"{base}-{n}".toList := by
  have hlist : s!"{base}-{n}".toList = base.toList ++ '-' :: decimal n := by
    simp [toString, decimal]
  rw [hlist]
  refine ⟨List.append_ne_nil_of_left_ne_nil h.1 _, fun c hc => ?_⟩
  rcases List.mem_append.mp hc with hc | hc
  · exact h.2 c hc
  rcases List.mem_cons.mp hc with rfl | hc
  · rfl
  · have hdigit : c.isDigit = true := isDigit_of_mem_decimal hc
    simp [isWordChar, hdigit]

theorem isWord_freshRule (taken : List String) {base : String} (h : IsWord base.toList) :
    IsWord (freshRule taken base).toList := by
  unfold freshRule
  dsimp only
  cases hfound : List.find? _ _ with
  | none => exact h
  | some n =>
    rcases List.mem_cons.mp (List.mem_of_find?_eq_some hfound) with rfl | hn
    · exact h
    · obtain ⟨i, -, rfl⟩ := List.mem_map.mp hn
      exact isWord_numbered h (i + 2)

/-- A schema name keeps its rule name, or it gets one that no rule has. -/
theorem sound_of_ruleName {b b' : Builder} {node : Schema} {name rule : String} (hb : Sound g b)
    (hnode : node.Within g.root) (hname : node.name? = some name)
    (h : (ruleName name).run b = .ok (rule, b')) :
    Sound g b' ∧ b'.rules = b.rules ∧ b'.pending = b.pending ∧
      RuleNames.Extends b'.ruleNames b.ruleNames ∧ Entries.get? b'.ruleNames name = some rule ∧
      ∀ n r, Entries.get? b'.ruleNames n = some r → Entries.get? b.ruleNames n = some r ∨ r = rule := by
  obtain ⟨_, _, hget, hrun⟩ := run_bind_eq_ok.mp h
  cases hget
  split at hrun
  · next known hknown =>
    cases hrun
    exact ⟨hb, rfl, rfl, RuleNames.extends_refl _, hknown, fun _ _ hr => .inl hr⟩
  · next hnone =>
    obtain ⟨_, _, hset, hpure⟩ := run_bind_eq_ok.mp hrun
    cases hset
    cases hpure
    have hfresh := freshRule_not_mem (reserved ++ b.ruleNames.map (·.2)) (baseName name)
    have hword := isWord_freshRule (reserved ++ b.ruleNames.map (·.2)) (isWord_baseName name)
    generalize freshRule (reserved ++ b.ruleNames.map (·.2)) (baseName name) = fresh at hfresh hword
    rw [List.mem_append, not_or] at hfresh
    have hextend : RuleNames.Extends (b.ruleNames ++ [(name, fresh)]) b.ruleNames := by
      intro n r hr
      rw [Entries.get?_append, hr, Option.some_or]
    have hnew (p : String → Prop) (hp : p fresh) (hall : ∀ r ∈ b.ruleNames.map (·.2), p r) :
        ∀ r ∈ (b.ruleNames ++ [(name, fresh)]).map (·.2), p r := by
      rw [List.map_append, List.forall_mem_append]
      exact ⟨hall, List.forall_mem_singleton.mpr hp⟩
    refine ⟨⟨?_, ?_, ?_, hnew _ hfresh.1 hb.free, hnew _ hword hb.words, hb.once, hb.nested, ?_,
      hb.apart, fun r hr => ?_⟩, rfl, rfl, hextend, ?_, fun n r hr => ?_⟩
    · rw [List.map_append, List.forall_mem_append]
      exact ⟨hb.known, List.forall_mem_singleton.mpr ⟨node, hnode, hname⟩⟩
    · rw [List.map_append, List.nodup_append']
      refine ⟨hb.single, List.nodup_singleton _, ?_⟩
      rw [List.map_singleton, List.disjoint_singleton]
      exact Entries.get?_eq_none.mp hnone
    · rw [List.map_append, List.nodup_append']
      refine ⟨hb.distinct, List.nodup_singleton _, ?_⟩
      rw [List.map_singleton, List.disjoint_singleton]
      exact hfresh.2
    · intro r hr
      rw [List.map_append]
      exact List.mem_append_left _ (hb.ruled r hr)
    · obtain ⟨node, n, hnode, hn, hruled, hbody⟩ := hb.made r hr
      exact ⟨node, n, hnode, hn, hextend _ _ hruled, hbody.extend hextend⟩
    · rw [Entries.get?_append, hnone, Option.none_or, Entries.get?_cons_self]
    · rw [Entries.get?_append] at hr
      cases hold : Entries.get? b.ruleNames n with
      | some known =>
        rw [hold, Option.some_or] at hr
        exact .inl hr
      | none =>
        rw [hold, Option.none_or] at hr
        exact .inr (Prod.mk.inj (List.mem_singleton.mp (Entries.mem_of_get? hr))).2

/-! ### Named schemas -/

/-- The builder while a rule is being made. -/
def Builder.begin (b : Builder) (rule : String) : Builder := { b with pending := rule :: b.pending }

/-- The builder after a rule has been made. -/
def Builder.finish (b : Builder) (rule : String) (body : Expr) : Builder :=
  { b with
    pending := b.pending.filter (· != rule)
    rules := b.rules ++ [⟨rule, body⟩] }

section

variable {b : Builder} {rule : String}

theorem sound_begin (hb : Sound g b) (hruled : rule ∈ b.ruleNames.map (·.2))
    (hnew : rule ∉ b.rules.map (·.name)) (hnot : rule ∉ b.pending) : Sound g (b.begin rule) where
  known := hb.known
  single := hb.single
  distinct := hb.distinct
  free := hb.free
  words := hb.words
  once := hb.once
  nested := List.nodup_cons.mpr ⟨hnot, hb.nested⟩
  ruled := List.forall_mem_cons.mpr ⟨hruled, hb.ruled⟩
  apart := List.forall_mem_cons.mpr ⟨hnew, hb.apart⟩
  made := hb.made

theorem sound_finish {body : Expr} {node : Schema} {name : String} (hb : Sound g b)
    (hpending : rule ∈ b.pending) (hnode : node.Within g.root) (hname : node.name? = some name)
    (hruled : Entries.get? b.ruleNames name = some rule)
    (hbody : RendersBody b.ruleNames node body) : Sound g (b.finish rule body) where
  known := hb.known
  single := hb.single
  distinct := hb.distinct
  free := hb.free
  words := hb.words
  nested := hb.nested.filter _
  ruled := fun r hr => hb.ruled r (List.mem_filter.mp hr).1
  once := by
    change ((b.rules ++ [(⟨rule, body⟩ : Rule)]).map (·.name)).Nodup
    rw [List.map_append, List.nodup_append']
    refine ⟨hb.once, List.nodup_singleton _, ?_⟩
    rw [List.map_singleton, List.disjoint_singleton]
    exact hb.apart rule hpending
  apart := by
    intro r hr
    obtain ⟨hr, hne⟩ := List.mem_filter.mp hr
    change r ∉ (b.rules ++ [(⟨rule, body⟩ : Rule)]).map (·.name)
    have hdiffer : r ≠ rule := by simpa using hne
    simpa [hdiffer] using hb.apart r hr
  made := by
    intro r hr
    rcases List.mem_append.mp hr with hr | hr
    · exact hb.made r hr
    · obtain rfl := List.mem_singleton.mp hr
      exact ⟨node, name, hnode, hname, hruled, hbody⟩

theorem begun_finish {body : Expr} (hb : Begun b) : Begun (b.finish rule body) := by
  intro n r hr
  by_cases hrule : r = rule
  · subst hrule
    exact .inl (by simp [Builder.finish])
  · rcases hb n r hr with hmade | hpending
    · refine .inl ?_
      rw [Builder.finish, List.map_append]
      exact List.mem_append_left _ hmade
    · exact .inr (List.mem_filter.mpr ⟨hpending, by simpa using hrule⟩)

end

/-- A rule that is neither made nor being made can be begun. -/
theorem begin_of_ruleName {b b₁ : Builder} {node : Schema} {name rule : String} (hb : Sound g b)
    (hbegun : Begun b) (hnode : node.Within g.root) (hname : node.name? = some name)
    (hrule : (ruleName name).run b = .ok (rule, b₁))
    (hunknown : ¬ (b₁.rules.any (·.name == rule) || b₁.pending.contains rule) = true) :
    Sound g (b₁.begin rule) ∧ Begun (b₁.begin rule) ∧ rule ∉ b₁.pending := by
  obtain ⟨hb₁, hrules, hpending, -, hruled, hold⟩ := sound_of_ruleName hb hnode hname hrule
  simp only [Bool.or_eq_true, List.any_eq_true, beq_iff_eq, List.contains_iff_mem, not_or,
    not_exists, not_and] at hunknown
  obtain ⟨hnew, hnot⟩ := hunknown
  refine ⟨sound_begin hb₁ (List.mem_map_of_mem (Entries.mem_of_get? hruled)) (fun hmem => ?_) hnot,
    fun n r hr => ?_, hnot⟩
  · obtain ⟨r, hr, heq⟩ := List.mem_map.mp hmem
    exact hnew r hr heq
  · rcases hold n r hr with hr | rfl
    · have hknown := hbegun n r hr
      rw [← hrules, ← hpending] at hknown
      exact hknown.imp_right (List.mem_cons_of_mem rule)
    · exact .inr List.mem_cons_self

/-- A named schema gets its rule. -/
theorem namedRule_makes {node : Schema} {name : String} (hnode : node.Within g.root)
    (hname : node.name? = some name) {body : Build Expr}
    (hbody : Makes g body fun names e => RendersBody names node e) :
    Makes g (namedRule name body) fun names e => Renders names node e := by
  intro b e b' hb hbegun hrun
  obtain ⟨rule, b₁, hrule, hrun⟩ := run_bind_eq_ok.mp hrun
  obtain ⟨hb₁, hrules, hpending, hextend, hruled, hold⟩ := sound_of_ruleName hb hnode hname hrule
  obtain ⟨_, _, hget, hrun⟩ := run_bind_eq_ok.mp hrun
  cases hget
  split at hrun
  · next hknown =>
    cases hrun
    refine ⟨hb₁, fun n r hr => ?_, hpending, hextend, .named hname hruled⟩
    rcases hold n r hr with hr | rfl
    · rw [hrules, hpending]
      exact hbegun n r hr
    · simpa using hknown
  next hunknown =>
  obtain ⟨_, _, hset, hrun⟩ := run_bind_eq_ok.mp hrun
  cases hset
  obtain ⟨hbegin, hbegunBegin, hnot⟩ := begin_of_ruleName hb hbegun hnode hname hrule hunknown
  obtain ⟨made, b₂, hmade, hrun⟩ := run_bind_eq_ok.mp hrun
  obtain ⟨hb₂, hbegun₂, hpending₂, hextend₂, hrenders⟩ :=
    hbody (b₁.begin rule) made b₂ hbegin hbegunBegin hmade
  obtain ⟨_, _, hmodify, hpure⟩ := run_bind_eq_ok.mp hrun
  cases hmodify
  cases hpure
  have hruled₂ : Entries.get? b₂.ruleNames name = some rule := hextend₂ _ _ hruled
  have hmem : rule ∈ b₂.pending := hpending₂ ▸ List.mem_cons_self
  refine ⟨sound_finish hb₂ hmem hnode hname hruled₂ hrenders, begun_finish hbegun₂, ?_,
    RuleNames.extends_trans hextend₂ hextend, .named hname hruled₂⟩
  change b₂.pending.filter (· != rule) = b.pending
  rw [hpending₂, ← hpending]
  change (rule :: b₁.pending).filter (· != rule) = b₁.pending
  rw [List.filter_cons_of_neg (by simp), List.filter_eq_self]
  intro r hr
  simpa using fun heq : r = rule => hnot (heq ▸ hr)

/-! ### Schemas -/

/-- What a reference is made into is the name of its rule. -/
def Follows (g : SchemaGraph) (follow : String → Build Expr) : Prop :=
  ∀ name, (Schema.ref name).Within g.root →
    Makes g (follow name) fun names e => Renders names (.ref name) e

variable {follow : String → Build Expr}

theorem renders_keep (s : Schema) (wide narrow : RuleNames) (e : Expr)
    (hwide : RuleNames.Extends wide narrow) (h : Renders narrow s e) : Renders wide s e :=
  h.extend hwide

mutual

theorem expr_makes (hfollow : Follows g follow) (s : Schema) (hs : s.Within g.root) :
    Makes g (expr follow s) fun names e => Renders names s e := by
  have hparts {part : Schema} (hpart : part ∈ s.parts) : part.Within g.root := hs.part hpart
  match s with
  | .string rules => exact .lift fun e he _ => .string he
  | .integer ranges =>
    rw [expr]
    split
    · next hranges =>
      obtain rfl := List.isEmpty_iff.mp hranges
      exact .pure fun _ => .integer
    · exact .throw _
  | .number ranges =>
    rw [expr]
    split
    · next hranges =>
      obtain rfl := List.isEmpty_iff.mp hranges
      exact .pure fun _ => .number
    · exact .throw _
  | .boolean => exact .pure fun _ => .boolean
  | .array item counts =>
    have hitem : item.Within g.root := hparts (List.mem_singleton_self item)
    refine (expr_makes hfollow item hitem).bind (renders_keep item) fun e => ?_
    exact .lift fun whole hwhole _ he => .array he hwhole
  | .object name description properties =>
    refine namedRule_makes hs rfl ?_
    have hall : ∀ p ∈ properties, p.schema.Within g.root :=
      fun p hp => hparts (Schema.mem_parts_of_mem_properties hp)
    refine (members_makes hfollow properties hall).bind ?_ fun ms => ?_
    · intro wide narrow ms hwide hms
      refine hms.imp ?_
      rintro p m ⟨e, he, rfl⟩
      exact ⟨e, he.extend hwide, rfl⟩
    · exact .pure fun _ hms => .object hms name description
  | .union name description alternatives =>
    refine namedRule_makes hs rfl ?_
    split
    · exact .throw _
    · next hsome =>
      have hall : ∀ s ∈ alternatives, s.Within g.root := fun s hmem => hparts hmem
      refine (exprs_makes hfollow alternatives hall).bind ?_ fun es => ?_
      · exact fun wide narrow es hwide hes => hes.imp fun _ _ h => h.extend hwide
      · exact .pure fun _ hes =>
          .union hes (fun hnil => hsome (List.isEmpty_iff.mpr hnil)) name description
  | .ref name => exact hfollow name hs
termination_by sizeOf s

theorem members_makes (hfollow : Follows g follow) (properties : List (Property Schema))
    (hall : ∀ p ∈ properties, p.schema.Within g.root) :
    Makes g (members follow properties) fun names ms =>
      List.Forall₂ (fun p m => ∃ e, Renders names p.schema e ∧ m = memberExpr p.key p.optional e)
        properties ms := by
  match properties with
  | [] => exact .pure fun _ => .nil
  | ⟨key, s, description, optional⟩ :: properties =>
    obtain ⟨hs, hrest⟩ := List.forall_mem_cons.mp hall
    refine (expr_makes hfollow s hs).bind (renders_keep s) fun e => ?_
    refine (members_makes hfollow properties hrest).bind ?_ fun ms => ?_
    · intro wide narrow ms hwide hms
      refine hms.imp ?_
      rintro p m ⟨e, he, rfl⟩
      exact ⟨e, he.extend hwide, rfl⟩
    · exact .pure fun _ hms he => .cons ⟨e, he, rfl⟩ hms
termination_by sizeOf properties

theorem exprs_makes (hfollow : Follows g follow) (alternatives : List Schema)
    (hall : ∀ s ∈ alternatives, s.Within g.root) :
    Makes g (exprs follow alternatives) fun names es =>
      List.Forall₂ (Renders names) alternatives es := by
  match alternatives with
  | [] => exact .pure fun _ => .nil
  | s :: alternatives =>
    obtain ⟨hs, hrest⟩ := List.forall_mem_cons.mp hall
    refine (expr_makes hfollow s hs).bind (renders_keep s) fun e => ?_
    refine (exprs_makes hfollow alternatives hrest).bind ?_ fun es => ?_
    · exact fun wide narrow es hwide hes => hes.imp fun _ _ h => h.extend hwide
    · exact .pure fun _ hes he => .cons he hes
termination_by sizeOf alternatives

end

theorem follow_follows {named : NamedSchemas} (hg : g.Anchored)
    (hnamed : NamedSchemas.Recorded g named) (fuel : Nat) :
    Follows g (Grammar.follow g named fuel) := by
  induction fuel with
  | zero => exact fun name _ => .throw _
  | succ fuel ih =>
    intro name hname
    rw [Grammar.follow]
    split
    · next node hnode =>
      obtain ⟨hwithin, hdefines, hsame⟩ :
          node.Within g.root ∧ node.defines = true ∧ node.name? = some name := by
        rcases Option.or_eq_some_iff.mp hnode with hnode | ⟨-, hnode⟩
        · exact hnamed name node hnode
        · obtain ⟨found, hfound, hall⟩ := hg name hname
          obtain rfl := Option.some.inj (hfound.symm.trans hnode)
          exact hall
      refine (expr_makes ih node hwithin).imp fun names e he => ?_
      cases he with
      | named named ruled =>
        obtain rfl := Option.some.inj (hsame.symm.trans named)
        exact .named rfl ruled
      | _ => cases hsame
    · exact .throw _

/-- Rules for a schema: the start rule renders the root, and the rule of a name renders what
defines the name. -/
structure RulesFor (g : SchemaGraph) (names : RuleNames) (rules : List Rule) : Prop
    extends Grounded rules where
  root : ∃ start, ⟨"root", start⟩ ∈ rules ∧ Renders names g.root start
  named : ∀ name rule, Entries.get? names name = some rule → ∃ node body, ⟨rule, body⟩ ∈ rules ∧
    node.Within g.root ∧ node.name? = some name ∧ RendersBody names node body
  apart : (names.map (·.2)).Nodup
  free : ∀ rule ∈ names.map (·.2), rule ∉ reserved
  words : ∀ name rule, Entries.get? names name = some rule → IsWord rule.toList
  made : ∀ r ∈ rules, r ∈ primitiveRules ∨ IsWord r.name.toList ∧
    ∃ node : Schema, node.Within g.root ∧ (Renders names node r.body ∨ RendersBody names node r.body)

theorem exists_rulesFor {named : NamedSchemas} {rules : List Rule} (hg : g.Anchored)
    (hnamed : NamedSchemas.collect g = .ok named) (h : rulesOf g named = .ok rules) :
    ∃ names, RulesFor g names rules := by
  obtain ⟨⟨start, b⟩, hrun, hrules⟩ := Outcome.bind_eq_ok.mp h
  cases hrules
  have hfollows := follow_follows hg (NamedSchemas.recorded_of_collect hg hnamed)
    (named.schemas.length + g.table.length + 1)
  obtain ⟨hb, hbegun, hpending, -, hroot⟩ := expr_makes hfollows g.root (.refl _) _ _ _ sound_nil
    (fun _ _ hget => by cases hget) hrun
  have hrule {name rule : String} (hget : Entries.get? b.ruleNames name = some rule) :
      rule ∈ b.rules.map (·.name) := by
    refine (hbegun name rule hget).resolve_right ?_
    rw [hpending]
    exact List.not_mem_nil
  have hfree (rule : String) (hmem : rule ∈ b.rules.map (·.name)) : rule ∉ reserved := by
    obtain ⟨r, hr, rfl⟩ := List.mem_map.mp hmem
    obtain ⟨_, name, -, -, hget, -⟩ := hb.made r hr
    exact hb.free _ (List.mem_map_of_mem (Entries.mem_of_get? hget))
  have hword {name rule : String} (hget : Entries.get? b.ruleNames name = some rule) :
      IsWord rule.toList :=
    hb.words rule (List.mem_map_of_mem (Entries.mem_of_get? hget))
  refine ⟨b.ruleNames, ⟨⟨?_, ?_⟩, ⟨start, List.mem_cons_self, hroot⟩, ?_, hb.distinct,
    hb.free, fun _ _ => hword, fun r hr => ?_⟩⟩
  · rw [List.cons_append, List.map_cons, List.map_append, List.nodup_cons, List.mem_append, not_or,
      List.nodup_append']
    have hreserved : "root" ∉ primitiveRules.map (·.name) := by decide
    refine ⟨⟨?_, hreserved⟩, hb.once, by decide, ?_⟩
    · exact fun hmem => hfree _ hmem List.mem_cons_self
    · exact fun rule hmem hprimitive => hfree rule hmem (List.mem_cons_of_mem _ hprimitive)
  · exact fun r hr => List.mem_append_right _ hr
  · intro name rule hget
    obtain ⟨r, hr, rfl⟩ := List.mem_map.mp (hrule hget)
    obtain ⟨node, other, hnode, hother, hruled, hbody⟩ := hb.made r hr
    -- Two names with the same rule are the same.
    have hpair := List.inj_on_of_nodup_map hb.distinct (Entries.mem_of_get? hget)
      (Entries.mem_of_get? hruled) rfl
    obtain rfl := (Prod.mk.inj hpair).1
    refine ⟨node, r.body, ?_, hnode, hother, hbody⟩
    exact List.mem_append_left _ (List.mem_cons_of_mem _ hr)
  · rcases List.mem_append.mp hr with hr | hr
    · rcases List.mem_cons.mp hr with rfl | hr
      · have hname : IsWord "root".toList := ⟨by decide, List.all_eq_true.mp (by decide)⟩
        exact .inr ⟨hname, g.root, .refl _, .inl hroot⟩
      · obtain ⟨node, name, hnode, -, hruled, hbody⟩ := hb.made r hr
        exact .inr ⟨hword hruled, node, hnode, .inr hbody⟩
    · exact .inl hr

/-- What stands for a name derives what is derived from what defines the name. -/
theorem exists_defines_of_renders {ds : Declarations} {names : RoleNames} {ruleNames : RuleNames}
    {rules : List Rule} {shape : Shape} (hg : g.Closed ds names shape)
    (hrules : RulesFor g ruleNames rules) {described : Shape} {given : List Constraint} {s : Schema}
    {e : Expr} {name : String} (hs : Mirrors ds names s described given)
    (hname : s.name? = some name) (he : Renders ruleNames s e) :
    ∃ node body role, node.Within g.root ∧ RendersBody ruleNames node body ∧
      Defines ds names role node ∧ Entries.get? names role = some name ∧
      role.Describes ds described ∧
      ∀ depth cs, Derives rules (depth + 1) e cs ↔ Derives rules depth body cs := by
  cases he with
  | @named _ name' rule named ruled =>
    obtain rfl := Option.some.inj (hname.symm.trans named)
    obtain ⟨node, body, hmem, hwithin, hsame, hbody⟩ := hrules.named _ _ ruled
    obtain ⟨role, hrole, hnamed, hdescribes⟩ := hg.defines hs hname hwithin hbody.defines hsame
    exact ⟨node, body, role, hwithin, hbody, hrole, hnamed, hdescribes, fun _ _ =>
      derives_rule hrules.distinct hmem⟩
  | _ => cases hname

end StructuredOutput.Grammar

import StructuredOutput.Proofs.Backend.TextRules
import StructuredOutput.Proofs.Codec.Holds
import StructuredOutput.Proofs.Content.Serialize
import StructuredOutput.Proofs.Shape.Aliases

/-!
Literals with guides. The schema of a literal begins with the choice among its values, and each
guide is one more rule. As the last options count in both notations, a guide that names options
takes the place of the values, while decoding still asks for one of the values.
-/

namespace StructuredOutput

open Json

variable {ds : Declarations} {t : TypeExpr} {values : List String} {given : List TextRule}

/-! ### Schemas -/

/-- The options that guides leave a literal: those of the last guide that names any, or else its
values. -/
def guidedOptions (values : List String) (given : List TextRule) : List String :=
  (Grammar.lastOptions given).getD values

/-- The rules of a literal with guides. -/
def guidedRules (values : List String) (given : List TextRule) : List TextRule :=
  Derivation.choice values :: given

theorem options?_choice (values : List String) :
    (Derivation.choice values).options? = some values := by
  unfold Derivation.choice
  split <;> rfl

theorem lastOptions_guidedRules (values : List String) (given : List TextRule) :
    Grammar.lastOptions (guidedRules values given) = some (guidedOptions values given) := by
  rw [Grammar.lastOptions, guidedRules, Grammar.getLast?_filterMap_cons, options?_choice,
    guidedOptions, Grammar.lastOptions]
  cases (given.filterMap TextRule.options?).getLast? <;> rfl

theorem span?_choice (values : List String) : (Derivation.choice values).span? = none := by
  unfold Derivation.choice
  split <;> rfl

theorem spans_guidedRules (values : List String) (given : List TextRule) :
    (guidedRules values given).filterMap TextRule.span? = given.filterMap TextRule.span? :=
  List.filterMap_cons_none (span?_choice values)

theorem regex?_choice (values : List String) : (Derivation.choice values).regex? = none := by
  unfold Derivation.choice
  split <;> rfl

theorem lastRegex_guidedRules (values : List String) (given : List TextRule) :
    TextRule.lastRegex (guidedRules values given) = TextRule.lastRegex given := by
  rw [TextRule.lastRegex, guidedRules, List.filterMap_cons_none (regex?_choice values),
    TextRule.lastRegex]

/-- Refinements of texts are put behind the rules of a text. -/
theorem constrain_string (own given : List TextRule) :
    (Schema.string own).constrain (given.map .text) = .ok (.string (own ++ given)) := by
  induction given generalizing own with
  | nil => simp [Schema.constrain, pure, Except.pure]
  | cons rule given ih =>
    have hrest := ih (own ++ [rule])
    rw [List.append_assoc, List.singleton_append] at hrest
    exact hrest

/-- The schema of a literal with guides. -/
theorem deriveSchema_guided (hshape : ds.shapeOf t = .ok (.literal values (given.map .text))) :
    (ds.deriveSchema t).1 = .ok ⟨.string (guidedRules values given), []⟩ := by
  have hconstrain := constrain_string [Derivation.choice values] given
  have hbuild (fuel : Nat) : (Derivation.build ds (fuel + 1)
      (.literal values (given.map .text))).run .start =
        (.ok (.string (guidedRules values given)), .start) := by
    rw [Derivation.build, hconstrain]
    rfl
  obtain ⟨fuel, hfuel⟩ : ∃ fuel, ds.derivationDepth t = fuel + 1 := by
    refine Nat.exists_eq_add_one.mpr ?_
    unfold Declarations.derivationDepth
    positivity
  rw [Declarations.deriveSchema, hshape]
  dsimp only
  rw [hfuel, Derivation.arrays, hbuild]
  · rfl
  · rintro _ _ _ ⟨⟩

/-- A literal takes the rules of its guides in the order in which they are given. -/
theorem shapeOf_guided (ds : Declarations) (first : String) (rest : List String)
    (guides : List (List TextRule × Option String)) :
    ds.shapeOf (.annotated (.literal ((first :: rest).map .text))
      (guideNotes (guides.map fun g => (g.1.map .text, g.2)))) =
        .ok (.literal (first :: rest) ((guides.flatMap (·.1)).map .text)) := by
  have hrules : guided (guideNotes (guides.map fun g => (g.1.map .text, g.2))) =
      (guides.flatMap (·.1)).map .text := by
    rw [guided, guideNotes, List.flatMap_map, List.flatMap_map, List.map_flatMap]
  have hliteral : ds.shape? (.literal ((first :: rest).map .text)) [] =
      some (.literal (first :: rest) []) :=
    congrArg Except.toOption (ds.shapeOf_literal first rest)
  have hguided := ds.shape?_guideNotes (.literal ((first :: rest).map .text))
    (guides.map fun g => (g.1.map .text, g.2)) []
  rw [hrules, List.nil_append, Declarations.shape?_eq_bind (.literal _), hliteral,
    Option.bind_some, Shape.refine?, List.append_nil, Declarations.shape?] at hguided
  rw [Declarations.shapeOf]
  generalize ds.resolve _ _ _ _ = shape at hguided ⊢
  cases shape with
  | error fault => cases hguided
  | ok shape => rw [Option.some.inj hguided]

/-! ### Texts -/

theorem decode_literal_iff (hshape : ds.shapeOf t = .ok (.literal values (given.map .text)))
    (c : Content) : (∃ v, decode ds c t = .ok v) ↔ ∃ s ∈ values, c = .string s := by
  constructor
  · rintro ⟨v, hv⟩
    cases holds_of_decode hshape hv with
    | literal core option =>
      cases core
      exact ⟨_, option, rfl⟩
    | null optional => cases optional
    | object belongs => cases belongs
    | text core | bool core | real core | integer core | member core | array core => cases core
  · intro h
    rw [decode_eq hshape]
    exact Decodes.literal_iff.mpr h .top

/-- Whether an option keeps the last bounds and matches the last pattern that guides ask for. -/
def Kept (pattern : String → String → Bool) (given : List TextRule) (s : String) : Prop :=
  Span.Obeys (given.filterMap TextRule.span?) s.length ∧
    ∀ regex, TextRule.lastRegex given = some regex → pattern regex s = true

theorem valid_guided_iff (pattern : String → String → Bool) {c : Content} :
    Document.Valid pattern
        ((guidedRules values given).foldl Document.putRule [("type", .string "string")]) c ↔
      ∃ s ∈ guidedOptions values given, Kept pattern given s ∧ c = .string s := by
  have htext (s : String) : Document.Valid pattern
      ((guidedRules values given).foldl Document.putRule [("type", .string "string")])
        (.string s) ↔ s ∈ guidedOptions values given ∧ Kept pattern given s := by
    rw [Document.valid_rules_iff, lastOptions_guidedRules, spans_guidedRules, lastRegex_guidedRules]
    simp [Kept]
  constructor
  · intro h
    obtain ⟨s, rfl⟩ := Document.exists_text_of_valid h
    obtain ⟨hs, hkept⟩ := (htext s).mp h
    exact ⟨s, hs, hkept, rfl⟩
  · rintro ⟨s, hs, hkept, rfl⟩
    exact (htext s).mpr ⟨hs, hkept⟩

theorem admits_guided_iff (hvalues : values ≠ []) (hoffers : ∀ rule ∈ given, rule.offers = true)
    {settings : ProjectionSettings} {rules : List Grammar.Rule} {notices : List Notice}
    (hgrammar : SchemaGraph.project ⟨.string (guidedRules values given), []⟩ .gbnf settings =
      .ok (.grammar rules, notices)) (cs : List Char) :
    Grammar.Admits (Grammar.text rules) cs ↔
      ∃ s ∈ guidedOptions values given, cs = stringText false s.toList := by
  have hall : ∀ rule ∈ guidedRules values given, rule.offers = true :=
    List.forall_mem_cons.mpr ⟨offers_choice hvalues, hoffers⟩
  obtain ⟨start, htext, hgrounded, hadmits⟩ := exists_admits_text hall hgrammar
  have hderives (depth : Nat) : Grammar.Derives rules (depth + 4) start cs ↔
      ∃ s ∈ guidedOptions values given, cs = stringText false s.toList := by
    rw [Grammar.derives_textExpr hgrounded htext, lastOptions_guidedRules]
  rw [hadmits, exists_congr hderives, exists_const]

theorem decodeText_stringText_iff
    (hshape : ds.shapeOf t = .ok (.literal values (given.map .text))) (s : String) :
    (∃ v, decodeText ds (stringText false s.toList) t = .ok v) ↔ s ∈ values := by
  have hparse : Content.parse (stringText false s.toList) = .ok (.string s) := by
    have hexact := Content.parse_serialize (c := .string s) trivial (Nat.zero_le _) none
    rwa [toList_serialize_string] at hexact
  simp only [decodeText_eq_ok, hparse, Except.ok.injEq, exists_eq_left', decode_literal_iff hshape]
  simp

/-- The document and, where there is one, the grammar of a guided literal allow only what decodes,
just if the options that the guides leave are values: all of them in the grammar, and in the
document those that keep the bounds and the pattern. -/
theorem guides_narrow_iff (hshape : ds.shapeOf t = .ok (.literal values (given.map .text)))
    (hoffers : ∀ rule ∈ given, rule.offers = true) (settings : ProjectionSettings)
    (pattern : String → String → Bool) :
    ∃ g document notices, (ds.deriveSchema t).1 = .ok g ∧
      g.project .jsonSchema settings = .ok (.document document, notices) ∧
      ((∀ c, Document.Valid pattern document c → ∃ v, decode ds c t = .ok v) ↔
        ∀ s ∈ guidedOptions values given, Kept pattern given s → s ∈ values) ∧
      ∀ rules notices, g.project .gbnf settings = .ok (.grammar rules, notices) →
        ((∀ cs, Grammar.Admits (Grammar.text rules) cs → ∃ v, decodeText ds cs t = .ok v) ↔
          ∀ s ∈ guidedOptions values given, s ∈ values) := by
  refine ⟨_, _, _, deriveSchema_guided hshape, SchemaGraph.project_text _ _ _, ?_,
    fun rules notices hgrammar => ?_⟩
  · simp only [decode_literal_iff hshape, valid_guided_iff]
    constructor
    · intro h s hs hkept
      obtain ⟨u, hu, heq⟩ := h (.string s) ⟨s, hs, hkept, rfl⟩
      cases heq
      exact hu
    · rintro h _ ⟨s, hs, hkept, rfl⟩
      exact ⟨s, h s hs hkept, rfl⟩
  · simp only [admits_guided_iff (Declarations.coherent_of_shapeOf hshape) hoffers hgrammar]
    constructor
    · exact fun h s hs => (decodeText_stringText_iff hshape s).mp (h _ ⟨s, hs, rfl⟩)
    · rintro h _ ⟨s, hs, rfl⟩
      exact (decodeText_stringText_iff hshape s).mpr (h s hs)

/-- A guide with a bound and then one with options. -/
def sizeGuides : List (List TextRule × Option String) :=
  [([.length ⟨some 2, some 2, rfl⟩], some "a size"), ([.oneOf ["xl", "l"]], none)]

def sizeType : TypeExpr :=
  .annotated (.literal (["s", "l", "xl"].map .text))
    (guideNotes (sizeGuides.map fun g => (g.1.map .text, g.2)))

theorem guides_narrow_iff_sizeType :
    (Declarations.empty.shapeOf sizeType =
        .ok (.literal ["s", "l", "xl"] ((sizeGuides.flatMap (·.1)).map .text)) ∧
      ∀ rule ∈ sizeGuides.flatMap (·.1), rule.offers = true) ∧
    ∃ g document notices rules notices', (Declarations.empty.deriveSchema sizeType).1 = .ok g ∧
      g.project .jsonSchema .standard = .ok (.document document, notices) ∧
      (∀ c, Document.Valid (fun _ _ => true) document c →
        ∃ v, decode Declarations.empty c sizeType = .ok v) ∧
      g.project .gbnf .standard = .ok (.grammar rules, notices') ∧
      ∀ cs, Grammar.Admits (Grammar.text rules) cs →
        ∃ v, decodeText Declarations.empty cs sizeType = .ok v := by
  have hshape := shapeOf_guided Declarations.empty "s" ["l", "xl"] sizeGuides
  have hoffers : ∀ rule ∈ sizeGuides.flatMap (·.1), rule.offers = true := by decide
  have hvalues : ∀ s ∈ guidedOptions ["s", "l", "xl"] (sizeGuides.flatMap (·.1)),
      s ∈ ["s", "l", "xl"] := by decide
  obtain ⟨g, document, notices, hg, hdocument, hvalid, hadmits⟩ :=
    guides_narrow_iff hshape hoffers .standard fun _ _ => true
  obtain rfl := Except.ok.inj ((deriveSchema_guided hshape).symm.trans hg)
  exact ⟨⟨hshape, hoffers⟩, _, document, notices, _, _, hg, hdocument,
    hvalid.mpr fun s hs _ => hvalues s hs, rfl, (hadmits _ _ rfl).mpr hvalues⟩

/-- A literal with a guide that names one of its values and an option which is none of them. -/
def strayType : TypeExpr :=
  .annotated (.literal [.text "a", .text "b"]) [.guide [.text (.oneOf ["b", "c"])] none]

/-- Both notations allow the stray option, which does not decode. -/
theorem not_guides_narrow :
    ∃ g document notices rules notices', (Declarations.empty.deriveSchema strayType).1 = .ok g ∧
      g.project .jsonSchema .standard = .ok (.document document, notices) ∧
      (∀ pattern, Document.Valid pattern document (.string "c")) ∧
      g.project .gbnf .standard = .ok (.grammar rules, notices') ∧
      Grammar.Admits (Grammar.text rules) (stringText false "c".toList) ∧
      ∀ v, decode Declarations.empty (.string "c") strayType ≠ .ok v := by
  have hshape : Declarations.empty.shapeOf strayType =
      .ok (.literal ["a", "b"] ([TextRule.oneOf ["b", "c"]].map .text)) :=
    shapeOf_guided .empty "a" ["b"] [([.oneOf ["b", "c"]], none)]
  have hgrammar :
      SchemaGraph.project ⟨.string (guidedRules ["a", "b"] [.oneOf ["b", "c"]]), []⟩
          .gbnf .standard =
        .ok (.grammar (⟨"root", .group (.alt (["b", "c"].map Grammar.quotedTerminal))⟩ ::
          Grammar.primitiveRules), [.schemaProjected "gbnf" "response" 0]) := rfl
  have hstray : "c" ∈ guidedOptions ["a", "b"] [.oneOf ["b", "c"]] := by decide
  refine ⟨_, _, _, _, _, deriveSchema_guided hshape, SchemaGraph.project_text _ _ _,
    fun pattern => ?_, hgrammar, ?_, fun v hv => ?_⟩
  · have hkept : Kept pattern [.oneOf ["b", "c"]] "c" := by
      refine ⟨⟨?_, ?_⟩, ?_⟩ <;> rintro _ ⟨⟩
    exact (valid_guided_iff pattern).mpr ⟨"c", hstray, hkept, rfl⟩
  · exact (admits_guided_iff (by decide) (by decide) hgrammar _).mpr ⟨"c", hstray, rfl⟩
  · obtain ⟨s, hs, heq⟩ := (decode_literal_iff hshape _).mp ⟨v, hv⟩
    cases heq
    exact absurd hs (by decide)

end StructuredOutput

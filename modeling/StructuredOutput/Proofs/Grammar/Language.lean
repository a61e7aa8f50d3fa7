import StructuredOutput.Backend.Projection
import StructuredOutput.Proofs.Grammar.Encoded
import StructuredOutput.Proofs.Grammar.Generated
import StructuredOutput.Proofs.Grammar.RuleText

/-!
The language of the grammar that a type is projected to, read off the text of the grammar: what it
generates decodes and keeps the bounds that are declared, and it generates what a value of the type
is written as, if the value meets the refinements that a grammar can state.
-/

namespace StructuredOutput

open Json

variable {ds : Declarations} {t : TypeExpr} {shape : Shape} {g : SchemaGraph}
  {settings : ProjectionSettings} {rules : List Grammar.Rule} {notices : List Notice}

theorem SchemaGraph.rules_of_project
    (h : g.project .gbnf settings = .ok (.grammar rules, notices)) :
    ∃ named, NamedSchemas.collect g = .ok named ∧ Grammar.rulesOf g named = .ok rules := by
  obtain ⟨named, hnamed, h⟩ := Outcome.bind_eq_ok.mp h
  refine ⟨named, hnamed, ?_⟩
  rw [if_pos rfl] at h
  obtain ⟨projected, hprojected, h⟩ := Outcome.bind_eq_ok.mp h
  obtain ⟨made, hmade, rfl⟩ := Outcome.map_eq_ok.mp hprojected
  cases h
  exact hmade

namespace Grammar

theorem exists_rulesFor_of_project (hshape : ds.shapeOf t = .ok shape)
    (hderive : (ds.deriveSchema t).1 = .ok g)
    (hproject : g.project .gbnf settings = .ok (.grammar rules, notices)) :
    ∃ names ruleNames, g.Closed ds names shape ∧ RulesFor g ruleNames rules := by
  obtain ⟨names, hclosed⟩ := Declarations.closed_of_deriveSchema hshape hderive
  obtain ⟨named, hnamed, hrules⟩ := SchemaGraph.rules_of_project hproject
  obtain ⟨ruleNames, hruled⟩ := exists_rulesFor hclosed.anchored hnamed hrules
  exact ⟨names, ruleNames, hclosed, hruled⟩

section

variable {names : RoleNames} {ruleNames : RuleNames} {cs : List Char}

/-- The rules generate what the expression of the root derives. -/
theorem RulesFor.exists_start (h : RulesFor g ruleNames rules) :
    ∃ start, Renders ruleNames g.root start ∧
      ∀ cs, Generates rules cs ↔ ∃ depth, Derives rules depth start cs := by
  obtain ⟨start, hstart, hrenders⟩ := h.root
  refine ⟨start, hrenders, fun cs => ⟨?_, ?_⟩⟩
  · rintro ⟨depth, hderives⟩
    obtain _ | depth := depth
    · exact absurd hderives not_derives_rule
    · exact ⟨depth, (derives_rule h.distinct hstart).mp hderives⟩
  · rintro ⟨depth, hderives⟩
    exact ⟨depth + 1, (derives_rule h.distinct hstart).mpr hderives⟩

/-- What the rules of a type generate is read as content that conforms to the type. -/
theorem readsAs_of_generates (hg : g.Closed ds names shape) (hrules : RulesFor g ruleNames rules)
    (hguides : Unguided ds shape) (hcs : Generates rules cs) :
    ReadsAs (fun c => Conforms ds Bounded c shape shape.constraints) cs := by
  obtain ⟨start, hrenders, hstart⟩ := hrules.exists_start
  obtain ⟨depth, hderives⟩ := (hstart cs).mp hcs
  exact reads hg hrules depth g.root shape shape.constraints start cs hg.root (.refl g.root) hguides
    (hguides shape (.refl shape)) hrenders hderives

/-- The rules of a type generate what content is written as that conforms to the type. -/
theorem generates_of_conforms (hg : g.Closed ds names shape) (hrules : RulesFor g ruleNames rules)
    {c : Content} (hc : Conforms ds Sayable c shape shape.constraints) :
    Generates rules (c.serialize none).toList := by
  obtain ⟨start, hrenders, hstart⟩ := hrules.exists_start
  rw [hstart, Content.serialize, write, String.toList_ofList]
  exact derivable hg hrules c shape shape.constraints g.root start 0 hc hg.root (.refl g.root)
    hrenders

end

end Grammar

/-! ### The grammar of a recursive record -/

namespace Basket

/-- The rules of a basket, which refers to itself. -/
def grammar : List Grammar.Rule :=
  match graph.project .gbnf .standard with
  | .ok (.grammar rules, _) => rules
  | _ => []

theorem project_gbnf : graph.project .gbnf .standard =
    .ok (.grammar grammar, [.schemaProjected "gbnf" "Basket" 1]) := rfl

theorem sayable_text {s : String} {constraints given : List Constraint}
    (hmeets : Meets (fun _ _ => true) (.text s) (.primitive .text constraints) given)
    (hkept : Grammar.delete ∉ s.toList) :
    Sayable (.text s) (.primitive .text constraints) given where
  meets c hc _ := hmeets c hc
  kept := by
    rintro s constraints ⟨rfl⟩ - -
    exact hkept
  small := by rintro _ _ ⟨⟩

theorem sayable_other {aspect : Aspect} {shape : Shape} {given : List Constraint}
    (hmeets : Meets (fun _ _ => true) aspect shape given)
    (hshape : ∀ type constraints, shape ≠ .primitive type constraints) :
    Sayable aspect shape given where
  meets c hc _ := hmeets c hc
  kept _ _ _ heq _ := absurd heq (hshape _ _)
  small _ _ _ heq := absurd heq (hshape _ _)

/-- A grammar can state what a basket is to meet, if its texts have no delete character. -/
theorem sayable {label : String} {picks : List String} {next : Value}
    (hmeets : Satisfies baskets (fun _ _ => true) (value label picks next) basket)
    (hlabel : Grammar.delete ∉ label.toList) (hpicks : ∀ s ∈ picks, Grammar.delete ∉ s.toList)
    (hnext : ∀ s, Inside baskets s ⟨next, .optional basket, []⟩ →
      Sayable s.value.aspect s.shape s.rules) :
    ∀ s, Inside baskets s ⟨value label picks next, basket, []⟩ →
      Sayable s.value.aspect s.shape s.rules := by
  intro s hs
  have hmeets := hmeets s hs
  cases hs with
  | refl => exact sayable_other hmeets (by simp [basket])
  | @field _ _ _ given f v read resolved mem hgiven inner =>
    obtain rfl : given = fields := Except.ok.inj (resolved.symm.trans fieldShapes_basket)
    simp only [fields, List.mem_cons, List.not_mem_nil, or_false] at mem
    rcases mem with rfl | rfl | rfl
    · cases hgiven
      change Inside baskets s ⟨.text label, .primitive .text labelRules, labelRules⟩ at inner
      cases inner
      exact sayable_text hmeets hlabel
    · cases hgiven
      change Inside baskets s ⟨.list (picks.map .text), .array (.primitive .text []) .list pickRules,
        pickRules⟩ at inner
      cases inner with
      | refl => exact sayable_other hmeets (by simp)
      | item hmem inner =>
        obtain ⟨pick, hpick, rfl⟩ := List.mem_map.mp hmem
        cases inner
        exact sayable_text hmeets (hpicks pick hpick)
    · cases hgiven
      exact hnext s inner

theorem sayable_nested :
    ∀ s, Inside baskets s ⟨nested, basket, []⟩ → Sayable s.value.aspect s.shape s.rules := by
  have hinner : Satisfies baskets (fun _ _ => true) (value "é" ["b"] .null) basket :=
    satisfies (by decide) (by decide) (by decide) satisfies_null
  refine sayable satisfies_nested (by decide) (by decide) ?_
  intro s hs
  cases hs with
  | refl => exact sayable_other (satisfies_present hinner _ .refl) (by simp)
  | field read => cases read
  | present inner =>
    refine sayable hinner (by decide) (by decide) ?_ s inner
    intro s hs
    have hmeets : Meets (fun _ _ => true) s.value.aspect s.shape s.rules := satisfies_null s hs
    cases hs with
    | refl => exact sayable_other hmeets (by simp)
    | present inner =>
      cases inner
      exact sayable_other hmeets (by simp [basket])

/-- The shapes that a basket reaches. -/
def Within (s : Shape) : Prop :=
  s = basket ∨ s = .optional basket ∨ s = .primitive .text labelRules ∨
    s = .array (.primitive .text []) .list pickRules ∨ s = .primitive .text []

theorem within_of_reaches {s : Shape} (h : Reaches baskets basket s) : Within s := by
  refine h.of_closed (fun inner hinner => ?_) (fun item container constraints harray => ?_)
    (fun whole id given f hwhole hid hgiven hf => ?_) (.inl rfl)
  · rcases hinner with h | h | h | h | h <;> cases h
    exact .inl rfl
  · rcases harray with h | h | h | h | h <;> cases h
    exact .inr (.inr (.inr (.inr rfl)))
  · obtain rfl : id = "Basket" := by
      rcases hwhole with rfl | rfl | rfl | rfl | rfl <;>
        first | exact List.mem_singleton.mp hid | cases hid
    obtain rfl : given = fields := Except.ok.inj (hgiven.symm.trans fieldShapes_basket)
    simp only [fields, List.mem_cons, List.not_mem_nil, or_false] at hf
    rcases hf with rfl | rfl | rfl
    · exact .inr (.inr (.inl rfl))
    · exact .inr (.inr (.inr (.inl rfl)))
    · exact .inr (.inl rfl)

theorem unguided : Unguided baskets basket := by
  intro s hs c hc
  rcases within_of_reaches hs with rfl | rfl | rfl | rfl | rfl
  · cases hc
  · cases hc
  · trivial
  · simp only [Shape.constraints, pickRules, List.mem_cons, List.not_mem_nil, or_false] at hc
    rcases hc with rfl | rfl <;> trivial
  · cases hc

theorem offering : Offering baskets basket := by
  intro s hs c hc
  have hall : ∀ c ∈ labelRules ++ pickRules, c.offers = true := by decide
  rcases within_of_reaches hs with rfl | rfl | rfl | rfl | rfl
  · cases hc
  · cases hc
  · exact hall c (List.mem_append_left _ hc)
  · exact hall c (List.mem_append_right _ hc)
  · cases hc

/-- A basket in a basket as content. -/
def nestedContent : Content :=
  .object [("label", .string "cart"), ("picks", .array [.string "a", .string "b"]),
    ("next", .object [("label", .string "é"), ("picks", .array [.string "b"]), ("next", .null)])]

def nestedText : List Char :=
  "\x7b\"label\":\"cart\",\"picks\":[\"a\",\"b\"],\"next\":\x7b\"label\":\"é\",\"picks\":[\"b\"],\"next\":null\x7d\x7d".toList

theorem encode_nested : encode baskets nested (some (.named "Basket")) = .ok nestedContent := by
  have hself : baskets.isSubrecord "Basket" "Basket" = true := by cbv
  simp [encode, shapeOf_basket, Encoding.value, Encoding.values, nested, value, basket, Shape.core,
    hself, fieldShapes_basket, Except.mapError, fields, bind, Except.bind, pure, Except.pure,
    Encoding.field, Encoding.leaf, Encoding.primitive, List.mapM_cons, Value.base, Functor.map,
    Except.map, Content.ofEntries, Entries.ofList, Entries.putAll, Entries.put, nestedContent]

theorem serialize_nestedContent : (nestedContent.serialize none).toList = nestedText := by
  decide +kernel

theorem readable_nestedText : Readable nestingLimit (marks nestedText) := by
  have hmarks : marks nestedText =
      [.opens, .opens, .closes, .opens, .opens, .closes, .closes, .closes] := by cbv
  rw [hmarks]
  exact ⟨by simp, by simp, rfl⟩

theorem admits_nestedText : Grammar.Admits (Grammar.text grammar) nestedText := by
  obtain ⟨names, ruleNames, hg, hrules⟩ :=
    Grammar.exists_rulesFor_of_project shapeOf_basket deriveSchema_basket project_gbnf
  obtain ⟨c, hc, hconforms⟩ :=
    wellTyped_nested.encodesTo hg.resolves hg.untagged sayable_nested .top
  obtain rfl : nestedContent = c := by
    have hencode := encode_nested
    rw [encode, shapeOf_basket] at hencode
    exact Except.ok.inj (hencode.symm.trans hc)
  obtain ⟨rules', hrules'⟩ : ∃ rules', List.Forall₂ (Grammar.Rule.ReadAs true) _ rules' :=
    hrules.exists_read (.inl rfl)
  rw [← serialize_nestedContent]
  exact Grammar.admits_of_generates hrules' (Grammar.generates_of_conforms hg hrules hconforms)

end Basket

/-! ### What is generated decodes, and what is encoded is generated -/

/-- A text that the grammar of a type generates holds a value of the type, and its arrays and free
strings keep the last bounds that are declared for them. No refinement sets the options of a
literal or leaves a text without options, the number literals of the text round to finite doubles,
it has no escapes of surrogates, and it is not nested too deep to be read. -/
theorem decodeText_of_admits (hshape : ds.shapeOf t = .ok shape) (hguides : Unguided ds shape)
    (hoffers : Offering ds shape) (hderive : (ds.deriveSchema t).1 = .ok g)
    (hproject : g.project .gbnf settings = .ok (.grammar rules, notices)) {cs : List Char}
    (hcs : Grammar.Admits (Grammar.text rules) cs) (hread : Readable nestingLimit (marks cs)) :
    ∃ c v, Content.parse cs = .ok c ∧ Conforms ds Bounded c shape shape.constraints ∧
      decodeText ds cs t = .ok v := by
  obtain ⟨names, ruleNames, hg, hrules⟩ := Grammar.exists_rulesFor_of_project hshape hderive hproject
  have hcoherent := Declarations.coherent_of_shapeOf hshape
  have hroot : g.root.Offers :=
    hg.root.offers hcoherent hoffers (hoffers shape (.refl shape))
  obtain ⟨rules', hrules'⟩ : ∃ rules', List.Forall₂ (Grammar.Rule.ReadAs false) _ rules' :=
    hrules.exists_read (.inr hroot)
  have hgenerates := Grammar.generates_of_admits hrules' hcs
  obtain ⟨c, hparse, hconforms⟩ :=
    (Grammar.readsAs_of_generates hg hrules hguides hgenerates).parse hread
  obtain ⟨v, hv⟩ := hconforms.decodes hcoherent hg.untagged .top
  rw [← decode_eq hshape] at hv
  exact ⟨c, v, hparse, hconforms, decodeText_eq_ok.mpr ⟨c, hparse, hv⟩⟩

open Basket in
theorem decodeText_of_admits_basket :
    baskets.shapeOf (.named "Basket") = .ok basket ∧ Unguided baskets basket ∧
      Offering baskets basket ∧ (baskets.deriveSchema (.named "Basket")).1 = .ok graph ∧
      graph.project .gbnf .standard =
        .ok (.grammar grammar, [.schemaProjected "gbnf" "Basket" 1]) ∧
      Grammar.Admits (Grammar.text grammar) nestedText ∧
      Readable nestingLimit (marks nestedText) ∧
      ∃ c v, Content.parse nestedText = .ok c ∧ Conforms baskets Bounded c basket [] ∧
        decodeText baskets nestedText (.named "Basket") = .ok v :=
  ⟨shapeOf_basket, unguided, offering, deriveSchema_basket, project_gbnf, admits_nestedText,
    readable_nestedText,
    decodeText_of_admits shapeOf_basket unguided offering deriveSchema_basket project_gbnf
      admits_nestedText readable_nestedText⟩

/-- The grammar of a type generates what a value of the type is written as, if its parts meet what a
grammar can state: no free text has a delete character, integers are small enough to be told apart
from their neighbours, and lengths, counts and options are as declared. -/
theorem admits_encode (hshape : ds.shapeOf t = .ok shape) (hderive : (ds.deriveSchema t).1 = .ok g)
    (hproject : g.project .gbnf settings = .ok (.grammar rules, notices)) {v : Value}
    (hv : WellTyped ds v shape)
    (hsayable : ∀ s, Inside ds s ⟨v, shape, shape.constraints⟩ →
      Sayable s.value.aspect s.shape s.rules) :
    ∃ c, encode ds v (some t) = .ok c ∧
      Grammar.Admits (Grammar.text rules) (c.serialize none).toList := by
  obtain ⟨names, ruleNames, hg, hrules⟩ := Grammar.exists_rulesFor_of_project hshape hderive hproject
  obtain ⟨c, hc, hconforms⟩ := hv.encodesTo hg.resolves hg.untagged hsayable .top
  obtain ⟨rules', hrules'⟩ : ∃ rules', List.Forall₂ (Grammar.Rule.ReadAs true) _ rules' :=
    hrules.exists_read (.inl rfl)
  refine ⟨c, by simp [encode, hshape, hc], ?_⟩
  exact Grammar.admits_of_generates hrules' (Grammar.generates_of_conforms hg hrules hconforms)

open Basket in
theorem admits_encode_basket :
    baskets.shapeOf (.named "Basket") = .ok basket ∧
      (baskets.deriveSchema (.named "Basket")).1 = .ok graph ∧
      graph.project .gbnf .standard =
        .ok (.grammar grammar, [.schemaProjected "gbnf" "Basket" 1]) ∧
      WellTyped baskets nested basket ∧
      (∀ s, Inside baskets s ⟨nested, basket, basket.constraints⟩ →
        Sayable s.value.aspect s.shape s.rules) ∧
      ∃ c, encode baskets nested (some (.named "Basket")) = .ok c ∧
        Grammar.Admits (Grammar.text grammar) (c.serialize none).toList :=
  ⟨shapeOf_basket, deriveSchema_basket, project_gbnf, wellTyped_nested, sayable_nested,
    admits_encode shapeOf_basket deriveSchema_basket project_gbnf wellTyped_nested sayable_nested⟩

end StructuredOutput

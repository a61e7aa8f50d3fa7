import StructuredOutput.Proofs.Document.Members
import StructuredOutput.Proofs.Grammar.Language
import StructuredOutput.Proofs.Grammar.Unsayable

/-!
The texts that the rules of a text leave, in both notations. A JSON Schema document asks for the
last options and for the last bounds of the length; a grammar asks for the last options or, where
there are none, for the last bounds. So the notations allow the same texts just if the options keep
the bounds.
-/

namespace StructuredOutput

open Json

/-! ### Texts that a grammar derives -/

namespace Grammar

variable {rules : List Rule} {depth : Nat} {given : List TextRule} {s t : String} {e : Expr}

/-- No part of a string is the beginning of another one, or of the end of the string. -/
theorem charText_append_inj {p q cs ds : List Char} (hp : CharText p) (hq : CharText q)
    (h : p ++ cs = q ++ ds) : p = q ∧ cs = ds := by
  have hlength : p.length = q.length := by
    cases hp with
    | plain quotable =>
      cases hq with
      | plain => rfl
      | escape | unit => exact absurd (List.cons.inj h).1 quotable.2.1
    | escape stands =>
      cases hq with
      | plain quotable => exact absurd (List.cons.inj h).1.symm quotable.2.1
      | escape => rfl
      | unit => exact absurd (List.cons.inj (List.cons.inj h).2).1 (ne_of_escaped? stands)
    | unit =>
      cases hq with
      | plain quotable => exact absurd (List.cons.inj h).1.symm quotable.2.1
      | escape stands =>
        exact absurd (List.cons.inj (List.cons.inj h).2).1.symm (ne_of_escaped? stands)
      | unit => rfl
  exact List.append_inj h hlength

theorem charText_ne_quote {p cs : List Char} (hp : CharText p) : p ++ cs ≠ ['"'] := by
  intro h
  cases hp with
  | plain quotable => exact quotable.1 (List.cons.inj h).1
  | escape | unit => cases (List.cons.inj h).1

/-- A string has only one division into parts. -/
theorem quoted_inj {parts others : List (List Char)} (hparts : ∀ p ∈ parts, CharText p)
    (hothers : ∀ p ∈ others, CharText p) (h : quoted parts = quoted others) : parts = others := by
  replace h := (List.cons.inj h).2
  induction parts generalizing others with
  | nil =>
    cases others with
    | nil => rfl
    | cons q others =>
      rw [List.flatten_cons, List.append_assoc] at h
      exact absurd h.symm (charText_ne_quote (hothers q List.mem_cons_self))
  | cons p parts ih =>
    obtain ⟨hp, hparts⟩ := List.forall_mem_cons.mp hparts
    cases others with
    | nil =>
      rw [List.flatten_cons, List.append_assoc] at h
      exact absurd h (charText_ne_quote hp)
    | cons q others =>
      obtain ⟨hq, htail⟩ := List.forall_mem_cons.mp hothers
      rw [List.flatten_cons, List.flatten_cons, List.append_assoc, List.append_assoc] at h
      obtain ⟨rfl, hrest⟩ := charText_append_inj hp hq h
      rw [ih hparts htail hrest]

theorem stringText_inj (h : stringText false s.toList = stringText false t.toList) : s = t := by
  have hs := readString_stringText s.toList []
  have ht := readString_stringText t.toList []
  rw [h, ht] at hs
  simpa using (Prod.mk.inj (Except.ok.inj hs)).1.symm

theorem freeText_stringText_iff {spans : List Span} (hkept : delete ∉ s.toList) :
    FreeText spans (stringText false s.toList) ↔ Span.Obeys spans s.length := by
  refine ⟨?_, freeText_stringText hkept⟩
  rintro ⟨parts, htext, hobeys, hparts⟩
  rw [quoted_map] at htext
  have hchars : ∀ p ∈ s.toList.map (escapedChar false), CharText p :=
    List.forall_mem_map.mpr fun c hc => charText_escapedChar fun h => hkept (h ▸ hc)
  rw [← quoted_inj hchars hparts htext, List.length_map, String.length_toList] at hobeys
  exact hobeys

/-- What the rules of a text leave for a grammar: one of the last options or, without options, any
text whose length keeps the last bounds. -/
theorem derives_stringText_iff (h : Grounded rules) (he : textExpr given = .ok e)
    (hkept : delete ∉ s.toList) :
    Derives rules (depth + 4) e (stringText false s.toList) ↔
      match lastOptions given with
      | some options => s ∈ options
      | none => Span.Obeys (given.filterMap TextRule.span?) s.length := by
  rw [derives_textExpr h he]
  cases lastOptions given with
  | some options =>
    constructor
    · rintro ⟨t, ht, heq⟩
      rwa [stringText_inj heq]
    · exact fun hs => ⟨s, hs, rfl⟩
  | none => exact freeText_stringText_iff hkept

end Grammar

/-! ### Texts that a document allows -/

namespace TextRule

/-- The pattern that a rule asks for. -/
def regex? : TextRule → Option String
  | pattern regex => some regex
  | _ => none

/-- The last pattern that rules ask for. -/
def lastRegex (given : List TextRule) : Option String := (given.filterMap regex?).getLast?

theorem lastRegex_eq_none {given : List TextRule} :
    lastRegex given = none ↔ ∀ regex, .pattern regex ∉ given := by
  rw [lastRegex, List.getLast?_eq_none_iff, List.filterMap_eq_nil_iff]
  constructor
  · intro h regex hmem
    cases h _ hmem
  · intro h rule hrule
    cases rule with
    | pattern regex => exact absurd hrule (h regex)
    | constant | oneOf | length => rfl

end TextRule

namespace Document

variable {given : List TextRule} {members : Members} {pattern : String → String → Bool} {s : String}

/-- A member that every step sets or leaves alone has the value that is set last. -/
theorem get?_foldl {α : Type} {step : Members → α → Members} {key : String} (f : α → Option Json)
    (hstep : ∀ members x,
      Entries.get? (step members x) key = (f x).or (Entries.get? members key)) (xs : List α) :
    Entries.get? (xs.foldl step members) key =
      (xs.filterMap f).getLast?.or (Entries.get? members key) := by
  induction xs generalizing members with
  | nil => rfl
  | cons x xs ih =>
    rw [List.foldl_cons, ih, hstep, Grammar.getLast?_filterMap_cons, Option.or_assoc]

theorem get?_putIf_self (members : Members) (key : String) (value : Option Json) :
    Entries.get? (putIf members key value) key = value.or (Entries.get? members key) := by
  cases value with
  | none => rfl
  | some v => exact Entries.get?_put_self members key v

theorem get?_enum (given : List TextRule) :
    Entries.get? (given.foldl putRule [("type", .string "string")]) "enum" =
      (Grammar.lastOptions given).map fun options => .array (options.map .string) := by
  rw [get?_foldl fun rule => rule.options?.map fun options => .array (options.map .string)]
  · rw [Grammar.lastOptions, ← List.getLast?_map, List.map_filterMap]
    exact Option.or_none
  · intro members rule
    cases rule with
    | pattern => exact Entries.get?_put_of_ne _ _ (by decide)
    | constant | oneOf => exact Entries.get?_put_self _ _ _
    | length => rw [putRule, get?_putIf (by decide), get?_putIf (by decide)]; rfl

theorem get?_minLength (given : List TextRule) :
    Entries.get? (given.foldl putRule [("type", .string "string")]) "minLength" =
      (Span.lastLower (given.filterMap TextRule.span?)).map count := by
  rw [get?_foldl fun rule => (rule.span?.bind (·.lower)).map count]
  · rw [Span.lastLower, List.filterMap_filterMap, ← List.getLast?_map, List.map_filterMap]
    exact Option.or_none
  · intro members rule
    cases rule with
    | pattern | constant | oneOf => exact Entries.get?_put_of_ne _ _ (by decide)
    | length => rw [putRule, get?_putIf (by decide), get?_putIf_self]; rfl

theorem get?_maxLength (given : List TextRule) :
    Entries.get? (given.foldl putRule [("type", .string "string")]) "maxLength" =
      (Span.lastUpper (given.filterMap TextRule.span?)).map count := by
  rw [get?_foldl fun rule => (rule.span?.bind (·.upper)).map count]
  · rw [Span.lastUpper, List.filterMap_filterMap, ← List.getLast?_map, List.map_filterMap]
    exact Option.or_none
  · intro members rule
    cases rule with
    | pattern | constant | oneOf => exact Entries.get?_put_of_ne _ _ (by decide)
    | length => rw [putRule, get?_putIf_self, get?_putIf (by decide)]; rfl

theorem get?_pattern (given : List TextRule) :
    Entries.get? (given.foldl putRule [("type", .string "string")]) "pattern" =
      (TextRule.lastRegex given).map .string := by
  rw [get?_foldl fun rule => rule.regex?.map .string]
  · rw [TextRule.lastRegex, ← List.getLast?_map, List.map_filterMap]
    exact Option.or_none
  · intro members rule
    cases rule with
    | pattern => exact Entries.get?_put_self _ _ _
    | constant | oneOf => exact Entries.get?_put_of_ne _ _ (by decide)
    | length => rw [putRule, get?_putIf (by decide), get?_putIf (by decide)]; rfl

/-- What the rules of a text leave for a document: the texts among the last options, if there are
any, whose length keeps the last bounds and which match the last pattern. -/
theorem valid_rules_iff :
    Valid pattern (given.foldl putRule [("type", .string "string")]) (.string s) ↔
      (∀ options, Grammar.lastOptions given = some options → s ∈ options) ∧
        Span.Obeys (given.filterMap TextRule.span?) s.length ∧
          ∀ regex, TextRule.lastRegex given = some regex → pattern regex s = true := by
  set document := given.foldl putRule [("type", .string "string")] with hdocument
  have henum := get?_enum given
  have hmin := get?_minLength given
  have hmax := get?_maxLength given
  have hpattern := get?_pattern given
  rw [← hdocument] at henum hmin hmax hpattern
  constructor
  · rintro ⟨_ | depth, hvalid⟩
    · cases hvalid
    have hmet := satisfies_iff.mp hvalid
    refine ⟨fun options hoptions => ?_, ⟨fun least hleast => ?_, fun greatest hgreatest => ?_⟩,
      fun regex hregex => ?_⟩
    · rw [hoptions] at henum
      simpa [keyword, isOption, equals] using hmet _ _ henum
    · rw [Option.mem_def.mp hleast] at hmin
      simpa [keyword, sized, characters?, count] using hmet _ _ hmin
    · rw [Option.mem_def.mp hgreatest] at hmax
      simpa [keyword, sized, characters?, count] using hmet _ _ hmax
    · rw [hregex] at hpattern
      simpa [keyword, matchesPattern] using hmet _ _ hpattern
  · rintro ⟨hoptions, ⟨hleast, hgreatest⟩, hregex⟩
    refine ⟨1, satisfies_iff.mpr fun key value hget => ?_⟩
    by_cases hkeyEnum : key = "enum"
    · subst hkeyEnum
      obtain ⟨options, hlast, rfl⟩ := Option.map_eq_some_iff.mp (henum.symm.trans hget)
      simpa [keyword, isOption, equals] using hoptions options hlast
    by_cases hkeyMin : key = "minLength"
    · subst hkeyMin
      obtain ⟨least, hlast, rfl⟩ := Option.map_eq_some_iff.mp (hmin.symm.trans hget)
      simpa [keyword, sized, characters?, count] using hleast least hlast
    by_cases hkeyMax : key = "maxLength"
    · subst hkeyMax
      obtain ⟨greatest, hlast, rfl⟩ := Option.map_eq_some_iff.mp (hmax.symm.trans hget)
      simpa [keyword, sized, characters?, count] using hgreatest greatest hlast
    by_cases hkeyPattern : key = "pattern"
    · subst hkeyPattern
      obtain ⟨regex, hlast, rfl⟩ := Option.map_eq_some_iff.mp (hpattern.symm.trans hget)
      simpa [keyword, matchesPattern] using hregex regex hlast
    rw [hdocument, get?_rules hkeyPattern hkeyMin hkeyMax fun h => absurd h hkeyEnum] at hget
    obtain ⟨rfl, rfl⟩ := Prod.mk.inj (List.mem_singleton.mp (Entries.mem_of_get? hget))
    rfl

/-- Without patterns, a document asks for the last options and for the last bounds. -/
theorem valid_text_iff (hplain : ∀ regex, .pattern regex ∉ given) :
    Valid pattern (given.foldl putRule [("type", .string "string")]) (.string s) ↔
      (∀ options, Grammar.lastOptions given = some options → s ∈ options) ∧
        Span.Obeys (given.filterMap TextRule.span?) s.length := by
  rw [valid_rules_iff, TextRule.lastRegex_eq_none.mpr hplain]
  simp

/-- Only texts are valid against the document of a text. -/
theorem exists_text_of_valid {c : Content}
    (h : Valid pattern (given.foldl putRule [("type", .string "string")]) c) :
    ∃ s, c = .string s := by
  obtain ⟨_ | depth, hvalid⟩ := h
  · cases hvalid
  have hget : Entries.get? (given.foldl putRule [("type", .string "string")]) "type" =
      some (.string "string") :=
    get?_rules (by decide) (by decide) (by decide) fun h => absurd h (by decide)
  have htype := satisfies_iff.mp hvalid _ _ hget
  cases c with
  | string s => exact ⟨s, rfl⟩
  | null | bool | number | array | object =>
    simp [keyword, hasType, isOfType, Content.kind, Kind.typeName] at htype

end Document

/-! ### Both notations -/

theorem toList_serialize_string (s : String) :
    ((Content.string s).serialize none).toList = stringText false s.toList := by
  rw [Content.serialize, write, String.toList_ofList]
  rfl

namespace SchemaGraph

variable {given : List TextRule} {table : List (String × Schema)} {settings : ProjectionSettings}

theorem anchored_text (given : List TextRule) (table : List (String × Schema)) :
    SchemaGraph.Anchored ⟨.string given, table⟩ := by
  intro name hname
  rcases hname.eq_or_part with heq | ⟨part, hpart, -⟩
  · cases heq
  · cases hpart

/-- A text is its own document. -/
theorem project_text (given : List TextRule) (table : List (String × Schema))
    (settings : ProjectionSettings) :
    SchemaGraph.project ⟨.string given, table⟩ .jsonSchema settings =
      .ok (.document (given.foldl Document.putRule [("type", .string "string")]),
        [.schemaProjected Backend.jsonSchema.name "response" 0]) := by
  have hcollect : NamedSchemas.collect ⟨.string given, table⟩ = .ok .none := rfl
  have hrender : Document.render (.string given) .jsonSchema .none settings =
      .ok (given.foldl Document.putRule [("type", .string "string")]) := by
    cases huse : settings.useDefinitions <;>
      simp [Document.render, Document.styleFor, huse, Document.body, NamedSchemas.shared,
        NamedSchemas.none, bind, Except.bind]
  rw [SchemaGraph.project, hcollect]
  dsimp only [bind, Except.bind]
  rw [if_neg (by decide), hrender]
  rfl

end SchemaGraph

section

variable {given : List TextRule} {table : List (String × Schema)} {settings : ProjectionSettings}
  {rules : List Grammar.Rule} {notices : List Notice}

/-- What the grammar of a text admits, read off the text of the grammar: what is derived of the
expression of the rules. -/
theorem exists_admits_text (hoffers : ∀ rule ∈ given, rule.offers = true)
    (hgrammar : SchemaGraph.project ⟨.string given, table⟩ .gbnf settings =
      .ok (.grammar rules, notices)) :
    ∃ start, Grammar.textExpr given = .ok start ∧ Grammar.Grounded rules ∧
      ∀ cs, Grammar.Admits (Grammar.text rules) cs ↔
        ∃ depth, Grammar.Derives rules (depth + 4) start cs := by
  obtain ⟨named, hnamed, hrules⟩ := SchemaGraph.rules_of_project hgrammar
  obtain ⟨ruleNames, hruled⟩ :=
    Grammar.exists_rulesFor (SchemaGraph.anchored_text given table) hnamed hrules
  obtain ⟨start, hrenders, hstart⟩ := hruled.exists_start
  obtain ⟨rules', hread⟩ : ∃ rules', List.Forall₂ (Grammar.Rule.ReadAs false) rules rules' :=
    hruled.exists_read (.inr (.string hoffers))
  cases hrenders with
  | named named => cases named
  | string htext =>
    refine ⟨start, htext, hruled.toGrounded, fun cs => ⟨fun hadmits => ?_, ?_⟩⟩
    · obtain ⟨depth, hderives⟩ := (hstart _).mp (Grammar.generates_of_admits hread hadmits)
      exact ⟨depth, hderives.mono (Nat.le_add_right depth 4)⟩
    · rintro ⟨depth, hderives⟩
      exact Grammar.admits_of_generates hread ((hstart _).mpr ⟨depth + 4, hderives⟩)

theorem not_pattern_of_textExpr {e : Grammar.Expr} (h : Grammar.textExpr given = .ok e)
    (regex : String) : .pattern regex ∉ given := by
  obtain ⟨bounds, hbounds, -⟩ := Outcome.bind_eq_ok.mp h
  exact Grammar.not_pattern_of_addRules hbounds regex

/-- The texts that the grammar of a text admits. -/
theorem admits_text_iff (hoffers : ∀ rule ∈ given, rule.offers = true)
    (hgrammar : SchemaGraph.project ⟨.string given, table⟩ .gbnf settings =
      .ok (.grammar rules, notices)) :
    (∀ regex, .pattern regex ∉ given) ∧ ∀ s : String, Grammar.delete ∉ s.toList →
      (Grammar.Admits (Grammar.text rules) ((Content.string s).serialize none).toList ↔
        match Grammar.lastOptions given with
        | some options => s ∈ options
        | none => Span.Obeys (given.filterMap TextRule.span?) s.length) := by
  obtain ⟨start, htext, hgrounded, hadmits⟩ := exists_admits_text hoffers hgrammar
  refine ⟨not_pattern_of_textExpr htext, fun s hkept => ?_⟩
  have htexts (depth : Nat) : Grammar.Derives rules (depth + 4) start _ ↔ _ :=
    Grammar.derives_stringText_iff hgrounded htext hkept
  rw [toList_serialize_string, hadmits, exists_congr htexts, exists_const]

/-- The grammar and the document of a text allow the same texts, those with a delete character
apart, just if each option keeps the last bounds of the length. -/
theorem sameTexts_iff (hoffers : ∀ rule ∈ given, rule.offers = true)
    (hgrammar : SchemaGraph.project ⟨.string given, table⟩ .gbnf settings =
      .ok (.grammar rules, notices)) (pattern : String → String → Bool) :
    ∃ document notices, SchemaGraph.project ⟨.string given, table⟩ .jsonSchema settings =
        .ok (.document document, notices) ∧
      ((∀ s : String, Grammar.delete ∉ s.toList →
          (Grammar.Admits (Grammar.text rules) ((Content.string s).serialize none).toList ↔
            Document.Valid pattern document (.string s))) ↔
        ∀ options, Grammar.lastOptions given = some options → ∀ s ∈ options,
          Grammar.delete ∉ s.toList → Span.Obeys (given.filterMap TextRule.span?) s.length) := by
  obtain ⟨hplain, hadmits⟩ := admits_text_iff hoffers hgrammar
  refine ⟨_, _, SchemaGraph.project_text given table settings, ?_⟩
  constructor
  · intro hsame options hlast s hs hkept
    have hadmitted := hadmits s hkept
    rw [hlast] at hadmitted
    exact ((Document.valid_text_iff hplain).mp ((hsame s hkept).mp (hadmitted.mpr hs))).2
  · intro hoptions s hkept
    rw [hadmits s hkept, Document.valid_text_iff hplain]
    cases hlast : Grammar.lastOptions given with
    | none => simp
    | some options =>
      constructor
      · intro hs
        exact ⟨by rintro _ ⟨⟩; exact hs, hoptions options hlast s hs hkept⟩
      · exact fun hs => hs.1 options rfl

end

/-- Two options that a bound leaves, and the last bound of each side. -/
def longOptions : List TextRule :=
  [.oneOf ["ab", "abc"], .length ⟨some 1, some 3, rfl⟩, .length ⟨some 2, none, rfl⟩]

theorem sameTexts_iff_longOptions :
    (∀ rule ∈ longOptions, rule.offers = true) ∧
      SchemaGraph.project ⟨.string longOptions, []⟩ .gbnf .standard =
        .ok (.grammar (⟨"root", .group (.alt (["ab", "abc"].map Grammar.quotedTerminal))⟩ ::
          Grammar.primitiveRules), [.schemaProjected "gbnf" "response" 0]) ∧
      ∃ document notices, SchemaGraph.project ⟨.string longOptions, []⟩ .jsonSchema .standard =
          .ok (.document document, notices) ∧
        ((∀ s : String, Grammar.delete ∉ s.toList →
            (Grammar.Admits
                (Grammar.text (⟨"root", .group (.alt (["ab", "abc"].map Grammar.quotedTerminal))⟩ ::
                  Grammar.primitiveRules))
                ((Content.string s).serialize none).toList ↔
              Document.Valid (fun _ _ => false) document (.string s))) ↔
          ∀ options, Grammar.lastOptions longOptions = some options → ∀ s ∈ options,
            Grammar.delete ∉ s.toList →
              Span.Obeys (longOptions.filterMap TextRule.span?) s.length) :=
  ⟨by decide, rfl, sameTexts_iff (by decide) rfl _⟩

/-- An option that is shorter than the bound beside it. -/
def shortOption : List TextRule := [.oneOf ["a", "bbb"], .length ⟨some 2, none, rfl⟩]

/-- A grammar offers an option that the document of the same schema does not allow. -/
theorem not_sameTexts_shortOption :
    ∃ rules document notices notices',
      SchemaGraph.project ⟨.string shortOption, []⟩ .gbnf .standard =
          .ok (.grammar rules, notices) ∧
        SchemaGraph.project ⟨.string shortOption, []⟩ .jsonSchema .standard =
          .ok (.document document, notices') ∧
        Grammar.delete ∉ "a".toList ∧
        Grammar.Admits (Grammar.text rules) ((Content.string "a").serialize none).toList ∧
        ∀ pattern, ¬ Document.Valid pattern document (.string "a") := by
  have hgrammar : SchemaGraph.project ⟨.string shortOption, []⟩ .gbnf .standard =
      .ok (.grammar (⟨"root", .group (.alt (["a", "bbb"].map Grammar.quotedTerminal))⟩ ::
        Grammar.primitiveRules), [.schemaProjected "gbnf" "response" 0]) := rfl
  obtain ⟨hplain, hadmits⟩ := admits_text_iff (by decide) hgrammar
  refine ⟨_, _, _, _, hgrammar, SchemaGraph.project_text _ _ _, by decide,
    (hadmits "a" (by decide)).mpr (by decide : "a" ∈ ["a", "bbb"]), fun pattern hvalid => ?_⟩
  obtain ⟨-, hlong, -⟩ := (Document.valid_text_iff hplain).mp hvalid
  exact absurd (hlong 2 rfl) (by decide)

end StructuredOutput

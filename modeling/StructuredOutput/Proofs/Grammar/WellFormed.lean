import StructuredOutput.Proofs.Grammar.Language
import StructuredOutput.Proofs.Grammar.Rendered

/-!
The text of a grammar is well formed: every line is one rule, and every name that a rule uses is the
name of one rule. Names of schemas are told apart by the names of their rules.
-/

namespace StructuredOutput.Grammar

open Json Text

variable {names : List String} {e : Expr} {es : List Expr} {v w : List Char}

/-! ### What an expression uses -/

/-- An expression has no terminal with a line break and uses only rules of the given names. -/
inductive Uses (names : List String) : Expr → Prop
  | terminal {text : List Char} (unbroken : '\n' ∉ text) : Uses names (.terminal text)
  | chars (negated : Bool) (ranges : List (Char × Char)) : Uses names (.chars negated ranges)
  | rule {name : String} (known : name ∈ names) : Uses names (.rule name)
  | seq {parts : List Expr} (each : ∀ e ∈ parts, Uses names e) : Uses names (.seq parts)
  | alt {parts : List Expr} (each : ∀ e ∈ parts, Uses names e) : Uses names (.alt parts)
  | group {e : Expr} (inner : Uses names e) : Uses names (.group e)
  | opt {e : Expr} (inner : Uses names e) : Uses names (.opt e)
  | star {e : Expr} (inner : Uses names e) : Uses names (.star e)
  | plus {e : Expr} (inner : Uses names e) : Uses names (.plus e)
  | times {e : Expr} (inner : Uses names e) (least : Nat) (greatest : Option Nat) :
      Uses names (.times e least greatest)

@[simp] theorem uses_chars {negated : Bool} {ranges : List (Char × Char)} :
    Uses names (.chars negated ranges) := .chars negated ranges

@[simp] theorem uses_rule {name : String} : Uses names (.rule name) ↔ name ∈ names :=
  ⟨fun | .rule known => known, .rule⟩

@[simp] theorem uses_seq : Uses names (.seq es) ↔ ∀ e ∈ es, Uses names e :=
  ⟨fun | .seq each => each, .seq⟩

@[simp] theorem uses_alt : Uses names (.alt es) ↔ ∀ e ∈ es, Uses names e :=
  ⟨fun | .alt each => each, .alt⟩

@[simp] theorem uses_group : Uses names (.group e) ↔ Uses names e :=
  ⟨fun | .group inner => inner, .group⟩

@[simp] theorem uses_opt : Uses names (.opt e) ↔ Uses names e :=
  ⟨fun | .opt inner => inner, .opt⟩

@[simp] theorem uses_star : Uses names (.star e) ↔ Uses names e :=
  ⟨fun | .star inner => inner, .star⟩

@[simp] theorem uses_plus : Uses names (.plus e) ↔ Uses names e :=
  ⟨fun | .plus inner => inner, .plus⟩

@[simp] theorem uses_times {least : Nat} {greatest : Option Nat} :
    Uses names (.times e least greatest) ↔ Uses names e :=
  ⟨fun | .times inner _ _ => inner, fun h => .times h least greatest⟩

/-! ### Texts without a line break -/

theorem newline_not_mem_escapedChar (c : Char) : '\n' ∉ escapedChar false c := by
  unfold escapedChar
  split
  · next letter hletter =>
    have hne : letter ≠ '\n' := by
      rintro rfl
      unfold shortEscape? at hletter
      split_ifs at hletter <;> cases hletter
    simp [hne.symm]
  · by_cases hcontrol : c.toNat < 0x20
    · have hall : ∀ n < 0x20, '\n' ∉ hexDigits n 4 := by decide
      rw [if_pos (by simp [hcontrol]), unicodeEscape_control hcontrol]
      simpa using hall _ hcontrol
    · rw [if_neg (by simp [hcontrol]), List.mem_singleton]
      rintro rfl
      exact hcontrol (by decide)

theorem newline_not_mem_classChar (c : Char) : '\n' ∉ classChar c := by
  unfold classChar
  split_ifs with htab hnewline hescape hcontrol
  · decide
  · decide
  · decide
  · have hall : ∀ n < 0x80, '\n' ∉ (hexDigits n 2).map Char.toUpper := by decide
    simpa using hall c.toNat (by omega)
  · simpa using fun h => hnewline h.symm

theorem newline_not_mem_terminal {text : List Char} (h : '\n' ∉ text) :
    '\n' ∉ (Expr.terminal text).text := by
  have hchar (c : Char) (hc : c ∈ text) : '\n' ∉ terminalChar c := by
    have hne : c ≠ '\n' := fun heq => h (heq ▸ hc)
    unfold terminalChar
    split <;> simp [hne.symm]
  simpa [Expr.text, terminalText] using hchar

theorem newline_not_mem_chars (negated : Bool) (ranges : List (Char × Char)) :
    '\n' ∉ (Expr.chars negated ranges).text := by
  have hrange (r : Char × Char) : '\n' ∉ rangeText r := by
    unfold rangeText
    split <;> simp [newline_not_mem_classChar]
  cases negated <;> simp [Expr.text, hrange]

theorem newline_not_mem_name (h : IsName w) : '\n' ∉ w :=
  fun hmem => absurd (h.2 _ hmem) (by decide)

theorem newline_not_mem_times (least : Nat) (greatest : Option Nat) :
    '\n' ∉ timesText least greatest := by
  have hdecimal (n : Nat) : '\n' ∉ decimal n := fun hmem =>
    absurd (isDigit_of_mem_decimal hmem) (by decide)
  cases greatest <;> simp [timesText, hdecimal]

/-! ### What is written on a line -/

/-- A text stays on its line, and it is read as tokens; those that are names are among the given
ones. -/
structure InLine (names : List String) (w : List Char) : Prop where
  unbroken : '\n' ∉ w
  lexed : ∃ ts, (∀ rest, Stops isNameChar rest →
      tokensFrom .start (w ++ rest) = (tokensFrom .start rest).map (ts ++ ·)) ∧
    ∀ text, .name text ∈ ts → String.ofList text ∈ names

namespace InLine

theorem nil : InLine names [] :=
  ⟨List.not_mem_nil, [], fun rest _ => by simp, by simp⟩

theorem token {t : Token} (hw : t.Written w) (hline : '\n' ∉ w)
    (hname : ∀ text, t = .name text → String.ofList text ∈ names) : InLine names w :=
  ⟨hline, [t], hw, fun text hmem => hname text (List.mem_singleton.mp hmem).symm⟩

theorem append (hv : InLine names v) (hw : InLine names w)
    (hstops : ∀ rest, Stops isNameChar (w ++ rest)) : InLine names (v ++ w) := by
  obtain ⟨hvline, ts, hts, htsNames⟩ := hv
  obtain ⟨hwline, us, hus, husNames⟩ := hw
  refine ⟨by simp [hvline, hwline], ts ++ us, fun rest hrest => ?_, fun text hmem => ?_⟩
  · rw [List.append_assoc, hts _ (hstops rest), hus rest hrest, Option.map_map]
    simp [Function.comp_def]
  · exact (List.mem_append.mp hmem).elim (htsNames text) (husNames text)

theorem blank (hw : InLine names w) : InLine names (' ' :: w) := by
  obtain ⟨hline, ts, hts, hnames⟩ := hw
  refine ⟨by simp [hline], ts, fun rest hrest => ?_, hnames⟩
  rw [List.cons_append, tokensFrom_cons rfl, hts rest hrest]

theorem mark {c : Char} {t : Token} (h : Place.start.next c = some ([t], .start)) (hc : c ≠ '\n')
    (hname : ∀ text, t ≠ .name text) : InLine names [c] :=
  .token (written_mark h) (by simpa using hc.symm) fun text heq => absurd heq (hname text)

theorem seq (hv : InLine names v) (hw : InLine names w) : InLine names (v ++ ' ' :: w) :=
  hv.append hw.blank fun _ => stops_of_cons rfl _

theorem alt (hv : InLine names v) (hw : InLine names w) :
    InLine names (v ++ ' ' :: '|' :: ' ' :: w) :=
  hv.seq ((mark rfl (by decide) (by simp)).seq hw)

theorem group (hw : InLine names w) : InLine names ('(' :: ' ' :: w ++ [' ', ')']) := by
  have hopens : InLine names ['('] := mark rfl (by decide) (by simp)
  have hcloses : InLine names [')'] := mark rfl (by decide) (by simp)
  simpa using hopens.seq (hw.seq hcloses)

end InLine

/-- The written form of an expression stays on its line, and the names in it are those of rules that
the expression uses. -/
theorem ReadAs.inLine {lenient : Bool} {sequences : List (List Expr)}
    (h : ReadAs lenient e sequences) (he : Uses names e) : InLine names e.text := by
  induction h with
  | terminal text =>
    cases he with
    | terminal unbroken =>
      exact .token (written_terminal text) (newline_not_mem_terminal unbroken) (by simp)
  | chars written => exact .token written (newline_not_mem_chars _ _) (by simp)
  | @rule name isName =>
    refine .token (written_name isName) (newline_not_mem_name isName) ?_
    rintro text ⟨rfl⟩
    rw [Expr.text, String.ofList_toList]
    exact uses_rule.mp he
  | nil | empty => exact .nil
  | @cons e es _ _ _ tail ihead itail =>
    obtain ⟨hhead, htail⟩ := List.forall_mem_cons.mp (uses_seq.mp he)
    cases es with
    | nil =>
      rw [text_seq_singleton]
      exact ihead hhead
    | cons next es =>
      rw [text_seq_cons]
      exact (ihead hhead).seq (itail (.seq htail))
  | last _ ih =>
    rw [text_alt_singleton]
    exact ih (uses_alt.mp he _ List.mem_cons_self)
  | more _ _ ihone ihrest =>
    obtain ⟨hone, hrest⟩ := List.forall_mem_cons.mp (uses_alt.mp he)
    rw [text_alt_cons]
    exact (ihone hone).alt (ihrest (.alt hrest))
  | group _ ih => exact (ih (uses_group.mp he)).group
  | opt _ ih =>
    exact (ih (uses_opt.mp he)).append (.mark rfl (by decide) (by simp))
      fun _ => stops_of_cons rfl _
  | star _ ih =>
    exact (ih (uses_star.mp he)).append (.mark rfl (by decide) (by simp))
      fun _ => stops_of_cons rfl _
  | plus _ ih =>
    exact (ih (uses_plus.mp he)).append (.mark rfl (by decide) (by simp))
      fun _ => stops_of_cons rfl _
  | times _ least greatest ih =>
    exact (ih (uses_times.mp he)).append (.token (written_times least greatest)
      (newline_not_mem_times least greatest) (by simp)) fun _ => stops_of_cons rfl _

/-! ### What the expressions of schemas use -/

section

variable (hprimitive : primitiveRules.map (·.name) ⊆ names)

theorem uses_word {s : String} (h : '\n' ∉ s.toList) : Uses names (word s) := .terminal h

theorem uses_quotedTerminal (s : String) : Uses names (quotedTerminal s) :=
  .terminal (by simp [stringText, newline_not_mem_escapedChar])

include hprimitive

theorem uses_primitive {r : Rule} (hr : r ∈ primitiveRules) : Uses names r.body := by
  have hname {name : String} (h : name ∈ primitiveRules.map (·.name)) : name ∈ names := hprimitive h
  simp only [primitiveRules, List.mem_cons, List.not_mem_nil, or_false] at hr
  rcases hr with rfl | rfl | rfl | rfl | rfl | rfl | rfl | rfl | rfl
  all_goals simp (disch := decide) [uses_word, hname]

theorem uses_ws : Uses names ws := .rule (hprimitive (by decide))

theorem uses_textExpr {given : List TextRule} (he : textExpr given = .ok e) : Uses names e := by
  have hchar : "char" ∈ names := hprimitive (by decide)
  have hstring : "string" ∈ names := hprimitive (by decide)
  have hlimited (least : Nat) (greatest : Option Nat) :
      Uses names (textExpr.limited least greatest) := by
    simp (disch := decide) [textExpr.limited, uses_word, hchar]
  obtain ⟨b, -, he⟩ := Outcome.bind_eq_ok.mp he
  split at he
  · cases he
    simp [uses_quotedTerminal]
  split at he
  · cases he
    exact .rule hstring
  · split at he <;> cases he
    exact hlimited _ _
  · cases he
    exact hlimited _ _

theorem uses_arrayExpr {item : Expr} {counts : List Span} (he : arrayExpr item counts = .ok e)
    (hitem : Uses names item) : Uses names e := by
  have hws : Uses names ws := uses_ws hprimitive
  have hbounded (least : Nat) (greatest : Option Nat) : Uses names
      (arrayExpr.bounded item (.group (.seq [word ",", ws, item, ws])) least greatest) := by
    unfold arrayExpr.bounded
    split_ifs
    · simp (disch := decide) [uses_word, hws]
    · cases greatest <;> simp (disch := decide) [uses_word, hws, hitem]
    · simp (disch := decide) [uses_word, hws, hitem]
  unfold arrayExpr at he
  dsimp only at he
  split at he
  · split at he <;> cases he
    exact hbounded _ _
  · cases he
    exact hbounded _ _

theorem uses_memberExpr (key : String) (optional : Bool) (h : Uses names e) :
    Uses names (memberExpr key optional e) := by
  have hws : Uses names ws := uses_ws hprimitive
  have hnull : "null" ∈ names := hprimitive (by decide)
  cases optional <;>
    simp (disch := decide) [memberExpr, uses_word, uses_quotedTerminal, hws, hnull, h]

theorem uses_objectExpr (h : ∀ m ∈ es, Uses names m) : Uses names (objectExpr es) := by
  have hws : Uses names ws := uses_ws hprimitive
  have hseparated : ∀ m ∈ separated es, Uses names m := by
    fun_induction separated es with
    | case1 => exact h
    | case2 => exact h
    | case3 m ms _ ih =>
      obtain ⟨hm, hms⟩ := List.forall_mem_cons.mp h
      simp (disch := decide) only [List.forall_mem_cons, uses_word, hws, hm, true_and]
      exact ih hms
  unfold objectExpr
  split
  · simp (disch := decide) [uses_word, hws]
  · simp only [uses_seq, List.forall_mem_append]
    exact ⟨⟨by simp (disch := decide) [uses_word, hws], hseparated⟩,
      by simp (disch := decide) [uses_word, hws]⟩

variable {ruleNames : RuleNames} {s : Schema}
  (hruled : ∀ name rule, Entries.get? ruleNames name = some rule → rule ∈ names)

include hruled

theorem uses_of_renders (h : Renders ruleNames s e) : Uses names e := by
  induction h with
  | string text => exact uses_textExpr hprimitive text
  | integer | number | boolean => exact .rule (hprimitive (by decide))
  | array _ array ih => exact uses_arrayExpr hprimitive array ih
  | named _ ruled => exact .rule (hruled _ _ ruled)

theorem uses_of_rendersBody (h : RendersBody ruleNames s e) : Uses names e := by
  cases h with
  | object each =>
    refine uses_objectExpr hprimitive fun m hm => ?_
    obtain ⟨p, -, e, he, rfl⟩ := Outcome.exists_mem_left each hm
    exact uses_memberExpr hprimitive p.key p.optional (uses_of_renders hprimitive hruled he)
  | union each =>
    refine .alt fun e he => ?_
    obtain ⟨part, -, hpart⟩ := Outcome.exists_mem_left each he
    exact uses_of_renders hprimitive hruled hpart

end

/-! ### Whole grammars -/

/-- What a rule is written as, without the end of its line. -/
def Rule.written (r : Rule) : List Char := r.name.toList ++ " ::= ".toList ++ r.body.text

/-- The text of some rules is well formed: its lines are the rules, each of which is read as one
rule, the names of rules differ and are words, and the names that are used are among them. -/
structure WellFormed (rules : List Rule) : Prop where
  lines : (text rules).toList.splitOn '\n' = rules.map Rule.written ++ [[]]
  read : ∀ r ∈ rules, ∃ body, Grammar.read (r.written ++ ['\n']) = some [⟨r.name, body⟩]
  distinct : (rules.map (·.name)).Nodup
  root : "root" ∈ rules.map (·.name)
  closed : ∀ r ∈ rules, ∃ ts, tokensFrom .start r.body.text = some ts ∧
    ∀ text, .name text ∈ ts → String.ofList text ∈ rules.map (·.name)
  words : ∀ r ∈ rules, IsWord r.name.toList

/-- Rules tell the names of a schema apart: each has a rule of its own, made from a node that has
the name, and what refers to the name is an expression that refers to the rule. -/
structure TellsApart (g : SchemaGraph) (names : RuleNames) (rules : List Rule) : Prop where
  total : ∀ s name, g.Reaches s → s.name? = some name → ∃ rule, Entries.get? names name = some rule
  injective : ∀ name other rule, Entries.get? names name = some rule →
    Entries.get? names other = some rule → name = other
  free : ∀ name rule, Entries.get? names name = some rule → rule ∉ reserved
  made : ∀ name rule, Entries.get? names name = some rule → ∃ node body, ⟨rule, body⟩ ∈ rules ∧
    g.Reaches node ∧ node.name? = some name ∧ RendersBody names node body
  start : ∃ body, ⟨"root", body⟩ ∈ rules ∧ Renders names g.root body

/-- Texts that end a line each are the lines of what they make, before a last empty one. -/
theorem splitOn_lines {lines : List (List Char)} (h : ∀ l ∈ lines, '\n' ∉ l) :
    (lines.flatMap (· ++ ['\n'])).splitOn '\n' = lines ++ [[]] := by
  have hjoined : lines.flatMap (· ++ ['\n']) = ['\n'].intercalate (lines ++ [[]]) := by
    clear h
    induction lines with
    | nil => rfl
    | cons l lines ih => cases lines <;> simp_all [List.intercalate]
  rw [hjoined, List.splitOn_intercalate]
  · exact List.forall_mem_append.mpr ⟨h, by simp⟩
  · simp

namespace RulesFor

variable {g : SchemaGraph} {ruleNames : RuleNames} {rules : List Rule} {r : Rule}

theorem mem_of_ruled (h : RulesFor g ruleNames rules) (name rule : String)
    (hrule : Entries.get? ruleNames name = some rule) : rule ∈ rules.map (·.name) := by
  obtain ⟨-, body, hmem, -⟩ := h.named name rule hrule
  exact List.mem_map_of_mem hmem

/-- Every rule uses rules only. -/
theorem uses (h : RulesFor g ruleNames rules) (hr : r ∈ rules) :
    Uses (rules.map (·.name)) r.body := by
  have hprimitive : primitiveRules.map (·.name) ⊆ rules.map (·.name) :=
    List.map_subset _ h.primitive
  rcases h.made r hr with hr | ⟨-, node, -, hstart | hbody⟩
  · exact uses_primitive hprimitive hr
  · exact uses_of_renders hprimitive h.mem_of_ruled hstart
  · exact uses_of_rendersBody hprimitive h.mem_of_ruled hbody

theorem isWord (h : RulesFor g ruleNames rules) (hr : r ∈ rules) : IsWord r.name.toList := by
  have hall : ∀ r ∈ primitiveRules, r.name.toList ≠ [] ∧ r.name.toList.all isWordChar = true := by
    decide
  rcases h.made r hr with hr | ⟨hword, -⟩
  · exact (hall r hr).imp_right List.all_eq_true.mp
  · exact hword

theorem wellFormed (h : RulesFor g ruleNames rules) : WellFormed rules := by
  obtain ⟨rules', hread⟩ : ∃ rules', List.Forall₂ (Rule.ReadAs true) rules rules' :=
    h.exists_read (.inl rfl)
  have hline {r : Rule} (hr : r ∈ rules) : InLine (rules.map (·.name)) r.body.text := by
    obtain ⟨r', -, -, -, sequences, hbody, -⟩ := Outcome.exists_mem_right hread hr
    exact hbody.inLine (h.uses hr)
  obtain ⟨start, hstart, -⟩ := h.root
  refine ⟨?_, fun r hr => ?_, h.distinct, List.mem_map_of_mem hstart, fun r hr => ?_,
    fun r hr => h.isWord hr⟩
  · rw [text, String.toList_ofList, ← splitOn_lines, List.flatMap_map]
    · rfl
    · refine List.forall_mem_map.mpr fun r hr => ?_
      have hname : '\n' ∉ r.name.toList := newline_not_mem_name (h.isWord hr).isName
      simp [Rule.written, hname, (hline hr).unbroken]
  · obtain ⟨⟨name, body⟩, -, hr'⟩ := Outcome.exists_mem_right hread hr
    obtain ⟨-, rfl, -⟩ := id hr'
    exact ⟨body, (List.append_nil _ ▸ readFrom_line hr' [] :)⟩
  · obtain ⟨ts, hts, hnames⟩ := (hline hr).lexed
    refine ⟨ts, ?_, hnames⟩
    have hwhole := hts [] (by rintro _ ⟨⟩)
    simpa [tokensFrom, Place.finish] using hwhole

theorem tellsApart {named : NamedSchemas} (hg : g.Anchored)
    (hnamed : NamedSchemas.collect g = .ok named) (h : RulesFor g ruleNames rules) :
    TellsApart g ruleNames rules where
  total := fun s name hs hname => h.exists_rule hg hnamed (hg.reaches_iff_within.mp hs) hname
  injective := by
    intro name other rule hname hother
    have hpair := List.inj_on_of_nodup_map h.apart (Entries.mem_of_get? hname)
      (Entries.mem_of_get? hother) rfl
    exact (Prod.mk.inj hpair).1
  free := fun name rule hrule => h.free rule (List.mem_map_of_mem (Entries.mem_of_get? hrule))
  made := by
    intro name rule hrule
    obtain ⟨node, body, hmem, hwithin, hname, hbody⟩ := h.named name rule hrule
    exact ⟨node, body, hmem, hg.reaches_iff_within.mpr hwithin, hname, hbody⟩
  start := h.root

end RulesFor

end StructuredOutput.Grammar

namespace StructuredOutput

/-- The grammar of a schema whose references stand for nodes in it is well formed, whatever names
there are in the schema, and its rules tell the names apart. -/
theorem wellFormed_of_project {g : SchemaGraph} {settings : ProjectionSettings}
    {rules : List Grammar.Rule} {notices : List Notice} (hg : g.Anchored)
    (hproject : g.project .gbnf settings = .ok (.grammar rules, notices)) :
    Grammar.WellFormed rules ∧ ∃ ruleNames, Grammar.TellsApart g ruleNames rules := by
  obtain ⟨named, hnamed, hrules⟩ := SchemaGraph.rules_of_project hproject
  obtain ⟨ruleNames, hruled⟩ := Grammar.exists_rulesFor hg hnamed hrules
  exact ⟨hruled.wellFormed, ruleNames, hruled.tellsApart hg hnamed⟩

/-! ### Names that are much alike -/

namespace Crowd

def near : Schema := .object "a b" none [⟨"back", .ref "Root", none, true⟩]

def far : Schema := .union "A-B" none [.ref "Root", near]

def root : Schema := .object "Root" none [⟨"near", near, none, false⟩, ⟨"far", far, none, true⟩]

/-- A schema with a reserved name and with two names that come to the same rule name. -/
def graph : SchemaGraph := ⟨root, [("Root", root)]⟩

theorem anchored : graph.Anchored := by
  intro name h
  have hback (h : (Schema.ref name).Within (.ref "Root")) : name = "Root" := by
    rcases h.eq_or_part with heq | ⟨part, hpart, -⟩
    · exact Schema.ref.inj heq
    · cases hpart
  have hnear (h : (Schema.ref name).Within near) : name = "Root" := by
    rcases h.eq_or_part with heq | ⟨part, hpart, h⟩
    · cases heq
    · obtain rfl : part = .ref "Root" := List.mem_singleton.mp hpart
      exact hback h
  obtain rfl : name = "Root" := by
    rcases h.eq_or_part with heq | ⟨part, hpart, h⟩
    · cases heq
    rcases List.mem_cons.mp hpart with rfl | hpart
    · exact hnear h
    obtain rfl : part = far := List.mem_singleton.mp hpart
    rcases h.eq_or_part with heq | ⟨part, hpart, h⟩
    · cases heq
    rcases List.mem_cons.mp hpart with rfl | hpart
    · exact hback h
    · obtain rfl : part = near := List.mem_singleton.mp hpart
      exact hnear h
  exact ⟨root, rfl, .refl root, rfl, rfl⟩

/-- The rules of the schema. -/
def rules : List Grammar.Rule :=
  match graph.project .gbnf .standard with
  | .ok (.grammar rules, _) => rules
  | _ => []

end Crowd

open Crowd in
theorem wellFormed_of_project_crowd :
    graph.Anchored ∧
      graph.project .gbnf .standard = .ok (.grammar rules, [.schemaProjected "gbnf" "Root" 3]) ∧
      Grammar.WellFormed rules ∧ ∃ ruleNames, Grammar.TellsApart graph ruleNames rules := by
  have hproject : graph.project .gbnf .standard =
      .ok (.grammar rules, [.schemaProjected "gbnf" "Root" 3]) := rfl
  exact ⟨anchored, hproject, wellFormed_of_project anchored hproject⟩

/-- A number tells apart what letters and dashes do not. -/
example : (Crowd.rules.take 4).map (·.name) = ["root", "a-b", "a-b-2", "root-2"] := rfl

end StructuredOutput

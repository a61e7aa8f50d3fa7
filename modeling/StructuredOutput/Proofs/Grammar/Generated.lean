import StructuredOutput.Proofs.Codec.FromText
import StructuredOutput.Proofs.Grammar.Readable
import StructuredOutput.Proofs.Grammar.Rules

/-!
What the grammar of a type derives is read as content of the type, which decodes. The induction is
on the depth of the derivation: at one depth it is enough to know what the expressions of named
schemas derive.
-/

namespace StructuredOutput

/-- The bounds of the number of characters, if a refinement gives them. -/
def Constraint.length? : Constraint → Option Span
  | text rule => rule.span?
  | _ => none

/-- What a grammar guarantees of texts and arrays: an array, and a text without options, obeys the
last bounds. -/
structure Bounded (aspect : Aspect) (shape : Shape) (given : List Constraint) : Prop where
  text : ∀ s constraints, aspect = .text s → shape = .primitive .text constraints →
    (∀ rule, .text rule ∈ given → rule.isChoice = false) →
      Span.Obeys (given.filterMap Constraint.length?) s.length
  items : ∀ n, aspect = .items n → Span.Obeys (given.filterMap Constraint.span?) n

namespace Bounded

variable {given : List Constraint}

theorem number (units : Int) (shape : Shape) : Bounded (.number units) shape given where
  text := by rintro _ _ ⟨⟩
  items := by rintro _ ⟨⟩

theorem literal (s : String) (values : List String) (constraints : List Constraint) :
    Bounded (.text s) (.literal values constraints) given where
  text := by rintro _ _ - ⟨⟩
  items := by rintro _ ⟨⟩

end Bounded

namespace Grammar

open Json

variable {ds : Declarations} {names : RoleNames} {g : SchemaGraph} {ruleNames : RuleNames}
  {rules : List Rule} {depth : Nat} {described : Shape} {given : List Constraint} {s : Schema}
  {e : Expr} {cs : List Char}

/-- At a depth, what the expression of a schema derives is read as content that conforms. -/
def Reads (ds : Declarations) (names : RoleNames) (g : SchemaGraph) (ruleNames : RuleNames)
    (rules : List Rule) (depth : Nat) : Prop :=
  ∀ s described given e cs, Mirrors ds names s described given → s.Within g.root →
    Unguided ds described → (∀ c ∈ given, described.Spares c) → Renders ruleNames s e →
      Derives rules depth e cs → ReadsAs (fun c => Conforms ds Bounded c described given) cs

/-! ### Texts -/

theorem bounded_text {rules : List TextRule} {s : String} {constraints : List Constraint}
    (h : (∀ rule ∈ rules, rule.isChoice = false) →
      Span.Obeys (rules.filterMap TextRule.span?) s.length) :
    Bounded (.text s) (.primitive .text constraints) (rules.map .text) where
  text := by
    rintro s constraints ⟨rfl⟩ ⟨rfl⟩ hfree
    rw [List.filterMap_map]
    exact h fun rule hrule => hfree rule (List.mem_map_of_mem hrule)
  items := by rintro _ ⟨⟩

theorem readsAs_text (h : Grounded rules) {own : List TextRule} (he : textExpr own = .ok e)
    (hcs : Derives rules depth e cs) (constraints : List Constraint) :
    ReadsAs (fun c => Conforms ds Bounded c (.primitive .text constraints) (own.map .text)) cs := by
  have hderives := (derives_textExpr h he).mp (hcs.mono (Nat.le_add_right depth 4))
  cases hoptions : lastOptions own with
  | some options =>
    rw [hoptions] at hderives
    obtain ⟨s, -, rfl⟩ := hderives
    refine (ReadsAs.stringText s).imp ?_
    rintro _ rfl
    refine .text (bounded_text fun hfree => ?_)
    rw [lastOptions_eq_none.mpr hfree] at hoptions
    cases hoptions
  | none =>
    rw [hoptions] at hderives
    obtain ⟨parts, rfl, hobeys, hparts⟩ := hderives
    refine (ReadsAs.string hparts).imp ?_
    rintro _ ⟨s, rfl, hlength⟩
    exact .text (bounded_text fun _ => hlength ▸ hobeys)

/-- The options of a literal are the last ones, if no refinement sets others. -/
theorem lastOptions_choice {values : List String} {own : List TextRule}
    (hspares : ∀ rule ∈ own, rule.isChoice = false) :
    lastOptions (Derivation.choice values :: own) = some values := by
  have hnone := lastOptions_eq_none.mpr hspares
  rw [lastOptions] at hnone
  rw [lastOptions, getLast?_filterMap_cons, hnone, Option.none_or]
  unfold Derivation.choice
  split <;> rfl

theorem readsAs_literal (h : Grounded rules) {values : List String} {own : List TextRule}
    (hspares : ∀ rule ∈ own, rule.isChoice = false)
    (he : textExpr (Derivation.choice values :: own) = .ok e) (hcs : Derives rules depth e cs)
    (constraints : List Constraint) :
    ReadsAs (fun c => Conforms ds Bounded c (.literal values constraints) (own.map .text)) cs := by
  have hderives := (derives_textExpr h he).mp (hcs.mono (Nat.le_add_right depth 4))
  rw [lastOptions_choice hspares] at hderives
  obtain ⟨s, hs, rfl⟩ := hderives
  refine (ReadsAs.stringText s).imp ?_
  rintro _ rfl
  exact .literal hs (.literal s values constraints)

theorem eq_stringText_of_constant (h : Grounded rules) {w : String}
    (he : Renders ruleNames (.string [.constant w]) e) (hcs : Derives rules depth e cs) :
    cs = stringText false w.toList := by
  cases he with
  | string text =>
    obtain ⟨s, hs, rfl⟩ := (derives_textExpr h text).mp (hcs.mono (Nat.le_add_right depth 4))
    rw [List.mem_singleton.mp hs]
  | named named => cases named

/-! ### What has no name -/

/-- Containers have blanks, which take a rule. -/
theorem not_derives_blanks {first : Expr} {es : List Expr} :
    ¬Derives rules 0 (.seq (first :: ws :: es)) cs := by
  intro h
  obtain ⟨_, _, -, -, h⟩ := derives_seq_cons.mp h
  obtain ⟨_, _, -, h, -⟩ := derives_seq_cons.mp h
  exact not_derives_rule h

theorem not_derives_arrayExpr {item : Expr} {counts : List Span}
    (he : arrayExpr item counts = .ok e) : ¬Derives rules 0 e cs := by
  have hbounded (least : Nat) (greatest : Option Nat) : ¬Derives rules 0
      (arrayExpr.bounded item (.group (.seq [word ",", ws, item, ws])) least greatest) cs := by
    unfold arrayExpr.bounded
    split_ifs <;> exact not_derives_blanks
  unfold arrayExpr at he
  dsimp only at he
  split at he
  · split at he <;> cases he
    exact hbounded _ _
  · cases he
    exact hbounded _ _

theorem readsAs_array (h : Grounded rules) {item : Expr} {counts : List Span} {shape : Shape}
    (he : arrayExpr item counts = .ok e)
    (hcounts : counts = given.filterMap Constraint.span?)
    (hitem : ∀ cs, Derives rules depth item cs →
      ReadsAs (fun c => Conforms ds Bounded c shape (shape.itemRules given)) cs)
    (hcs : Derives rules depth e cs) (container : Container) (constraints : List Constraint) :
    ReadsAs (fun c => Conforms ds Bounded c (.array shape container constraints) given) cs := by
  obtain _ | depth := depth
  · exact absurd hcs (not_derives_arrayExpr he)
  obtain ⟨parts, hobeys, hparts, henclosed⟩ := (derives_arrayExpr h he).mp hcs
  have hbrackets : Enclosed (openBracket false) (closeBracket false) parts cs := henclosed
  let goods : List (String → Content → Prop) := parts.map fun _ _ c =>
    Conforms ds Bounded c shape (shape.itemRules given)
  have heach : List.Forall₂ (ReadsPart false) goods parts := by
    rw [List.forall₂_map_left_iff, List.forall₂_same]
    exact fun p hp => (hitem p (hparts p hp)).item
  refine (readsAs_enclosed hbrackets heach (by rintro ⟨⟩)).imp ?_
  rintro _ ⟨entries, rfl, hfulfils⟩
  have hlength : (entries.map (·.2)).length = parts.length := by
    rw [List.length_map, ← hfulfils.length_eq, List.length_map]
  refine .array ⟨by rintro _ _ ⟨⟩, ?_⟩ (List.forall_mem_map.mpr fun entry hentry => ?_)
  · rintro n ⟨rfl⟩
    rw [hlength, ← hcounts]
    exact hobeys
  · obtain ⟨good, hgood, hc⟩ := Outcome.exists_mem_left hfulfils hentry
    obtain ⟨_, -, rfl⟩ := List.mem_map.mp hgood
    exact hc

/-- At a depth it is enough to know what the expressions of named schemas derive. -/
theorem reads_of_named (h : Grounded rules)
    (hnamed : ∀ s described given e cs name, Mirrors ds names s described given →
      Unguided ds described → s.name? = some name → Renders ruleNames s e →
        Derives rules depth e cs → ReadsAs (fun c => Conforms ds Bounded c described given) cs) :
    Reads ds names g ruleNames rules depth := by
  intro s described given e cs hs hwithin hguides hspares he hcs
  cases hname : s.name? with
  | some name => exact hnamed s described given e cs name hs hguides hname he hcs
  | none =>
    induction hs generalizing e cs with
    | text own constraints =>
      cases he with
      | string text => exact readsAs_text h text hcs constraints
      | named named => cases named
    | integer whole constraints =>
      cases he with
      | integer =>
        obtain ⟨l, hl, rfl⟩ := (derives_integer h).mp (hcs.mono (Nat.le_add_right depth 1))
        refine (ReadsAs.number l).imp ?_
        rintro _ ⟨x, rfl, hx⟩
        exact .integer (hx hl) (.number _ _)
      | named named => cases named
    | real ranges constraints =>
      cases he with
      | number =>
        obtain ⟨l, rfl⟩ := (derives_number h).mp (hcs.mono (Nat.le_add_right depth 2))
        refine (ReadsAs.number l).imp ?_
        rintro _ ⟨x, rfl, -⟩
        exact .real (.number _ _)
      | named named => cases named
    | bool constraints =>
      cases he with
      | boolean =>
        obtain ⟨b, rfl⟩ := (derives_boolean h).mp (hcs.mono (Nat.le_add_right depth 1))
        refine (ReadsAs.bool b).imp ?_
        rintro _ rfl
        exact .bool b _ _
      | named named => cases named
    | literal own values constraints =>
      cases he with
      | string text =>
        exact readsAs_literal h (fun rule hrule => hspares _ (List.mem_map_of_mem hrule)) text hcs
          constraints
      | named named => cases named
    | @array item shape given items container constraints ih =>
      cases he with
      | array rendered array =>
        have hreach : Reaches ds (.array shape container constraints) shape := .item (.refl shape)
        have hitem : item.Within g.root := hwithin.part (List.mem_singleton_self item)
        have hown : ∀ c ∈ shape.itemRules given, shape.Spares c := by
          intro c hc
          rcases List.mem_append.mp hc with hc | hc
          · exact hguides shape hreach c hc
          · obtain ⟨outer, houter, hinner⟩ := List.mem_filterMap.mp hc
            cases outer <;> cases hinner
            exact hspares _ houter
        have hinner := hguides.of_reaches hreach
        refine readsAs_array h array rfl (fun cs hcs => ?_) hcs container constraints
        cases hitemName : item.name? with
        | some name => exact hnamed item shape _ _ cs name items hinner hitemName rendered hcs
        | none => exact ih _ _ hitem hinner hown rendered hcs hitemName
      | named named => cases named
    | _ => cases hname

/-! ### What defines a name -/

/-- An entry of a conforming object, for a field. -/
def EntryFor (ds : Declarations) (f : FieldShape) (key : String) (c : Content) : Prop :=
  key = f.key ∧ Conforms ds Bounded c f.whole f.whole.constraints

theorem fulfils_fields {fields : List FieldShape} {entries : List (String × Content)}
    (h : Fulfils (fields.map (EntryFor ds)) entries) :
    Entries.names entries = fields.map (·.key) ∧ ∀ e f, (e, f) ∈ entries.zip fields →
      Conforms ds Bounded e.2 f.whole f.whole.constraints := by
  have hpairs := List.forall₂_map_left_iff.mp h
  constructor
  · induction hpairs with
    | nil => rfl
    | cons hfirst _ ih =>
      rw [Entries.names_cons, List.map_cons, hfirst.1, ih (List.forall₂_map_left_iff.mpr ‹_›)]
  · exact fun e f hmem => ((List.forall₂_iff_zip.mp hpairs.flip).2 hmem).2

theorem readsPart_member (h : Grounded rules)
    (hreads : Reads ds names g ruleNames rules (depth + 1)) {p : Property Schema} {f : FieldShape}
    (hkey : p.key = f.key) (hoptional : p.optional = f.optional)
    (hmirrors : Mirrors ds names p.schema f.shape f.shape.constraints)
    (hwithin : p.schema.Within g.root) (hguides : Unguided ds f.shape)
    (hspares : ∀ c ∈ f.shape.constraints, f.shape.Spares c)
    (he : Renders ruleNames p.schema e)
    (hcs : Derives rules (depth + 1) (memberExpr p.key p.optional e) cs) :
    ReadsPart true (EntryFor ds f) cs := by
  obtain ⟨before, after, body, hbefore, hafter, rfl, hbody⟩ := (derives_memberExpr h).mp hcs
  have hvalue : ReadsAs (fun c => Conforms ds Bounded c f.whole f.whole.constraints) body := by
    rcases hbody with ⟨hnull, rfl⟩ | hbody
    · refine ReadsAs.null.imp ?_
      rintro _ rfl
      exact .whole (.inl ⟨hoptional ▸ hnull, rfl⟩)
    · exact (hreads p.schema f.shape _ e body hmirrors hwithin hguides hspares he hbody).imp
        fun c hc => .whole (.inr hc)
  rw [hkey]
  exact hvalue.entry f.key hbefore hafter

theorem readsPart_members (h : Grounded rules)
    (hreads : Reads ds names g ruleNames rules (depth + 1)) {properties : List (Property Schema)}
    {fields : List FieldShape} {members : List Expr} {parts : List (List Char)}
    (hproperties : MirrorsFields ds names properties fields)
    (hwithin : ∀ p ∈ properties, p.schema.Within g.root)
    (hguides : ∀ f ∈ fields, Unguided ds f.shape ∧ ∀ c ∈ f.shape.constraints, f.shape.Spares c)
    (hmembers : List.Forall₂ (fun p m => ∃ e, Renders ruleNames p.schema e ∧
      m = memberExpr p.key p.optional e) properties members)
    (hparts : List.Forall₂ (Derives rules (depth + 1)) members parts) :
    List.Forall₂ (ReadsPart true) (fields.map (EntryFor ds)) parts := by
  rw [List.forall₂_map_left_iff]
  have hall : List.Forall₂ (fun p cs => ∃ e, Renders ruleNames p.schema e ∧
      Derives rules (depth + 1) (memberExpr p.key p.optional e) cs) properties parts := by
    refine Outcome.forall₂_comp hmembers hparts ?_
    rintro p - m - cs - ⟨e, he, rfl⟩ hcs
    exact ⟨e, he, hcs⟩
  refine Outcome.forall₂_comp hproperties.forall₂.flip hall ?_
  rintro f hf p hp cs - ⟨hkey, hoptional, hmirrors⟩ ⟨e, he, hcs⟩
  exact readsPart_member h hreads hkey hoptional hmirrors (hwithin p hp) (hguides f hf).1
    (hguides f hf).2 he hcs

theorem readsAs_object (h : Grounded rules) {members : List Expr}
    {goods : List (String → Content → Prop)}
    (hkeys : ∀ entries, Fulfils goods entries → (Entries.names entries).Nodup)
    (hcs : Derives rules (depth + 1) (objectExpr members) cs)
    (heach : ∀ parts, List.Forall₂ (Derives rules (depth + 1)) members parts →
      List.Forall₂ (ReadsPart true) goods parts) :
    ReadsAs (fun c => ∃ entries, c = .object entries ∧ Fulfils goods entries) cs := by
  obtain ⟨parts, hparts, henclosed⟩ := (derives_objectExpr h).mp hcs
  have hbraces : Enclosed (openBracket true) (closeBracket true) parts cs := henclosed
  exact readsAs_enclosed hbraces (heach parts hparts) fun _ => hkeys

theorem not_derives_objectExpr {members : List Expr} : ¬Derives rules 0 (objectExpr members) cs := by
  cases members <;> exact not_derives_blanks

variable {node : Schema} {body : Expr}

theorem readsAs_record (h : Grounded rules) (hreads : Reads ds names g ruleNames rules depth)
    {id name : String} {description : Option String} (hnode : Defines ds names (.record id) node)
    (hbody : RendersBody ruleNames node body) (hwithin : node.Within g.root)
    (hguides : Unguided ds (.record id name description)) (hcs : Derives rules depth body cs)
    (given : List Constraint) :
    ReadsAs (fun c => Conforms ds Bounded c (.record id name description) given) cs := by
  cases hnode with
  | record named resolved fields =>
  cases hbody with
  | object each =>
  obtain _ | depth := depth
  · exact absurd hcs not_derives_objectExpr
  have hdiffer := (Declarations.fielded_of_fieldShapes resolved).keys
  have hparts (p : Property Schema) (hp : p ∈ _) : p.schema.Within g.root :=
    hwithin.part (Schema.mem_parts_of_mem_properties hp)
  have hread := readsAs_object h (fun entries hfulfils => (fulfils_fields hfulfils).1 ▸ hdiffer) hcs
    fun parts => readsPart_members h hreads fields hparts
      (fun f hf => hguides.field (List.mem_singleton_self id) resolved hf) each
  refine hread.imp ?_
  rintro _ ⟨entries, rfl, hfulfils⟩
  obtain ⟨hkeys, heach⟩ := fulfils_fields hfulfils
  exact .record resolved hkeys heach name description given

/-- The entry of the discriminator. -/
def TagEntry (tag key : String) (c : Content) : Prop := key = discriminatorKey ∧ c = .string tag

theorem readsPart_tag (h : Grounded rules) {tag : String}
    (hm : ∃ e, Renders ruleNames (tagProperty tag).schema e ∧
      body = memberExpr (tagProperty tag).key (tagProperty tag).optional e)
    (hcs : Derives rules (depth + 1) body cs) : ReadsPart true (TagEntry tag) cs := by
  obtain ⟨e, he, rfl⟩ := hm
  obtain ⟨before, after, value, hbefore, hafter, rfl, hvalue⟩ := (derives_memberExpr h).mp hcs
  rcases hvalue with ⟨hnull, -⟩ | hvalue
  · cases hnull
  · rw [eq_stringText_of_constant h he hvalue]
    exact (ReadsAs.stringText tag).entry discriminatorKey hbefore hafter

theorem readsAs_case (h : Grounded rules) (hreads : Reads ds names g ruleNames rules depth)
    {unionName id : String} {records : List String}
    (hnode : Defines ds names (.case unionName records id) node)
    (hbody : RendersBody ruleNames node body) (hwithin : node.Within g.root)
    (hguides : Unguided ds (.union "" none [⟨id, ds.caseTag id⟩]))
    (hcs : Derives rules depth body cs) (given : List Constraint) :
    ReadsAs (fun c => Conforms ds Bounded c (.union "" none [⟨id, ds.caseTag id⟩]) given) cs := by
  cases hnode with
  | @case _ _ _ _ fields properties named resolved untagged mirrors description =>
  cases hbody with
  | object each =>
  obtain _ | depth := depth
  · exact absurd hcs not_derives_objectExpr
  cases each with
  | cons htag each =>
  have hdiffer := (Declarations.fielded_of_fieldShapes resolved).keys
  have hparts (p : Property Schema) (hp : p ∈ properties) : p.schema.Within g.root :=
    hwithin.part (Schema.mem_parts_of_mem_properties (List.mem_cons_of_mem _ hp))
  have hkeys (entries : List (String × Content))
      (hfulfils : Fulfils (TagEntry (ds.caseTag id) :: fields.map (EntryFor ds)) entries) :
      (Entries.names entries).Nodup := by
    cases hfulfils with
    | cons hfirst hrest =>
      have hnames := (fulfils_fields hrest).1
      rw [Entries.names_cons, List.nodup_cons, hnames, hfirst.1]
      exact ⟨keys_eq_of_alike mirrors.alike ▸ untagged, hdiffer⟩
  have hread := readsAs_object h hkeys hcs fun parts hall => by
    cases hall with
    | cons hfirst hrest =>
      exact .cons (readsPart_tag h htag hfirst) (readsPart_members h hreads mirrors hparts
        (fun f hf => hguides.field (List.mem_singleton_self id) resolved hf) each hrest)
  refine hread.imp ?_
  rintro _ ⟨entries, rfl, hfulfils⟩
  cases hfulfils with
  | @cons _ entry _ entries hfirst hrest =>
    obtain ⟨key, value⟩ := entry
    obtain ⟨rfl, rfl⟩ := hfirst
    obtain ⟨hnames, heach⟩ := fulfils_fields hrest
    have hone : (⟨id, ds.caseTag id⟩ : Case) ∈ [⟨id, ds.caseTag id⟩] := List.mem_singleton_self _
    exact .union hone resolved hnames heach "" none given

/-- What defines the name of a role derives what conforms to a shape of the role. -/
theorem readsAs_defined (h : Grounded rules) (hreads : Reads ds names g ruleNames rules depth)
    {role : Role} (hnode : Defines ds names role node) (hdescribes : role.Describes ds described)
    (hbody : RendersBody ruleNames node body) (hwithin : node.Within g.root)
    (hguides : Unguided ds described) (hcs : Derives rules depth body cs)
    (given : List Constraint) :
    ReadsAs (fun c => Conforms ds Bounded c described given) cs := by
  cases hnode with
  | enum =>
    cases described <;> cases hdescribes
    cases hbody with
    | union each =>
    obtain ⟨e, hmem, hderives⟩ := derives_alt.mp hcs
    obtain ⟨w, hw, he⟩ := Outcome.exists_mem_left (List.forall₂_map_left_iff.mp each) hmem
    rw [eq_stringText_of_constant h he hderives]
    refine (ReadsAs.stringText w.1).imp ?_
    rintro _ rfl
    exact .enum (List.mem_map_of_mem hw) _ _ given
  | record named resolved fields description =>
    cases described <;> cases hdescribes
    exact readsAs_record h hreads (.record named resolved fields description) hbody hwithin hguides
      hcs given
  | @case _ id _ _ _ _ named resolved untagged fields description =>
    cases described <;> cases hdescribes
    have hone := hguides.of_case (List.mem_singleton_self _)
    refine (readsAs_case h hreads (.case named resolved untagged fields description) hbody hwithin
      hone hcs []).imp fun c hc => ?_
    exact hc.of_case (List.mem_singleton_self _) _ _ given
  | @union unionName name records alternatives named distinct aligned each description =>
    cases described <;> cases hdescribes
    cases hbody with
    | union renders =>
    obtain ⟨e, hmem, hderives⟩ := derives_alt.mp hcs
    obtain ⟨t, ht, he⟩ := Outcome.exists_mem_left renders hmem
    obtain ⟨id, hid, hcase⟩ := Outcome.exists_mem_right
      (List.forall₂_iff_zip.mpr ⟨aligned, fun hmem => each _ _ hmem⟩) ht
    have hone : (⟨id, ds.caseTag id⟩ : Case) ∈ records.map fun id => ⟨id, ds.caseTag id⟩ :=
      List.mem_map_of_mem hid
    have hpart : t ∈ (Schema.union name description alternatives).parts := ht
    have hmirrors : Mirrors ds names t (.union "" none [⟨id, ds.caseTag id⟩]) [] :=
      hcase.mirrors rfl
    have hread := hreads t _ _ e cs hmirrors (hwithin.part hpart)
      (hguides.of_case hone) (fun _ hc => absurd hc List.not_mem_nil) he hderives
    exact hread.imp fun c hc => hc.of_case hone _ _ given

/-- What the expressions of a schema derive is read as content that conforms. -/
theorem reads {shape : Shape} (hg : g.Closed ds names shape) (hrules : RulesFor g ruleNames rules)
    (depth : Nat) : Reads ds names g ruleNames rules depth := by
  induction depth with
  | zero =>
    refine reads_of_named hrules.toGrounded ?_
    intro s described given e cs name _ _ hname he hcs
    cases he with
    | named => exact absurd hcs not_derives_rule
    | _ => cases hname
  | succ depth ih =>
    refine reads_of_named hrules.toGrounded ?_
    intro s described given e cs name hs hguides hname he hcs
    obtain ⟨node, body, role, hnode, hbody, hrole, -, hdescribes, hiff⟩ :=
      exists_defines_of_renders hg hrules hs hname he
    exact readsAs_defined hrules.toGrounded ih hrole hdescribes hbody hnode hguides
      ((hiff depth cs).mp hcs) given

end Grammar

end StructuredOutput

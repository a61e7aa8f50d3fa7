import StructuredOutput.Proofs.Codec.Conforms
import StructuredOutput.Proofs.Content.Serialize
import StructuredOutput.Proofs.Grammar.Forms
import StructuredOutput.Proofs.Grammar.Rules

/-!
The grammar of a type derives what values of the type are written as, if they meet the refinements
that a grammar speaks of.
-/

namespace StructuredOutput

/-- Whether a grammar says what a refinement asks for. -/
def Constraint.inGrammar : Constraint → Bool
  | text (.pattern _) | range _ => false
  | _ => true

/-- What a grammar derives of texts, numbers and arrays: those that meet what it says of them. A
text without options has no delete character, and an integer is small enough to be told apart from
its neighbours. -/
structure Sayable (aspect : Aspect) (shape : Shape) (given : List Constraint) : Prop where
  meets : ∀ c ∈ given, c.inGrammar = true → c.admits (fun _ _ => true) aspect = true
  kept : ∀ s constraints, aspect = .text s → shape = .primitive .text constraints →
    (∀ rule, .text rule ∈ given → rule.isChoice = false) → Grammar.delete ∉ s.toList
  small : ∀ units constraints, aspect = .number units → shape = .primitive .integer constraints →
    units.natAbs < Content.safeLimit * unitsPerOne

namespace Grammar

open Json

variable {rules : List Rule} {depth level : Nat}

/-! ### Texts -/

theorem charText_escapedChar {c : Char} (h : c ≠ delete) : CharText (escapedChar false c) := by
  have hwrites := writesChar_escapedChar c
  generalize escapedChar false c = p at hwrites
  cases hwrites with
  | plain quotable => exact .plain quotable h
  | escape stands => exact .escape stands
  | unit digits => exact .unit digits

/-- A string is written in one part for every character. -/
theorem freeText_stringText {spans : List Span} {s : String} (hkept : delete ∉ s.toList)
    (hlength : Span.Obeys spans s.length) : FreeText spans (stringText false s.toList) := by
  refine ⟨s.toList.map (escapedChar false), ?_, ?_, List.forall_mem_map.mpr fun c hc => ?_⟩
  · rw [quoted, stringText, List.flatMap_def, List.cons_append]
  · rwa [List.length_map, String.length_toList]
  · exact charText_escapedChar fun h => hkept (h ▸ hc)

theorem derives_stringText (h : Grounded rules) {given : List TextRule} {e : Expr} {s : String}
    (he : textExpr given = .ok e)
    (hmeets : ∀ rule ∈ given, (Constraint.text rule).inGrammar = true →
      rule.admits (fun _ _ => true) s = true)
    (hkept : (∀ rule ∈ given, rule.isChoice = false) → delete ∉ s.toList) :
    Derives rules (depth + 4) e (stringText false s.toList) := by
  rw [derives_textExpr h he]
  cases hoptions : lastOptions given with
  | some options =>
    obtain ⟨rule, hrule, hsome⟩ := List.mem_filterMap.mp (List.mem_of_getLast? hoptions)
    refine ⟨s, ?_, rfl⟩
    cases rule with
    | constant value =>
      cases hsome
      exact List.mem_singleton.mpr (beq_iff_eq.mp (hmeets _ hrule rfl))
    | oneOf values =>
      cases hsome
      exact List.contains_iff_mem.mp (hmeets _ hrule rfl)
    | pattern | length => cases hsome
  | none =>
    refine freeText_stringText (hkept (lastOptions_eq_none.mp hoptions))
      (Span.obeys_of_contains fun span hspan => ?_)
    obtain ⟨rule, hrule, hsome⟩ := List.mem_filterMap.mp hspan
    cases rule <;> cases hsome
    exact hmeets _ hrule rfl

/-! ### Numbers -/

theorem derives_jsonNumber (h : Grounded rules) (x : Double) :
    Derives rules (depth + 2) (.rule "number")
      (Json.text compactStyle level (Content.jsonNumber x)) := by
  obtain ⟨n, htext, -⟩ := Content.exists_numeral_of_number x (plain_styleFor none) level
  exact (derives_number h).mpr ⟨n.literal, htext.symm⟩

/-- A whole number that is not too great is written as an integer. -/
theorem derives_jsonNumber_whole (h : Grounded rules) {x : Double} (hwhole : x.isIntegral = true)
    (hsmall : x.signedUnits.natAbs < Content.safeLimit * unitsPerOne) :
    Derives rules (depth + 1) (.rule "integer")
      (Json.text compactStyle level (Content.jsonNumber x)) := by
  obtain ⟨n, htext, hjson⟩ := Content.exists_numeral_of_number x (plain_styleFor none) level
  refine (derives_integer h).mpr ⟨n.literal, ?_, htext.symm⟩
  by_contra hnot
  have hreal := n.json_real (not_and_or.mp hnot)
  have hbelow : x.magnitudeBelow Content.safeLimit = true := by
    rw [← x.units_eq_natAbs] at hsmall
    exact decide_eq_true hsmall
  rw [hjson, Content.jsonNumber, hwhole, hbelow] at hreal
  cases hreal

/-! ### Containers -/

theorem listing_intercalate {parts : List (List Char)} (hne : parts ≠ []) :
    Listing parts (List.intercalate [','] parts) := by
  have hblank : IsBlank [] := fun c hc => absurd hc List.not_mem_nil
  induction parts with
  | nil => exact absurd rfl hne
  | cons part parts ih =>
    cases parts with
    | nil => simpa using Listing.last part hblank
    | cons next parts =>
      rw [List.intercalate_cons_cons]
      simpa using Listing.more part hblank hblank (ih (List.cons_ne_nil next parts))

theorem enclosed_enclose (opening closing : Char) (parts : List (List Char)) :
    Enclosed opening closing parts (compactStyle.enclose level opening closing parts) := by
  refine ⟨[], List.intercalate [','] parts, fun c hc => absurd hc List.not_mem_nil, ?_, ?_⟩
  · cases parts <;> simp [Style.enclose, Style.lineBreak, compactStyle]
  · cases parts with
    | nil => exact .inl ⟨rfl, rfl⟩
    | cons part parts => exact .inr (listing_intercalate (List.cons_ne_nil part parts))

/-- What is derived at some depths is derived at one depth. -/
theorem exists_common_depth {es : List Expr} {texts : List (List Char)}
    (h : List.Forall₂ (fun e cs => ∃ depth, Derives rules depth e cs) es texts) :
    ∃ depth, List.Forall₂ (Derives rules depth) es texts := by
  induction h with
  | nil => exact ⟨0, .nil⟩
  | cons hfirst _ ih =>
    obtain ⟨first, hfirst⟩ := hfirst
    obtain ⟨rest, hrest⟩ := ih
    refine ⟨max first rest, .cons (hfirst.mono (Nat.le_max_left _ _)) (hrest.imp ?_)⟩
    exact fun _ _ hderives => hderives.mono (Nat.le_max_right _ _)

theorem derives_array (h : Grounded rules) {item e : Expr} {counts : List Span}
    {items : List Content} (he : arrayExpr item counts = .ok e)
    (hcounts : ∀ span ∈ counts, span.contains items.length = true)
    (each : ∀ c ∈ items, ∃ depth, Derives rules depth item
      (Json.text compactStyle (level + 1) c.toJson)) :
    ∃ depth, Derives rules depth e (Json.text compactStyle level (Content.array items).toJson) := by
  obtain ⟨depth, heach⟩ := @Outcome.exists_common_depth _ (fun depth (c : Content) =>
    Derives rules depth item (Json.text compactStyle (level + 1) c.toJson)) _
    (fun _ _ _ hle hderives => hderives.mono hle) each
  have htexts : itemTexts compactStyle (level + 1) (Content.toItems items) =
      items.map fun c => Json.text compactStyle (level + 1) c.toJson := by
    rw [itemTexts_eq, Content.toItems_eq_map]
    simp [partText, Function.comp_def]
  refine ⟨depth + 1, (derives_arrayExpr h he).mpr ⟨_, ?_, ?_, enclosed_enclose '[' ']' _⟩⟩
  · rw [htexts, List.length_map]
    exact Span.obeys_of_contains hcounts
  · rw [htexts]
    exact List.forall_mem_map.mpr fun c hc => (heach c hc).mono (Nat.le_add_right depth 1)

/-- An entry of an object as it is written. -/
def entryText (level : Nat) (e : String × Content) : List Char :=
  partText compactStyle level true (e.1, e.2.toJson)

theorem derives_entry (h : Grounded rules) {e : String × Content} {optional : Bool} {value : Expr}
    (hvalue : optional = true ∧ e.2 = .null ∨
      ∃ depth, Derives rules depth value (Json.text compactStyle level e.2.toJson)) :
    ∃ depth, Derives rules depth (memberExpr e.1 optional value) (entryText level e) := by
  have hblank : IsBlank [] := fun c hc => absurd hc List.not_mem_nil
  have hmember (depth : Nat) (hbody : optional = true ∧ e.2 = .null ∨
      Derives rules (depth + 1) value (Json.text compactStyle level e.2.toJson)) :
      Derives rules (depth + 1) (memberExpr e.1 optional value) (entryText level e) := by
    have htext : entryText level e = stringText false e.1.toList ++
        ([] ++ ':' :: ([] ++ Json.text compactStyle level e.2.toJson)) := by
      simp [entryText, partText, compactStyle]
    refine (derives_memberExpr h).mpr ⟨[], [], _, hblank, hblank, htext, hbody.imp_left ?_⟩
    rintro ⟨hoptional, hnull⟩
    rw [hnull]
    exact ⟨hoptional, by simp [Content.toJson, Json.text]⟩
  rcases hvalue with hnull | ⟨depth, hderives⟩
  · exact ⟨1, hmember 0 (.inl hnull)⟩
  · exact ⟨depth + 1, hmember depth (.inr (hderives.mono (Nat.le_add_right depth 1)))⟩

theorem derives_object (h : Grounded rules) {members : List Expr}
    {entries : List (String × Content)}
    (each : List.Forall₂ (fun m e => ∃ depth, Derives rules depth m (entryText (level + 1) e))
      members entries) : ∃ depth, Derives rules depth (objectExpr members)
        (Json.text compactStyle level (Content.object entries).toJson) := by
  obtain ⟨depth, heach⟩ := exists_common_depth (List.forall₂_map_right_iff.mpr each)
  have htexts : entryTexts compactStyle (level + 1) (Content.toEntries entries) =
      entries.map (entryText (level + 1)) := by
    rw [entryTexts_eq, Content.toEntries_eq_map, List.map_map]
    rfl
  refine ⟨depth + 1, (derives_objectExpr h).mpr ⟨_, ?_, enclosed_enclose _ _ _⟩⟩
  rw [htexts]
  exact heach.imp fun _ _ hderives => hderives.mono (Nat.le_add_right depth 1)

/-! ### Content -/

section

variable {ds : Declarations} {names : RoleNames} {g : SchemaGraph} {ruleNames : RuleNames}
  {shape : Shape} {c : Content} {node : Schema} {body : Expr}

/-- What conforming content is written as is derived from the expression of a schema. -/
def Derivable (ds : Declarations) (names : RoleNames) (g : SchemaGraph) (ruleNames : RuleNames)
    (rules : List Rule) (c : Content) : Prop :=
  ∀ shape given s e level, Conforms ds Sayable c shape given →
    Mirrors ds names s shape given → s.Within g.root → Renders ruleNames s e →
      ∃ depth, Derives rules depth e (Json.text compactStyle level c.toJson)

theorem derives_entries (h : Grounded rules) {properties : List (Property Schema)}
    {fields : List FieldShape} {members : List Expr} {entries : List (String × Content)}
    (hproperties : MirrorsFields ds names properties fields)
    (hwithin : ∀ p ∈ properties, p.schema.Within g.root)
    (hmembers : List.Forall₂ (fun p m => ∃ e, Renders ruleNames p.schema e ∧
      m = memberExpr p.key p.optional e) properties members)
    (hkeys : Entries.names entries = fields.map (·.key))
    (heach : ∀ e f, (e, f) ∈ entries.zip fields →
      Conforms ds Sayable e.2 f.whole f.whole.constraints)
    (ih : ∀ e ∈ entries, Derivable ds names g ruleNames rules e.2) (level : Nat) :
    List.Forall₂ (fun m e => ∃ depth, Derives rules depth m (entryText level e))
      members entries := by
  have hnames := Entries.forall₂_of_names (hkeys.trans (keys_eq_of_alike hproperties.alike).symm)
  obtain ⟨haligned, hsame⟩ := List.forall₂_iff_zip.mp hnames
  have hpairs : List.Forall₂ (fun (e : String × Content) p => (e, p) ∈ entries.zip properties)
      entries properties := List.forall₂_iff_zip.mpr ⟨haligned, fun hmem => hmem⟩
  refine Outcome.forall₂_comp hmembers.flip hpairs.flip ?_
  rintro m - p hp e he ⟨value, hvalue, rfl⟩ hmem
  obtain ⟨f, hf, hoptional, hmirrors⟩ := hproperties.exists_of_zip hmem
  rw [← hsame hmem]
  refine derives_entry h ?_
  rw [hoptional]
  refine (heach e f hf).of_whole.imp_right fun hconforms => ?_
  exact ih e he f.shape _ p.schema value level hconforms hmirrors (hwithin p hp) hvalue

theorem derives_record (h : Grounded rules) {id name : String} {description : Option String}
    {given : List Constraint} (hnode : Defines ds names (.record id) node)
    (hbody : RendersBody ruleNames node body) (hwithin : node.Within g.root)
    (hc : Conforms ds Sayable c (.record id name description) given)
    (ih : ∀ part ∈ c.parts, Derivable ds names g ruleNames rules part) (level : Nat) :
    ∃ depth, Derives rules depth body (Json.text compactStyle level c.toJson) := by
  cases hnode with
  | record named resolved fields =>
  cases hbody with
  | object each =>
  cases hc with
  | record resolved' keys conform =>
    obtain rfl := Except.ok.inj (resolved.symm.trans resolved')
    have hparts (p : Property Schema) (hp : p ∈ _) : p.schema.Within g.root :=
      hwithin.part (Schema.mem_parts_of_mem_properties hp)
    have hentries := List.forall_mem_map.mp ih
    exact derives_object h (derives_entries h fields hparts each keys conform hentries _)

theorem derives_constant (h : Grounded rules) {w : String} {e : Expr}
    (he : Renders ruleNames (.string [.constant w]) e) :
    Derives rules (depth + 4) e (stringText false w.toList) := by
  cases he with
  | string text =>
    refine derives_stringText h text (fun rule hrule _ => ?_) ?_
    · obtain rfl := List.mem_singleton.mp hrule
      exact beq_self_eq_true w
    · intro hnone
      cases hnone _ List.mem_cons_self
  | named named => cases named

theorem derives_tag (h : Grounded rules) {tag : String} {m : Expr}
    (hm : ∃ e, Renders ruleNames (tagProperty tag).schema e ∧
      m = memberExpr (tagProperty tag).key (tagProperty tag).optional e) :
    ∃ depth, Derives rules depth m (entryText level (discriminatorKey, .string tag)) := by
  obtain ⟨e, he, rfl⟩ := hm
  have hvalue : Derives rules 4 e (Json.text compactStyle level (Content.string tag).toJson) := by
    rw [Content.toJson, Json.text]
    exact derives_constant h he
  exact derives_entry (e := (discriminatorKey, .string tag)) h (.inr ⟨4, hvalue⟩)

theorem derives_case (h : Grounded rules) {unionName id : String} {records : List String}
    (hnode : Defines ds names (.case unionName records id) node)
    (hbody : RendersBody ruleNames node body) (hwithin : node.Within g.root)
    (hc : Conforms ds Sayable c (.union "" none [⟨id, ds.caseTag id⟩]) [])
    (ih : ∀ part ∈ c.parts, Derivable ds names g ruleNames rules part) (level : Nat) :
    ∃ depth, Derives rules depth body (Json.text compactStyle level c.toJson) := by
  cases hnode with
  | case named resolved untagged fields =>
  cases hbody with
  | object each =>
  cases hc with
  | union mem resolved' keys conform =>
    obtain rfl := List.mem_singleton.mp mem
    obtain rfl := Except.ok.inj (resolved.symm.trans resolved')
    cases each with
    | cons htag each =>
    have hparts (p : Property Schema) (hp : p ∈ _) : p.schema.Within g.root :=
      hwithin.part (Schema.mem_parts_of_mem_properties (List.mem_cons_of_mem _ hp))
    have hentries (entry : String × Content) (hentry : entry ∈ _) :
        Derivable ds names g ruleNames rules entry.2 :=
      ih entry.2 (List.mem_map_of_mem (List.mem_cons_of_mem _ hentry))
    have hrest := derives_entries h fields hparts each keys conform hentries (level + 1)
    exact derives_object h (.cons (derives_tag h htag) hrest)

/-- What defines the name of a role derives what conforms to a shape of the role. -/
theorem derives_defined (hg : g.Closed ds names shape) (hrules : RulesFor g ruleNames rules)
    {described : Shape} {given : List Constraint} {role : Role}
    (hnode : Defines ds names role node) (hdescribes : role.Describes ds described)
    (hbody : RendersBody ruleNames node body) (hwithin : node.Within g.root)
    (hc : Conforms ds Sayable c described given)
    (ih : ∀ part ∈ c.parts, Derivable ds names g ruleNames rules part) (level : Nat) :
    ∃ depth, Derives rules depth body (Json.text compactStyle level c.toJson) := by
  have hgrounded := hrules.toGrounded
  cases hnode with
  | enum =>
    cases described <;> cases hdescribes
    cases hbody with
    | union each =>
    cases hc with
    | enum declared =>
      obtain ⟨w, hw, rfl⟩ := List.mem_map.mp declared
      obtain ⟨e, hmem, he⟩ := Outcome.exists_mem_right (List.forall₂_map_left_iff.mp each) hw
      refine ⟨4, derives_alt.mpr ⟨e, hmem, ?_⟩⟩
      rw [Content.toJson, Json.text]
      exact derives_constant hgrounded he
  | record named resolved fields description =>
    cases described <;> cases hdescribes
    exact derives_record hgrounded (.record named resolved fields description) hbody hwithin hc ih
      level
  | case named resolved untagged fields description =>
    cases described <;> cases hdescribes
    obtain ⟨found, hfound, hone⟩ := hc.exists_case
    obtain rfl := List.mem_singleton.mp hfound
    exact derives_case hgrounded (.case named resolved untagged fields description) hbody hwithin
      hone ih level
  | @union unionName name records alternatives named distinct aligned each description =>
    cases described <;> cases hdescribes
    cases hbody with
    | union renders =>
    obtain ⟨found, hfound, hone⟩ := hc.exists_case
    obtain ⟨id, hid, rfl⟩ := List.mem_map.mp hfound
    obtain ⟨t, ht, hcase⟩ := Outcome.exists_mem_left
      (List.forall₂_iff_zip.mpr ⟨aligned, fun hmem => each _ _ hmem⟩) hid
    obtain ⟨e, hmem, he⟩ := Outcome.exists_mem_right renders ht
    -- The rule of the alternative is that of the same case.
    obtain ⟨caseName, hcaseName, hcaseNamed⟩ := hcase.named
    have hmirrors : Mirrors ds names t (.union "" none [⟨id, ds.caseTag id⟩]) [] :=
      hcase.mirrors rfl
    obtain ⟨node', body', role', hwithin', hbody', hrole', hnamed', -, hiff⟩ :=
      exists_defines_of_renders hg hrules hmirrors hcaseName he
    obtain rfl := Derivation.role_unique hg.distinct hcaseNamed hnamed'
    obtain ⟨depth, hdepth⟩ := derives_case hgrounded hrole' hbody' hwithin' hone ih level
    exact ⟨depth + 1, derives_alt.mpr ⟨e, hmem, (hiff depth _).mpr hdepth⟩⟩

/-- What has no name derives what conforms to its shape. -/
theorem derives_unnamed (h : Grounded rules) {described : Shape} {given : List Constraint}
    {s : Schema} {e : Expr} (hs : Mirrors ds names s described given) (hname : s.name? = none)
    (hwithin : s.Within g.root) (he : Renders ruleNames s e)
    (hc : Conforms ds Sayable c described given)
    (ih : ∀ part ∈ c.parts, Derivable ds names g ruleNames rules part) (level : Nat) :
    ∃ depth, Derives rules depth e (Json.text compactStyle level c.toJson) := by
  cases hs with
  | text given constraints =>
    cases he with
    | named named => cases hname.symm.trans named
    | string text =>
    cases hc with
    | text held =>
      refine ⟨4, derives_stringText h text (fun rule hrule hin => ?_) ?_⟩
      · exact held.meets _ (List.mem_map_of_mem hrule) hin
      · intro hnone
        refine held.kept _ constraints rfl rfl fun rule hrule => ?_
        obtain ⟨own, hown, heq⟩ := List.mem_map.mp hrule
        cases heq
        exact hnone _ hown
  | integer whole constraints =>
    cases he with
    | named named => cases hname.symm.trans named
    | integer =>
    cases hc with
    | integer hintegral held =>
      exact ⟨1, derives_jsonNumber_whole h hintegral (held.small _ constraints rfl rfl)⟩
  | real ranges constraints =>
    cases he with
    | named named => cases hname.symm.trans named
    | number =>
    cases hc with
    | real held => exact ⟨2, derives_jsonNumber h _⟩
  | bool constraints =>
    cases he with
    | named named => cases hname.symm.trans named
    | boolean =>
    cases hc with
    | bool b =>
      refine ⟨1, (derives_boolean h).mpr ⟨b, ?_⟩⟩
      cases b <;> rw [Content.toJson, Json.text] <;> rfl
  | literal given values constraints =>
    cases he with
    | named named => cases hname.symm.trans named
    | string text =>
    cases hc with
    | literal option held =>
      refine ⟨4, derives_stringText h text (fun rule hrule hin => ?_) ?_⟩
      · rcases List.mem_cons.mp hrule with rfl | hrule
        · exact admits_choice option
        · exact held.meets _ (List.mem_map_of_mem hrule) hin
      · intro hnone
        have hchoice := hnone _ List.mem_cons_self
        unfold Derivation.choice at hchoice
        split at hchoice <;> cases hchoice
  | @array item shape given items container constraints =>
    cases he with
    | named named => cases hname.symm.trans named
    | array rendered array =>
    cases hc with
    | array held each =>
      have hitem : item.Within g.root := hwithin.part (List.mem_singleton_self item)
      refine derives_array h array (fun span hspan => ?_) fun part hpart => ?_
      · obtain ⟨rule, hrule, hcount⟩ := List.mem_filterMap.mp hspan
        cases rule <;> cases hcount
        exact held.meets _ hrule rfl
      · exact ih part hpart shape _ item _ _ (each part hpart) items hitem rendered
  | _ => cases hname

/-- What conforming content is written as is derived from every expression of its shape. -/
theorem derivable (hg : g.Closed ds names shape) (hrules : RulesFor g ruleNames rules)
    (c : Content) : Derivable ds names g ruleNames rules c := by
  induction c using Content.parts_induction with
  | h c ih =>
    intro described given s e level hc hs hwithin he
    cases hname : s.name? with
    | none => exact derives_unnamed hrules.toGrounded hs hname hwithin he hc ih level
    | some name =>
      obtain ⟨node, body, role, hnode, hbody, hrole, -, hdescribes, hiff⟩ :=
        exists_defines_of_renders hg hrules hs hname he
      obtain ⟨depth, hdepth⟩ :=
        derives_defined hg hrules hrole hdescribes hbody hnode hc ih level
      exact ⟨depth + 1, (hiff depth _).mpr hdepth⟩

end

end Grammar

end StructuredOutput

import StructuredOutput.Proofs.Grammar.Forms
import StructuredOutput.Proofs.Grammar.Rules
import StructuredOutput.Proofs.Grammar.Written
import StructuredOutput.Proofs.Schema.Offers

/-!
The text of the rules of a schema is read as the rules. A choice of no texts is the one thing that
is written like something else, the empty text.
-/

namespace StructuredOutput.Grammar

variable {lenient : Bool} {e : Expr} {es : List Expr}

/-! ### Where expressions can stand -/

/-- An expression is read as one item, so that it can be repeated. -/
def IsItem (lenient : Bool) (e : Expr) : Prop := ∃ item, ReadAs lenient e [[item]]

/-- An expression is read as one sequence, so that it can be among others. -/
def IsPart (lenient : Bool) (e : Expr) : Prop := ∃ items, ReadAs lenient e [items]

/-- An expression can be read, as a whole or in parentheses. -/
def IsBody (lenient : Bool) (e : Expr) : Prop := ∃ sequences, ReadAs lenient e sequences

theorem IsItem.part (h : IsItem lenient e) : IsPart lenient e := h.imp' (fun item => [item]) fun _ h => h

theorem IsPart.body (h : IsPart lenient e) : IsBody lenient e :=
  h.imp' (fun items => [items]) fun _ h => h

theorem IsBody.group (h : IsBody lenient e) : IsItem lenient (.group e) :=
  h.imp' _ fun _ => .group

theorem IsItem.opt (h : IsItem lenient e) : IsItem lenient (.opt e) := h.imp' _ fun _ => .opt

theorem IsItem.star (h : IsItem lenient e) : IsItem lenient (.star e) := h.imp' _ fun _ => .star

theorem IsItem.plus (h : IsItem lenient e) : IsItem lenient (.plus e) := h.imp' _ fun _ => .plus

theorem IsItem.times (h : IsItem lenient e) (least : Nat) (greatest : Option Nat) :
    IsItem lenient (.times e least greatest) :=
  h.imp' _ fun _ h => .times h least greatest

theorem isItem_terminal (cs : List Char) : IsItem lenient (.terminal cs) := ⟨_, .terminal cs⟩

theorem isItem_rule {name : String} (h : IsName name.toList) : IsItem lenient (.rule name) :=
  ⟨_, .rule h⟩

theorem IsPart.nil : IsPart lenient (.seq []) := ⟨_, .nil⟩

theorem IsPart.cons (h : IsPart lenient e) (hes : IsPart lenient (.seq es)) :
    IsPart lenient (.seq (e :: es)) := by
  obtain ⟨items, hitems⟩ := h
  obtain ⟨others, hothers⟩ := hes
  exact ⟨_, .cons hitems hothers⟩

theorem isPart_seq (h : ∀ e ∈ es, IsPart lenient e) : IsPart lenient (.seq es) := by
  induction es with
  | nil => exact .nil
  | cons e es ih =>
    obtain ⟨he, hes⟩ := List.forall_mem_cons.mp h
    exact he.cons (ih hes)

theorem isBody_alt (hsome : lenient = true ∨ es ≠ []) (h : ∀ e ∈ es, IsPart lenient e) :
    IsBody lenient (.alt es) := by
  induction es with
  | nil => exact ⟨[[]], .empty (hsome.resolve_right fun hne => hne rfl)⟩
  | cons e es ih =>
    obtain ⟨⟨items, hitems⟩, hes⟩ := List.forall_mem_cons.mp h
    cases es with
    | nil => exact ⟨_, .last hitems⟩
    | cons next es =>
      obtain ⟨others, hothers⟩ := ih (.inr (List.cons_ne_nil _ _)) hes
      exact ⟨_, .more hitems hothers⟩

theorem isBody_or {one other : Expr} (hone : IsPart lenient one) (hother : IsPart lenient other) :
    IsBody lenient (.alt [one, other]) :=
  isBody_alt (.inr (List.cons_ne_nil _ _))
    (List.forall_mem_cons.mpr ⟨hone, List.forall_mem_singleton.mpr hother⟩)

/-! ### Classes of characters -/

/-- Whether a text can stand between marks. -/
def Quote.fits (q : Quote) : List Char → Bool
  | [] => true
  | ['\\'] => false
  | '\\' :: _ :: cs => q.fits cs
  | c :: cs => c != q.close && q.fits cs

theorem Quote.keeps_of_fits {q : Quote} (hq : q.close ≠ '\\') {cs : List Char}
    (h : q.fits cs = true) : q.Keeps cs := by
  fun_induction Quote.fits q cs with
  | case1 => exact keeps_nil
  | case2 => cases h
  | case3 c cs ih => exact (keeps_escaped hq c).append (ih h)
  | case4 c cs hlast hescape ih =>
    obtain ⟨hclose, hrest⟩ := Bool.and_eq_true_iff.mp h
    have hne : c ≠ '\\' := by
      rintro rfl
      cases cs with
      | nil => exact hlast rfl rfl
      | cons d cs => exact hescape d cs rfl rfl
    exact (keeps_plain (by simpa using hclose) hne).append (ih hrest)

theorem isItem_class {negated : Bool} {ranges : List (Char × Char)}
    (hfits : Quote.chars.fits
      ((if negated then ['^'] else []) ++ ranges.flatMap rangeText) = true)
    (htoken : Quote.chars.token? ((if negated then ['^'] else []) ++ ranges.flatMap rangeText) =
      some (.chars negated ranges)) :
    IsItem lenient (.chars negated ranges) := by
  refine ⟨_, .chars ?_⟩
  rw [Expr.text]
  exact Quote.written rfl (Quote.keeps_of_fits (by decide) hfits) htoken

/-! ### JSON's own rules -/

theorem isItem_word (s : String) : IsItem lenient (word s) := isItem_terminal s.toList

theorem isName_primitive {r : Rule} (hr : r ∈ primitiveRules) : IsName r.name.toList := by
  have hall : ∀ r ∈ primitiveRules, r.name.toList ≠ [] ∧ r.name.toList.all isNameChar = true := by
    decide
  exact (hall r hr).imp_right List.all_eq_true.mp

theorem isItem_of_primitive {name : String} (h : name ∈ primitiveRules.map (·.name)) :
    IsItem lenient (.rule name) := by
  obtain ⟨r, hr, rfl⟩ := List.mem_map.mp h
  exact isItem_rule (isName_primitive hr)

theorem isBody_primitive {r : Rule} (hr : r ∈ primitiveRules) : IsBody lenient r.body := by
  have hchar : IsItem lenient (.rule "char") := isItem_of_primitive (by decide)
  have hescape : IsItem lenient (.rule "escape") := isItem_of_primitive (by decide)
  have hhex : IsItem lenient (.rule "hex") := isItem_of_primitive (by decide)
  have hinteger : IsItem lenient (.rule "integer") := isItem_of_primitive (by decide)
  have hword (s : String) : IsPart lenient (word s) := (isItem_word s).part
  have hdigit : IsItem lenient (.chars false [('0', '9')]) := isItem_class rfl rfl
  have hfirst : IsItem lenient (.chars false [('1', '9')]) := isItem_class rfl rfl
  have hmark : IsItem lenient (.chars false [('e', 'e'), ('E', 'E')]) := isItem_class rfl rfl
  have hsign : IsItem lenient (.chars false [('-', '-'), ('+', '+')]) := isItem_class rfl rfl
  simp only [primitiveRules, List.mem_cons, List.not_mem_nil, or_false] at hr
  rcases hr with rfl | rfl | rfl | rfl | rfl | rfl | rfl | rfl | rfl
  case _ => exact (isItem_class rfl rfl).star.part.body
  case _ => exact (IsPart.cons (hword _) <| .cons hchar.star.part <| .cons (hword _) .nil).body
  case _ => exact isBody_or (isItem_class rfl rfl).part (.cons (hword _) <| .cons hescape.part .nil)
  case _ =>
    exact isBody_or (isItem_class rfl rfl).part (.cons (hword _) <| .cons hhex.part <|
      .cons hhex.part <| .cons hhex.part <| .cons hhex.part .nil)
  case _ => exact (isItem_class rfl rfl).part.body
  case _ =>
    have hwhole := isBody_or (hword "0") (.cons hfirst.part <| .cons hdigit.star.part .nil)
    exact (IsPart.cons (isItem_word "-").opt.part <| .cons hwhole.group.part .nil).body
  case _ =>
    have hfraction := (IsPart.cons (hword ".") <| .cons hdigit.plus.part .nil).body
    have hpower := (IsPart.cons hmark.part <| .cons hsign.opt.part <| .cons hdigit.plus.part .nil).body
    exact (IsPart.cons hinteger.part <| .cons hfraction.group.opt.part <|
      .cons hpower.group.opt.part .nil).body
  case _ => exact isBody_or (hword _) (hword _)
  case _ => exact (hword _).body

/-! ### Texts, arrays and objects -/

theorem isItem_ws : IsItem lenient ws := isItem_rule (isName_primitive List.mem_cons_self)

theorem isPart_textExpr {given : List TextRule} (he : textExpr given = .ok e)
    (hoptions : lenient = true ∨ lastOptions given ≠ some []) : IsPart lenient e := by
  obtain ⟨b, hb, he⟩ := Outcome.bind_eq_ok.mp he
  obtain ⟨hlast, -, -⟩ := add_eq_ok hb
  have hlimited (least : Nat) (greatest : Option Nat) :
      IsPart lenient (textExpr.limited least greatest) := by
    have hchar : IsItem lenient (.rule "char") := isItem_of_primitive (by decide)
    exact IsPart.cons (isItem_word _).part <| .cons (hchar.times least greatest).part <|
      .cons (isItem_word _).part .nil
  rw [Option.or_none] at hlast
  rw [hlast] at he
  cases hfound : lastOptions given with
  | some options =>
    rw [hfound] at he hoptions
    cases he
    have hsome : lenient = true ∨ options.map quotedTerminal ≠ [] := by
      refine hoptions.imp_right fun hne hnil => hne ?_
      rw [List.map_eq_nil_iff.mp hnil]
    refine (isBody_alt hsome ?_).group.part
    exact List.forall_mem_map.mpr fun s _ => (isItem_terminal _).part
  | none =>
    rw [hfound] at he
    dsimp only at he
    split at he
    · cases he
      exact (isItem_of_primitive (by decide)).part
    · split at he <;> cases he
      exact hlimited _ _
    · cases he
      exact hlimited _ _

theorem isPart_others {more : Expr} (hmore : IsItem lenient more) (greatest : Option Nat) :
    IsPart lenient (match greatest with
      | none => .star more
      | some n => .times more 0 (some (n - 1))) := by
  cases greatest with
  | none => exact hmore.star.part
  | some n => exact (hmore.times _ _).part

theorem isPart_arrayExpr {item : Expr} {counts : List Span} (he : arrayExpr item counts = .ok e)
    (hitem : IsPart lenient item) : IsPart lenient e := by
  have hword (s : String) : IsPart lenient (word s) := (isItem_word s).part
  have hws : IsPart lenient ws := isItem_ws.part
  have hmore : IsItem lenient (.group (.seq [word ",", ws, item, ws])) :=
    (IsPart.cons (hword _) <| .cons hws <| .cons hitem <| .cons hws .nil).body.group
  have hbounded (least : Nat) (greatest : Option Nat) : IsPart lenient
      (arrayExpr.bounded item (.group (.seq [word ",", ws, item, ws])) least greatest) := by
    have hrest := isPart_others hmore greatest
    unfold arrayExpr.bounded
    split
    · exact IsPart.cons (hword _) <| .cons hws <| .cons (hword _) .nil
    split
    · have hinside := (IsPart.cons hitem <| .cons hws <| .cons hrest .nil).body.group.opt.part
      exact IsPart.cons (hword _) <| .cons hws <| .cons hinside <| .cons (hword _) .nil
    · exact IsPart.cons (hword _) <| .cons hws <| .cons hitem <| .cons hws <|
        .cons (hmore.times _ _).part <| .cons (hword _) .nil
  unfold arrayExpr at he
  dsimp only at he
  split at he
  · split at he <;> cases he
    exact hbounded _ _
  · cases he
    exact hbounded _ _

theorem isPart_memberExpr (key : String) (optional : Bool) (h : IsPart lenient e) :
    IsPart lenient (memberExpr key optional e) := by
  have hws : IsPart lenient ws := isItem_ws.part
  have hvalue : IsPart lenient (if optional then .group (.alt [e, .rule "null"]) else e) := by
    cases optional with
    | true => exact (isBody_or h (isItem_of_primitive (by decide)).part).group.part
    | false => exact h
  exact IsPart.cons (isItem_terminal _).part <| .cons hws <| .cons (isItem_word _).part <|
    .cons hws <| .cons hvalue .nil

theorem isPart_objectExpr (h : ∀ m ∈ es, IsPart lenient m) : IsPart lenient (objectExpr es) := by
  have hws : IsPart lenient ws := isItem_ws.part
  have hword (s : String) : IsPart lenient (word s) := (isItem_word s).part
  have hseparated : ∀ m ∈ separated es, IsPart lenient m := by
    fun_induction separated es with
    | case1 => exact h
    | case2 => exact h
    | case3 m ms _ ih =>
      obtain ⟨hm, hms⟩ := List.forall_mem_cons.mp h
      simp only [List.forall_mem_cons]
      exact ⟨hm, hws, hword _, hws, ih hms⟩
  unfold objectExpr
  split
  · exact IsPart.cons (hword _) <| .cons hws <| .cons (hword _) .nil
  · refine isPart_seq ?_
    simp only [List.forall_mem_append, List.forall_mem_cons]
    exact ⟨⟨⟨hword _, hws, by simp⟩, hseparated⟩, hws, hword _, by simp⟩

/-! ### Schemas -/

theorem lastOptions_ne_nil {own : List TextRule} (h : ∀ rule ∈ own, rule.offers = true) :
    lastOptions own ≠ some [] := by
  intro hlast
  obtain ⟨rule, hrule, hoptions⟩ := List.mem_filterMap.mp (List.mem_of_getLast? hlast)
  have hoffers := h rule hrule
  cases rule <;> cases hoptions
  cases hoffers

variable {names : RuleNames} {root s : Schema}

theorem isPart_of_renders (h : Renders names s e)
    (hwords : ∀ name rule, Entries.get? names name = some rule → IsName rule.toList)
    (hoffers : lenient = true ∨ root.Offers) (hs : s.Within root) : IsPart lenient e := by
  induction h with
  | string text => exact isPart_textExpr text (hoffers.imp_right fun h => lastOptions_ne_nil (h _ hs))
  | integer | number | boolean => exact (isItem_of_primitive (by decide)).part
  | array _ array ih =>
    exact isPart_arrayExpr array (ih (hs.part List.mem_cons_self))
  | named _ ruled => exact (isItem_rule (hwords _ _ ruled)).part

theorem isBody_of_rendersBody (h : RendersBody names s e)
    (hwords : ∀ name rule, Entries.get? names name = some rule → IsName rule.toList)
    (hoffers : lenient = true ∨ root.Offers) (hs : s.Within root) : IsBody lenient e := by
  have hparts {part : Schema} (hpart : part ∈ s.parts) : part.Within root := hs.part hpart
  cases h with
  | object each =>
    refine (isPart_objectExpr fun m hm => ?_).body
    obtain ⟨p, hp, e, he, rfl⟩ := Outcome.exists_mem_left each hm
    have hwithin := hparts (Schema.mem_parts_of_mem_properties hp)
    exact isPart_memberExpr p.key p.optional (isPart_of_renders he hwords hoffers hwithin)
  | union each some =>
    refine isBody_alt (.inr fun hnil => some ?_) fun e he => ?_
    · exact List.eq_nil_of_length_eq_zero (each.length_eq.trans (congrArg List.length hnil))
    · obtain ⟨part, hpart, hrenders⟩ := Outcome.exists_mem_left each he
      exact isPart_of_renders hrenders hwords hoffers (hparts hpart)

/-- The text of the rules for a schema is read as the rules. -/
theorem RulesFor.exists_read {g : SchemaGraph} {rules : List Rule} (h : RulesFor g names rules)
    (hoffers : lenient = true ∨ g.root.Offers) :
    ∃ rules', List.Forall₂ (Rule.ReadAs lenient) rules rules' := by
  have hbody {r : Rule} (hname : IsName r.name.toList) (hbody : IsBody lenient r.body) :
      ∃ r', Rule.ReadAs lenient r r' := by
    obtain ⟨sequences, hread⟩ := hbody
    exact ⟨⟨r.name, choice sequences⟩, hname, rfl, sequences, hread, rfl⟩
  have hwords (name rule : String) (hrule : Entries.get? names name = some rule) :
      IsName rule.toList := (h.words name rule hrule).isName
  refine Outcome.exists_forall₂ fun r hr => ?_
  rcases h.made r hr with hprimitive | ⟨hname, node, hnode, hstart | hrule⟩
  · exact hbody (isName_primitive hprimitive) (isBody_primitive hprimitive)
  · exact hbody hname.isName (isPart_of_renders hstart hwords hoffers hnode).body
  · exact hbody hname.isName (isBody_of_rendersBody hrule hwords hoffers hnode)

end StructuredOutput.Grammar

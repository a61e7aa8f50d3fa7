import StructuredOutput.Proofs.Codec.Conforms
import StructuredOutput.Proofs.Grammar.Primitives

/-!
What the expressions of texts, arrays and objects derive, in terms of what their parts do. Of several
bounds the last one given counts.
-/

namespace StructuredOutput

/-! ### The last bounds -/

namespace Span

/-- The last lower bound that is given. -/
def lastLower (spans : List Span) : Option Nat := (spans.filterMap (·.lower)).getLast?

/-- The last upper bound that is given. -/
def lastUpper (spans : List Span) : Option Nat := (spans.filterMap (·.upper)).getLast?

/-- Whether a number of characters or items obeys the last bounds. -/
def Obeys (spans : List Span) (n : Nat) : Prop :=
  (∀ least ∈ lastLower spans, least ≤ n) ∧ ∀ greatest ∈ lastUpper spans, n ≤ greatest

/-- What is within all bounds is within the last ones. -/
theorem obeys_of_contains {spans : List Span} {n : Nat}
    (h : ∀ span ∈ spans, span.contains n = true) : Obeys spans n := by
  constructor
  · intro least hleast
    obtain ⟨span, hspan, hlower⟩ := List.mem_filterMap.mp (List.mem_of_getLast? hleast)
    have hcontains := h span hspan
    simp only [contains, Bool.and_eq_true, hlower, Option.all_some, decide_eq_true_eq] at hcontains
    exact hcontains.1
  · intro greatest hgreatest
    obtain ⟨span, hspan, hupper⟩ := List.mem_filterMap.mp (List.mem_of_getLast? hgreatest)
    have hcontains := h span hspan
    simp only [contains, Bool.and_eq_true, hupper, Option.all_some, decide_eq_true_eq] at hcontains
    exact hcontains.2

end Span

namespace TextRule

/-- The options that a rule leaves, if it names them. -/
def options? : TextRule → Option (List String)
  | constant value => some [value]
  | oneOf values => some values
  | _ => none

/-- The bounds of the number of characters. -/
def span? : TextRule → Option Span
  | length span => some span
  | _ => none

end TextRule

namespace Grammar

open Json

/-- Keeping what is given last is choosing the last of what is given. -/
theorem foldl_or {α β : Type} (f : α → Option β) (xs : List α) (init : Option β) :
    xs.foldl (fun acc x => (f x).or acc) init = (xs.filterMap f).getLast?.or init := by
  induction xs generalizing init with
  | nil => rfl
  | cons x xs ih =>
    rw [List.foldl_cons, ih, List.filterMap_cons]
    cases hx : f x with
    | none => simp
    | some y => simp [List.getLast?_cons]

variable {rules : List Rule} {depth : Nat} {cs : List Char}

/-! ### Texts -/

/-- The last options that rules leave, if they name any. -/
def lastOptions (given : List TextRule) : Option (List String) :=
  (given.filterMap TextRule.options?).getLast?

theorem lastOptions_eq_none {given : List TextRule} :
    lastOptions given = none ↔ ∀ rule ∈ given, rule.isChoice = false := by
  have hnone (rule : TextRule) : rule.options? = none ↔ rule.isChoice = false := by
    cases rule <;> simp [TextRule.options?, TextRule.isChoice]
  rw [lastOptions, List.getLast?_eq_none_iff, List.filterMap_eq_nil_iff]
  simp only [hnone]

theorem getLast?_filterMap_cons {α β : Type} (f : α → Option β) (x : α) (xs : List α) :
    ((x :: xs).filterMap f).getLast? = (xs.filterMap f).getLast?.or (f x) := by
  rw [List.filterMap_cons]
  cases f x with
  | none => rw [Option.or_none]
  | some y => cases h : (xs.filterMap f).getLast? <;> simp [List.getLast?_cons, h]

theorem add_eq_ok {given : List TextRule} {b b' : TextBounds}
    (h : given.foldlM TextBounds.add b = .ok b') :
    b'.options = (lastOptions given).or b.options ∧
      b'.lower = (Span.lastLower (given.filterMap TextRule.span?)).or b.lower ∧
      b'.upper = (Span.lastUpper (given.filterMap TextRule.span?)).or b.upper := by
  unfold lastOptions Span.lastLower Span.lastUpper
  induction given generalizing b with
  | nil =>
    cases h
    simp
  | cons rule given ih =>
    rw [List.foldlM_cons] at h
    obtain ⟨next, hnext, hrest⟩ := Outcome.bind_eq_ok.mp h
    obtain ⟨hoptions, hlower, hupper⟩ := ih hrest
    rw [hoptions, hlower, hupper, getLast?_filterMap_cons, List.filterMap_cons]
    cases rule with
    | pattern regex => cases hnext
    | constant value | oneOf values =>
      cases hnext
      simp only [TextRule.options?, TextRule.span?, Option.or_assoc, Option.some_or, and_self]
    | length span =>
      cases hnext
      simp only [TextRule.options?, TextRule.span?, getLast?_filterMap_cons, Option.or_assoc,
        Option.none_or, and_self]

/-- A string as a text may write it whose number of characters obeys the last bounds. -/
def FreeText (spans : List Span) (cs : List Char) : Prop :=
  ∃ parts : List (List Char), cs = quoted parts ∧ Span.Obeys spans parts.length ∧
    ∀ p ∈ parts, CharText p

theorem derives_textExpr (h : Grounded rules) {given : List TextRule} {e : Expr}
    (he : textExpr given = .ok e) : Derives rules (depth + 4) e cs ↔
      match lastOptions given with
      | some options => ∃ s ∈ options, cs = stringText false s.toList
      | none => FreeText (given.filterMap TextRule.span?) cs := by
  obtain ⟨b, hb, he⟩ := Outcome.bind_eq_ok.mp he
  obtain ⟨hoptions, hlower, hupper⟩ := add_eq_ok hb
  simp only [Option.or_none] at hoptions hlower hupper
  rw [hoptions] at he
  cases hlast : lastOptions given with
  | some options =>
    rw [hlast] at he
    cases he
    exact derives_options
  | none =>
    rw [hlast] at he
    dsimp only at he ⊢
    unfold FreeText Span.Obeys
    rw [← hlower, ← hupper]
    split at he
    · next hlo hhi =>
      cases he
      rw [derives_string h]
      simp [hlo, hhi]
    · next lo hi hlo hhi =>
      split at he <;> cases he
      rw [derives_limited h]
      simp [hlo, hhi, and_assoc]
    · cases he
      rw [derives_limited h]
      have hleast (n : Nat) : b.lower.getD 0 ≤ n ↔ ∀ least ∈ b.lower, least ≤ n := by
        cases b.lower <;> simp
      simp only [hleast, and_assoc]

/-! ### Containers -/

/-- Parts with commas between them, and blanks around the commas and at the end. -/
inductive Listing : List (List Char) → List Char → Prop
  | last {gap : List Char} (part : List Char) (blank : IsBlank gap) : Listing [part] (part ++ gap)
  | more {before after cs : List Char} {parts : List (List Char)} (part : List Char)
      (before_blank : IsBlank before) (after_blank : IsBlank after) (rest : Listing parts cs) :
      Listing (part :: parts) (part ++ (before ++ ',' :: (after ++ cs)))

/-- Parts between brackets. -/
def Enclosed (opening closing : Char) (parts : List (List Char)) (cs : List Char) : Prop :=
  ∃ gap inside, IsBlank gap ∧ cs = opening :: (gap ++ (inside ++ [closing])) ∧
    (parts = [] ∧ inside = [] ∨ Listing parts inside)

theorem Listing.ne_nil {parts : List (List Char)} (h : Listing parts cs) : parts ≠ [] := by
  cases h <;> exact List.cons_ne_nil _ _

theorem listing_cons {part : List Char} {parts : List (List Char)} :
    Listing (part :: parts) cs ↔ ∃ gap tails, cs = part ++ (gap ++ List.flatten tails) ∧
      IsBlank gap ∧ List.Forall₂ (fun p tail => ∃ before after, IsBlank before ∧ IsBlank after ∧
        tail = ',' :: (before ++ (p ++ after))) parts tails := by
  induction parts generalizing part cs with
  | nil =>
    constructor
    · intro h
      cases h with
      | last _ blank => exact ⟨_, [], by simp, blank, .nil⟩
      | more _ _ _ rest => exact absurd rfl rest.ne_nil
    · rintro ⟨gap, tails, rfl, hgap, htails⟩
      cases htails
      simpa using Listing.last part hgap
  | cons next parts ih =>
    constructor
    · intro h
      cases h with
      | more _ before_blank after_blank rest =>
        obtain ⟨gap, tails, rfl, hgap, htails⟩ := ih.mp rest
        exact ⟨_, _ :: tails, by simp, before_blank, .cons ⟨_, gap, after_blank, hgap, rfl⟩ htails⟩
    · rintro ⟨gap, tails, rfl, hgap, htails⟩
      cases htails with
      | cons htail htails =>
        obtain ⟨before, after, hbefore, hafter, rfl⟩ := htail
        have hrest : Listing (next :: parts) (next ++ (after ++ List.flatten _)) :=
          ih.mpr ⟨after, _, rfl, hafter, htails⟩
        simpa using Listing.more part hgap hbefore hrest

/-- An item and more items, each after a comma. -/
theorem derives_listing (h : Grounded rules) {item : Expr} {least : Nat} {greatest : Option Nat} :
    Derives rules (depth + 1) (.seq [item, ws,
      .times (.group (.seq [word ",", ws, item, ws])) least greatest]) cs ↔
      ∃ parts, Listing parts cs ∧ (∀ p ∈ parts, Derives rules (depth + 1) item p) ∧
        least + 1 ≤ parts.length ∧ ∀ limit ∈ greatest, parts.length ≤ limit + 1 := by
  have htail (tail : List Char) :
      Derives rules (depth + 1) (.group (.seq [word ",", ws, item, ws])) tail ↔
        ∃ p, Derives rules (depth + 1) item p ∧ ∃ before after, IsBlank before ∧ IsBlank after ∧
          tail = ',' :: (before ++ (p ++ after)) := by
    simp only [derives_group, derives_seq_cons, derives_seq_nil, derives_ws h, word,
      derives_terminal]
    constructor
    · rintro ⟨_, _, rfl, rfl, before, _, rfl, hbefore, p, _, rfl, hp, after, _, rfl, hafter, rfl⟩
      exact ⟨p, hp, before, after, hbefore, hafter, by simp⟩
    · rintro ⟨p, hp, before, after, hbefore, hafter, rfl⟩
      exact ⟨[','], _, rfl, rfl, before, _, rfl, hbefore, p, _, rfl, hp, after, [], by simp, hafter,
        rfl⟩
  simp only [derives_seq_cons, derives_seq_nil, derives_ws h, derives_times]
  constructor
  · rintro ⟨p, _, rfl, hp, gap, _, rfl, hgap, _, _, rfl, ⟨tails, rfl, hleast, hgreatest, htails⟩, rfl⟩
    obtain ⟨parts, hparts⟩ := Outcome.exists_forall₂ fun tail ht => (htail tail).mp (htails tail ht)
    refine ⟨p :: parts, ?_, List.forall_mem_cons.mpr ⟨hp, fun q hq => ?_⟩, ?_, ?_⟩
    · refine listing_cons.mpr ⟨gap, tails, by simp, hgap, ?_⟩
      exact hparts.flip.imp fun _ _ h => h.2
    · obtain ⟨tail, -, hq, -⟩ := Outcome.exists_mem_left hparts hq
      exact hq
    · rw [List.length_cons, ← hparts.length_eq]
      omega
    · intro limit hlimit
      have hle := hgreatest limit hlimit
      rw [List.length_cons, ← hparts.length_eq]
      omega
  · rintro ⟨parts, hlisting, hparts, hleast, hgreatest⟩
    obtain ⟨p, parts, rfl⟩ := List.exists_cons_of_ne_nil hlisting.ne_nil
    obtain ⟨gap, tails, rfl, hgap, htails⟩ := listing_cons.mp hlisting
    obtain ⟨hp, hparts⟩ := List.forall_mem_cons.mp hparts
    have hlength := htails.length_eq
    rw [List.length_cons] at hleast
    refine ⟨p, _, rfl, hp, gap, _, rfl, hgap, tails.flatten, [], by simp, ⟨tails, rfl, by omega, ?_,
      fun tail ht => ?_⟩, rfl⟩
    · intro limit hlimit
      have hle := hgreatest limit hlimit
      rw [List.length_cons] at hle
      omega
    · obtain ⟨q, hq, htext⟩ := Outcome.exists_mem_left htails ht
      exact (htail tail).mpr ⟨q, hparts q hq, htext⟩

/-- A sequence between two marks, with blanks after the first. -/
theorem derives_enclosed (h : Grounded rules) (opening closing : Char) (inner : List Expr) :
    Derives rules (depth + 1)
      (.seq (.terminal [opening] :: ws :: (inner ++ [.terminal [closing]]))) cs ↔
      ∃ gap inside, IsBlank gap ∧ cs = opening :: (gap ++ (inside ++ [closing])) ∧
        Derives rules (depth + 1) (.seq inner) inside := by
  simp only [derives_seq_cons, derives_seq_nil, derives_seq_append, derives_ws h, derives_terminal]
  constructor
  · rintro ⟨_, _, rfl, rfl, gap, _, rfl, hgap, inside, _, rfl, hinside, _, _, rfl, rfl, rfl⟩
    exact ⟨gap, inside, hgap, rfl, hinside⟩
  · rintro ⟨gap, inside, hgap, rfl, hinside⟩
    exact ⟨[opening], _, rfl, rfl, gap, _, rfl, hgap, inside, [closing], rfl, hinside, [closing], [],
      rfl, rfl, rfl⟩

/-- A listing of one item and more is one of all items. -/
theorem derives_listing_pred (h : Grounded rules) {item : Expr} {least : Nat}
    {greatest : Option Nat} (hpositive : ∀ limit ∈ greatest, limit ≠ 0) :
    Derives rules (depth + 1) (.seq [item, ws,
      .times (.group (.seq [word ",", ws, item, ws])) (least - 1) (greatest.map (· - 1))]) cs ↔
      ∃ parts, least ≤ parts.length ∧ (∀ limit ∈ greatest, parts.length ≤ limit) ∧
        (∀ p ∈ parts, Derives rules (depth + 1) item p) ∧ Listing parts cs := by
  rw [derives_listing h]
  have hlimits (n : Nat) : (∀ limit ∈ greatest.map (· - 1), n ≤ limit + 1) ↔
      ∀ limit ∈ greatest, n ≤ limit := by
    cases greatest with
    | none => simp
    | some limit =>
      have hlimit := hpositive limit rfl
      simp only [Option.map_some, Option.mem_def, Option.some.injEq, forall_eq']
      omega
  constructor
  · rintro ⟨parts, hlisting, hparts, hleast, hgreatest⟩
    exact ⟨parts, by omega, (hlimits _).mp hgreatest, hparts, hlisting⟩
  · rintro ⟨parts, hleast, hgreatest, hparts, hlisting⟩
    have hsome := List.length_pos_iff.mpr hlisting.ne_nil
    exact ⟨parts, hlisting, hparts, by omega, (hlimits _).mpr hgreatest⟩

/-- Any number of others, or at most as many as there are left. -/
theorem derives_others {item more : Expr} (greatest : Option Nat) :
    Derives rules (depth + 1) (.seq [item, ws, match greatest with
      | none => .star more
      | some n => .times more 0 (some (n - 1))]) cs ↔
    Derives rules (depth + 1)
      (.seq [item, ws, .times more (0 - 1) (greatest.map (· - 1))]) cs := by
  cases greatest with
  | none => simp only [derives_seq_cons, derives_star, Option.map_none, Nat.zero_sub]
  | some limit => rfl

theorem derives_bounded (h : Grounded rules) {item : Expr} {least : Nat} {greatest : Option Nat}
    (hordered : ∀ limit ∈ greatest, least ≤ limit) :
    Derives rules (depth + 1)
      (arrayExpr.bounded item (.group (.seq [word ",", ws, item, ws])) least greatest) cs ↔
      ∃ parts, least ≤ parts.length ∧ (∀ limit ∈ greatest, parts.length ≤ limit) ∧
        (∀ p ∈ parts, Derives rules (depth + 1) item p) ∧ Enclosed '[' ']' parts cs := by
  have hbrackets (inner : List Expr) (hinner : ∀ inside, Derives rules (depth + 1) (.seq inner) inside ↔
      ∃ parts, least ≤ parts.length ∧ (∀ limit ∈ greatest, parts.length ≤ limit) ∧
        (∀ p ∈ parts, Derives rules (depth + 1) item p) ∧
          (parts = [] ∧ inside = [] ∨ Listing parts inside)) :
      Derives rules (depth + 1) (.seq (word "[" :: ws :: (inner ++ [word "]"]))) cs ↔
        ∃ parts, least ≤ parts.length ∧ (∀ limit ∈ greatest, parts.length ≤ limit) ∧
          (∀ p ∈ parts, Derives rules (depth + 1) item p) ∧ Enclosed '[' ']' parts cs := by
    refine (derives_enclosed h _ _ inner).trans ?_
    simp only [hinner]
    constructor
    · rintro ⟨gap, inside, hgap, rfl, parts, hleast, hgreatest, hparts, hinside⟩
      exact ⟨parts, hleast, hgreatest, hparts, gap, inside, hgap, rfl, hinside⟩
    · rintro ⟨parts, hleast, hgreatest, hparts, gap, inside, hgap, rfl, hinside⟩
      exact ⟨gap, inside, hgap, rfl, parts, hleast, hgreatest, hparts, hinside⟩
  unfold arrayExpr.bounded
  split
  · next hzero =>
    subst hzero
    obtain rfl : least = 0 := Nat.le_zero.mp (hordered 0 rfl)
    refine hbrackets [] fun inside => ?_
    rw [derives_seq_nil]
    constructor
    · rintro rfl
      exact ⟨[], Nat.le_refl 0, by simp, by simp, .inl ⟨rfl, rfl⟩⟩
    · rintro ⟨parts, -, hgreatest, -, ⟨-, rfl⟩ | hlisting⟩
      · rfl
      · exact absurd (List.length_eq_zero_iff.mp (Nat.le_zero.mp (hgreatest 0 rfl))) hlisting.ne_nil
  next hpositive =>
  have hpositive : ∀ limit ∈ greatest, limit ≠ 0 := by
    rintro _ hlimit rfl
    exact hpositive hlimit
  split
  · next hzero =>
    subst hzero
    refine hbrackets [.opt (.group (.seq [item, ws, _]))] fun inside => ?_
    rw [derives_seq_singleton, derives_opt, derives_group]
    refine (or_congr Iff.rfl
      ((derives_others greatest).trans (derives_listing_pred h hpositive))).trans ?_
    constructor
    · rintro (rfl | ⟨parts, hleast, hgreatest, hparts, hlisting⟩)
      · exact ⟨[], Nat.le_refl 0, by simp, by simp, .inl ⟨rfl, rfl⟩⟩
      · exact ⟨parts, hleast, hgreatest, hparts, .inr hlisting⟩
    · rintro ⟨parts, hleast, hgreatest, hparts, ⟨-, rfl⟩ | hlisting⟩
      · exact .inl rfl
      · exact .inr ⟨parts, hleast, hgreatest, hparts, hlisting⟩
  · next hzero =>
    refine hbrackets [item, ws, .times _ (least - 1) _] fun inside => ?_
    rw [derives_listing_pred h hpositive]
    constructor
    · rintro ⟨parts, hleast, hgreatest, hparts, hlisting⟩
      exact ⟨parts, hleast, hgreatest, hparts, .inr hlisting⟩
    · rintro ⟨parts, hleast, hgreatest, hparts, ⟨rfl, rfl⟩ | hlisting⟩
      · exact absurd (Nat.le_zero.mp hleast) hzero
      · exact ⟨parts, hleast, hgreatest, hparts, hlisting⟩

theorem derives_arrayExpr (h : Grounded rules) {item e : Expr} {counts : List Span}
    (he : arrayExpr item counts = .ok e) : Derives rules (depth + 1) e cs ↔
      ∃ parts, Span.Obeys counts parts.length ∧
        (∀ p ∈ parts, Derives rules (depth + 1) item p) ∧ Enclosed '[' ']' parts cs := by
  unfold arrayExpr at he
  simp only [foldl_or, Option.or_none] at he
  unfold Span.Obeys Span.lastLower Span.lastUpper
  simp only [and_assoc]
  split at he
  · next lo hi hlo hhi =>
    split at he
    · cases he
    next hordered =>
    cases he
    rw [derives_bounded h (by simpa using hordered)]
    simp [hlo, hhi]
  · next hother =>
    cases he
    have hleast (n : Nat) (lower : Option Nat) :
        lower.getD 0 ≤ n ↔ ∀ least ∈ lower, least ≤ n := by
      cases lower <;> simp
    rw [derives_bounded h]
    · simp only [hleast]
    · intro limit hlimit
      cases hlower : (counts.filterMap (·.lower)).getLast? with
      | none => exact Nat.zero_le limit
      | some least => exact (hother least limit hlower hlimit).elim

/-- Members between commas. -/
theorem derives_separated (h : Grounded rules) {members : List Expr} (hne : members ≠ []) :
    Derives rules (depth + 1) (.seq (separated members ++ [ws])) cs ↔
      ∃ parts, List.Forall₂ (Derives rules (depth + 1)) members parts ∧ Listing parts cs := by
  induction members using separated.induct generalizing cs with
  | case1 => exact absurd rfl hne
  | case2 m =>
    rw [separated, List.singleton_append, derives_seq_cons]
    simp only [derives_seq_singleton, derives_ws h]
    constructor
    · rintro ⟨p, gap, rfl, hp, hgap⟩
      exact ⟨[p], .cons hp .nil, .last p hgap⟩
    · rintro ⟨parts, hparts, hlisting⟩
      cases hparts with
      | cons hp hnil =>
        cases hnil
        cases hlisting with
        | last _ blank => exact ⟨_, _, rfl, hp, blank⟩
        | more _ _ _ rest => exact absurd rfl rest.ne_nil
  | case3 m members hmore ih =>
    have hsome : members ≠ [] := hmore
    rw [separated.eq_3 _ _ hmore]
    simp only [List.cons_append, derives_seq_cons, derives_ws h, word, derives_terminal, ih hsome]
    constructor
    · rintro ⟨p, _, rfl, hp, before, _, rfl, hbefore, _, _, rfl, rfl, after, _, rfl, hafter, parts,
        hparts, hlisting⟩
      refine ⟨p :: parts, .cons hp hparts, ?_⟩
      simpa using Listing.more p hbefore hafter hlisting
    · rintro ⟨parts, hparts, hlisting⟩
      cases hparts with
      | cons hp hparts =>
        cases hlisting with
        | last _ blank =>
          cases hparts
          exact absurd rfl hsome
        | more _ hbefore hafter rest =>
          exact ⟨_, _, rfl, hp, _, _, rfl, hbefore, [','], _, rfl, rfl, _, _, rfl, hafter, _, hparts,
            rest⟩

theorem derives_objectExpr (h : Grounded rules) {members : List Expr} :
    Derives rules (depth + 1) (objectExpr members) cs ↔
      ∃ parts, List.Forall₂ (Derives rules (depth + 1)) members parts ∧
        Enclosed '\x7b' '\x7d' parts cs := by
  unfold Enclosed
  cases members with
  | nil =>
    refine (derives_enclosed h _ _ []).trans ?_
    simp only [derives_seq_nil]
    constructor
    · rintro ⟨gap, inside, hgap, rfl, hinside⟩
      exact ⟨[], .nil, gap, inside, hgap, rfl, .inl ⟨rfl, hinside⟩⟩
    · rintro ⟨parts, hparts, gap, inside, hgap, rfl, hinside⟩
      cases hparts
      rcases hinside with ⟨-, hinside⟩ | hlisting
      · exact ⟨gap, inside, hgap, rfl, hinside⟩
      · exact absurd rfl hlisting.ne_nil
  | cons m members =>
    have hseq : objectExpr (m :: members) = .seq (.terminal ['\x7b'] :: ws ::
        ((separated (m :: members) ++ [ws]) ++ [.terminal ['\x7d']])) := by
      simp [objectExpr, word]
    rw [hseq, derives_enclosed h]
    simp only [derives_separated h (List.cons_ne_nil m members)]
    constructor
    · rintro ⟨gap, inside, hgap, rfl, parts, hparts, hlisting⟩
      exact ⟨parts, hparts, gap, inside, hgap, rfl, .inr hlisting⟩
    · rintro ⟨parts, hparts, gap, inside, hgap, rfl, ⟨rfl, -⟩ | hlisting⟩
      · cases hparts
      · exact ⟨gap, inside, hgap, rfl, parts, hparts, hlisting⟩

theorem derives_memberExpr (h : Grounded rules) {key : String} {optional : Bool} {value : Expr} :
    Derives rules (depth + 1) (memberExpr key optional value) cs ↔
      ∃ before after body, IsBlank before ∧ IsBlank after ∧
        cs = stringText false key.toList ++ (before ++ ':' :: (after ++ body)) ∧
        (optional = true ∧ body = "null".toList ∨ Derives rules (depth + 1) value body) := by
  have hvalue (body : List Char) : Derives rules (depth + 1)
      (if optional then .group (.alt [value, .rule "null"]) else value) body ↔
        optional = true ∧ body = "null".toList ∨ Derives rules (depth + 1) value body := by
    cases optional <;> simp [derives_alt, derives_null h, or_comm]
  simp only [memberExpr, quotedTerminal, word, derives_seq_cons, derives_seq_nil,
    derives_terminal, derives_ws h, hvalue]
  constructor
  · rintro ⟨_, _, rfl, rfl, before, _, rfl, hbefore, _, _, rfl, rfl, after, _, rfl, hafter, body, _,
      rfl, hbody, rfl⟩
    exact ⟨before, after, body, hbefore, hafter, by simp, hbody⟩
  · rintro ⟨before, after, body, hbefore, hafter, rfl, hbody⟩
    exact ⟨_, _, rfl, rfl, before, _, rfl, hbefore, [':'], _, rfl, rfl, after, _, rfl, hafter, body,
      [], by simp, hbody, rfl⟩

end Grammar

end StructuredOutput

import StructuredOutput.Proofs.Grammar.Derives
import StructuredOutput.Proofs.Json.Literals

/-!
What the rules for JSON's own parts derive: blanks, strings character by character, number literals
and words.
-/

namespace StructuredOutput.Grammar

open Text Json

variable {rules : List Rule} {depth : Nat} {cs : List Char}

/-! ### Characters of classes -/

theorem within_single {a c : Char} : (decide (a ≤ c) && decide (c ≤ a)) = decide (c = a) := by
  rw [Bool.eq_iff_iff]
  simp only [Bool.and_eq_true, decide_eq_true_eq]
  exact ⟨fun h => Char.le_antisymm h.2 h.1, fun h => by simp [h]⟩

theorem inClass_singles {letters : List Char} {c : Char} :
    inClass false (letters.map fun letter => (letter, letter)) c = letters.contains c := by
  simp only [inClass, List.any_map, Function.comp_def, within_single, Bool.bne_false]
  rw [Bool.eq_iff_iff]
  simp

theorem inClass_digits {c : Char} : inClass false [('0', '9')] c = c.isDigit := by
  simp only [inClass, List.any_cons, List.any_nil, Bool.or_false, Bool.bne_false]
  rfl

/-! ### Blanks and words -/

/-- Blanks as a grammar has them. -/
def IsBlank (cs : List Char) : Prop := ∀ c ∈ cs, c = ' ' ∨ c = '\t' ∨ c = '\n'

theorem derives_ws (h : Grounded rules) : Derives rules (depth + 1) ws cs ↔ IsBlank cs := by
  have hrule := h.derives depth cs
    (r := ⟨"ws", .star (.chars false [(' ', ' '), ('\t', '\t'), ('\n', '\n')])⟩) List.mem_cons_self
  rw [ws, hrule, derives_star, derives_times_chars]
  simp [inClass, within_single, IsBlank]

theorem derives_null (h : Grounded rules) : Derives rules (depth + 1) (.rule "null") cs ↔
    cs = "null".toList := by
  have hrule := h.derives depth cs (r := ⟨"null", word "null"⟩)
    (List.mem_of_getElem? (i := 8) rfl)
  rw [hrule, word, derives_terminal]

theorem derives_boolean (h : Grounded rules) : Derives rules (depth + 1) (.rule "boolean") cs ↔
    ∃ b, cs = boolText b := by
  have hrule := h.derives depth cs
    (r := ⟨"boolean", .alt [word "true", word "false"]⟩) (List.mem_of_getElem? (i := 7) rfl)
  rw [hrule, derives_alt]
  simp [word, boolText, or_comm]

/-! ### Strings -/

/-- The delete character. -/
def delete : Char := Char.ofNat 0x7f

/-- The text of one character of a string. -/
inductive CharText : List Char → Prop
  | plain {c : Char} (quotable : c ≠ '"' ∧ c ≠ '\\' ∧ 0x20 ≤ c.toNat) (kept : c ≠ delete) :
      CharText [c]
  | escape {letter c : Char} (stands : escaped? letter = some c) : CharText ['\\', letter]
  | unit {a b c d : Char} {n : Nat} (digits : hexUnit? a b c d = some n) :
      CharText ['\\', 'u', a, b, c, d]

theorem escaped?_isSome {letter : Char} : (∃ c, escaped? letter = some c) ↔
    (['"', '\\', '/', 'b', 'f', 'n', 'r', 't'] : List Char).contains letter = true := by
  constructor
  · rintro ⟨c, hc⟩
    unfold escaped? at hc
    split at hc <;> first | rfl | cases hc
  · intro h
    simp only [List.contains_iff_mem, List.mem_cons, List.not_mem_nil, or_false] at h
    rcases h with rfl | rfl | rfl | rfl | rfl | rfl | rfl | rfl <;> exact ⟨_, rfl⟩

theorem derives_hex (h : Grounded rules) : Derives rules (depth + 1) (.rule "hex") cs ↔
    ∃ c n, cs = [c] ∧ hexDigit? c = some n := by
  have hrule := h.derives depth cs
    (r := ⟨"hex", .chars false [('0', '9'), ('a', 'f'), ('A', 'F')]⟩)
    (List.mem_of_getElem? (i := 4) rfl)
  have hclass (c : Char) : inClass false [('0', '9'), ('a', 'f'), ('A', 'F')] c = true ↔
      ∃ n, hexDigit? c = some n := by
    simp only [inClass, List.any_cons, List.any_nil, Bool.or_false, Bool.bne_false,
      Bool.or_eq_true, Bool.and_eq_true, decide_eq_true_eq, hexDigit?]
    split_ifs <;> simp_all
  rw [hrule, derives_chars]
  simp only [hclass]
  exact ⟨fun ⟨c, hc, n, hn⟩ => ⟨c, n, hc, hn⟩, fun ⟨c, n, hc, hn⟩ => ⟨c, hc, n, hn⟩⟩

theorem derives_four_hex (h : Grounded rules) :
    Derives rules (depth + 1) (.seq [.rule "hex", .rule "hex", .rule "hex", .rule "hex"]) cs ↔
      ∃ a b c d n, cs = [a, b, c, d] ∧ hexUnit? a b c d = some n := by
  simp only [derives_seq_cons, derives_seq_nil, derives_hex h]
  constructor
  · rintro ⟨_, _, rfl, ⟨a, i, rfl, ha⟩, _, _, rfl, ⟨b, j, rfl, hb⟩, _, _, rfl, ⟨c, k, rfl, hc⟩, _, _,
      rfl, ⟨d, l, rfl, hd⟩, rfl⟩
    exact ⟨a, b, c, d, _, rfl, by simp [hexUnit?, ha, hb, hc, hd]; rfl⟩
  · rintro ⟨a, b, c, d, n, rfl, hn⟩
    simp only [hexUnit?, Option.bind_eq_bind, Option.bind_eq_some_iff] at hn
    obtain ⟨i, hi, j, hj, k, hk, l, hl, -⟩ := hn
    exact ⟨[a], _, rfl, ⟨a, i, rfl, hi⟩, [b], _, rfl, ⟨b, j, rfl, hj⟩, [c], _, rfl, ⟨c, k, rfl, hk⟩,
      [d], [], rfl, ⟨d, l, rfl, hl⟩, rfl⟩

theorem derives_escape (h : Grounded rules) : Derives rules (depth + 2) (.rule "escape") cs ↔
    (∃ letter c, cs = [letter] ∧ escaped? letter = some c) ∨
      ∃ a b c d n, cs = ['u', a, b, c, d] ∧ hexUnit? a b c d = some n := by
  have hrule := h.derives (depth + 1) cs (r := ⟨"escape", .alt [
    .chars false ((['"', '\\', '/', 'b', 'f', 'n', 'r', 't'] : List Char).map fun c => (c, c)),
    .seq [word "u", .rule "hex", .rule "hex", .rule "hex", .rule "hex"]]⟩)
    (List.mem_of_getElem? (i := 3) rfl)
  rw [hrule, derives_alt]
  simp only [List.mem_cons, List.not_mem_nil, or_false, exists_eq_or_imp, exists_eq_left,
    derives_chars, inClass_singles, ← escaped?_isSome, exists_and_left]
  refine or_congr Iff.rfl ?_
  rw [derives_seq_cons]
  simp only [derives_four_hex h, word, derives_terminal]
  constructor
  · rintro ⟨_, _, rfl, rfl, a, b, c, d, n, rfl, hn⟩
    exact ⟨a, b, c, d, rfl, n, hn⟩
  · rintro ⟨a, b, c, d, rfl, n, hn⟩
    exact ⟨['u'], [a, b, c, d], rfl, rfl, a, b, c, d, n, rfl, hn⟩

theorem derives_char (h : Grounded rules) :
    Derives rules (depth + 3) (.rule "char") cs ↔ CharText cs := by
  have hrule := h.derives (depth + 2) cs (r := ⟨"char", .alt [
    .chars true [('"', '"'), ('\\', '\\'), (Char.ofNat 0x7f, Char.ofNat 0x7f),
      (Char.ofNat 0, Char.ofNat 0x1f)],
    .seq [word "\\", .rule "escape"]]⟩) (List.mem_of_getElem? (i := 2) rfl)
  have hclass (c : Char) : inClass true [('"', '"'), ('\\', '\\'),
      (Char.ofNat 0x7f, Char.ofNat 0x7f), (Char.ofNat 0, Char.ofNat 0x1f)] c = true ↔
        (c ≠ '"' ∧ c ≠ '\\' ∧ 0x20 ≤ c.toNat) ∧ c ≠ delete := by
    have hcontrol : (Char.ofNat 0 ≤ c ∧ c ≤ Char.ofNat 0x1f) ↔ ¬0x20 ≤ c.toNat := by
      have hlow : Char.ofNat 0 ≤ c := Nat.zero_le _
      have hhigh : c ≤ Char.ofNat 0x1f ↔ c.toNat ≤ 0x1f := Iff.rfl
      rw [hhigh, and_iff_right hlow]
      omega
    simp only [inClass, List.any_cons, List.any_nil, within_single, Bool.or_false, Bool.bne_true,
      Bool.not_eq_true', Bool.or_eq_false_iff, decide_eq_false_iff_not, Bool.and_eq_false_iff]
    rw [← not_and_or, hcontrol, not_not]
    simp only [delete]
    tauto
  rw [hrule, derives_alt]
  simp only [List.mem_cons, List.not_mem_nil, or_false, exists_eq_or_imp, exists_eq_left,
    derives_chars, hclass, derives_seq_cons, derives_seq_nil, derives_escape h, word,
    derives_terminal]
  constructor
  · rintro (⟨c, rfl, hquotable, hkept⟩ | ⟨_, _, rfl, rfl, _, _, rfl, hescape, rfl⟩)
    · exact .plain hquotable hkept
    · rw [List.append_nil]
      rcases hescape with ⟨letter, c, rfl, hc⟩ | ⟨a, b, c, d, n, rfl, hn⟩
      · exact .escape hc
      · exact .unit hn
  · rintro (⟨hquotable, hkept⟩ | hc | hn)
    · exact .inl ⟨_, rfl, hquotable, hkept⟩
    · exact .inr ⟨['\\'], _, rfl, rfl, _, [], rfl, .inl ⟨_, _, rfl, hc⟩, rfl⟩
    · exact .inr ⟨['\\'], _, rfl, rfl, _, [], rfl, .inr ⟨_, _, _, _, _, rfl, hn⟩, rfl⟩

/-- A string whose characters are written in parts. -/
def quoted (parts : List (List Char)) : List Char := '"' :: (parts.flatten ++ ['"'])

theorem derives_limited (h : Grounded rules) {least : Nat} {greatest : Option Nat} :
    Derives rules (depth + 3) (textExpr.limited least greatest) cs ↔
      ∃ parts : List (List Char), cs = quoted parts ∧ least ≤ parts.length ∧
        (∀ limit ∈ greatest, parts.length ≤ limit) ∧ ∀ p ∈ parts, CharText p := by
  simp only [textExpr.limited, derives_seq_cons, derives_seq_nil, derives_times, derives_char h,
    word, derives_terminal]
  constructor
  · rintro ⟨_, _, rfl, rfl, _, _, rfl, ⟨parts, rfl, hleast, hgreatest, hparts⟩, _, _, rfl, rfl, rfl⟩
    exact ⟨parts, rfl, hleast, hgreatest, hparts⟩
  · rintro ⟨parts, rfl, hleast, hgreatest, hparts⟩
    exact ⟨['"'], _, rfl, rfl, parts.flatten, _, rfl, ⟨parts, rfl, hleast, hgreatest, hparts⟩, ['"'],
      [], rfl, rfl, rfl⟩

theorem derives_string (h : Grounded rules) : Derives rules (depth + 4) (.rule "string") cs ↔
    ∃ parts : List (List Char), cs = quoted parts ∧ ∀ p ∈ parts, CharText p := by
  have hrule := h.derives (depth + 3) cs
    (r := ⟨"string", .seq [word "\"", .star (.rule "char"), word "\""]⟩)
    (List.mem_of_getElem? (i := 1) rfl)
  have hlimited : Derives rules (depth + 3) (.seq [word "\"", .star (.rule "char"), word "\""]) cs ↔
      Derives rules (depth + 3) (textExpr.limited 0 none) cs := by
    simp only [textExpr.limited, derives_seq_cons, derives_star]
  rw [hrule, hlimited, derives_limited h]
  simp

/-- One of some texts. -/
theorem derives_options {options : List String} :
    Derives rules depth (.group (.alt (options.map quotedTerminal))) cs ↔
      ∃ s ∈ options, cs = stringText false s.toList := by
  simp [derives_alt, quotedTerminal]

/-! ### Numbers -/

theorem derives_whole : Derives rules depth (.group (.alt [word "0",
    .seq [.chars false [('1', '9')], .star (.chars false [('0', '9')])]])) cs ↔
      (cs = ['0'] ∨ cs.head? ≠ some '0' ∧ cs ≠ []) ∧ ∀ c ∈ cs, c.isDigit = true := by
  have hfirst (c : Char) : inClass false [('1', '9')] c = true ↔ c.isDigit = true ∧ c ≠ '0' := by
    have hlow : '1' ≤ c ↔ '0' ≤ c ∧ c ≠ '0' := by
      have hle (d : Char) : d ≤ c ↔ d.toNat ≤ c.toNat := Iff.rfl
      rw [hle, hle, ne_eq, ← Char.toNat_inj]
      change 49 ≤ c.toNat ↔ 48 ≤ c.toNat ∧ ¬c.toNat = 48
      omega
    have hdigit : c.isDigit = true ↔ '0' ≤ c ∧ c ≤ '9' := by
      simp only [Char.isDigit, Bool.and_eq_true, decide_eq_true_eq]
      rfl
    simp only [inClass, List.any_cons, List.any_nil, Bool.or_false, Bool.bne_false,
      Bool.and_eq_true, decide_eq_true_eq, hlow, hdigit]
    tauto
  rw [derives_group, derives_alt]
  simp only [List.mem_cons, List.not_mem_nil, or_false, exists_eq_or_imp, exists_eq_left, word,
    derives_terminal, derives_seq_cons, derives_seq_nil, derives_chars, derives_star,
    derives_times_chars, hfirst, inClass_digits]
  constructor
  · rintro (rfl | ⟨_, _, rfl, ⟨c, rfl, hc, hzero⟩, _, _, rfl, ⟨-, -, hds⟩, rfl⟩)
    · exact ⟨.inl rfl, List.forall_mem_singleton.mpr rfl⟩
    · rw [List.append_nil, List.singleton_append]
      exact ⟨.inr ⟨by simpa using hzero, List.cons_ne_nil _ _⟩, List.forall_mem_cons.mpr ⟨hc, hds⟩⟩
  · rintro ⟨rfl | ⟨hhead, hne⟩, hdigits⟩
    · exact .inl rfl
    · obtain ⟨c, ds, rfl⟩ := List.exists_cons_of_ne_nil hne
      obtain ⟨hc, hds⟩ := List.forall_mem_cons.mp hdigits
      refine .inr ⟨[c], ds, rfl, ⟨c, rfl, hc, by simpa using hhead⟩, ds, [],
        (List.append_nil ds).symm, ⟨Nat.zero_le _, by simp, hds⟩, rfl⟩

theorem derives_minus : Derives rules depth (.opt (word "-")) cs ↔
    ∃ negative, cs = minusText negative := by
  simp [derives_opt, word, minusText]

/-- An integer is a number literal without fraction and power of ten. -/
theorem derives_integer (h : Grounded rules) : Derives rules (depth + 1) (.rule "integer") cs ↔
    ∃ l : Literal, l.IsWhole ∧ cs = l.text := by
  have hrule := h.derives depth cs (r := ⟨"integer", .seq [
    .opt (word "-"),
    .group (.alt [word "0", .seq [.chars false [('1', '9')], .star (.chars false [('0', '9')])]])]⟩)
    (List.mem_of_getElem? (i := 5) rfl)
  rw [hrule]
  simp only [derives_seq_cons, derives_seq_nil, derives_minus, derives_whole]
  constructor
  · rintro ⟨_, _, rfl, ⟨negative, rfl⟩, whole, _, rfl, ⟨hok, hdigits⟩, rfl⟩
    exact ⟨⟨negative, whole, [], none, hok, hdigits, by simp⟩, ⟨rfl, rfl⟩, rfl⟩
  · rintro ⟨l, ⟨hfraction, hpower⟩, rfl⟩
    refine ⟨minusText l.negative, l.whole, ?_, ⟨_, rfl⟩, l.whole, [], (List.append_nil _).symm,
      ⟨l.whole_ok, l.whole_digits⟩, rfl⟩
    simp [Literal.text, Literal.fractionText, Literal.powerText, hfraction, hpower]

theorem derives_fraction : Derives rules depth
    (.opt (.group (.seq [word ".", .plus (.chars false [('0', '9')])]))) cs ↔
      cs = [] ∨ ∃ c ds, cs = '.' :: c :: ds ∧ ∀ d ∈ c :: ds, d.isDigit = true := by
  simp only [derives_opt, derives_group, derives_seq_cons, derives_seq_nil, derives_plus,
    derives_times_chars, word, derives_terminal, inClass_digits]
  refine or_congr Iff.rfl ⟨?_, ?_⟩
  · rintro ⟨_, _, rfl, rfl, ds, _, rfl, ⟨hne, -, hds⟩, rfl⟩
    obtain ⟨c, ds, rfl⟩ := List.exists_cons_of_length_pos hne
    exact ⟨c, ds, by simp, hds⟩
  · rintro ⟨c, ds, rfl, hds⟩
    exact ⟨['.'], c :: ds, rfl, rfl, c :: ds, [], by simp, ⟨by simp, by simp, hds⟩, rfl⟩

theorem derives_power : Derives rules depth (.opt (.group (.seq [
    .chars false [('e', 'e'), ('E', 'E')], .opt (.chars false [('-', '-'), ('+', '+')]),
    .plus (.chars false [('0', '9')])]))) cs ↔ cs = [] ∨ ∃ p : Power, cs = p.text := by
  simp only [derives_opt, derives_group, derives_seq_cons, derives_seq_nil, derives_plus,
    derives_times_chars, derives_chars, inClass_digits]
  refine or_congr Iff.rfl ⟨?_, ?_⟩
  · rintro ⟨_, _, rfl, ⟨mark, rfl, hmark⟩, sign, _, rfl, hsign, ds, _, rfl, ⟨hne, -, hds⟩, rfl⟩
    have hmark' : mark = 'e' ∨ mark = 'E' := by simpa [inClass, within_single] using hmark
    obtain ⟨minus, rfl⟩ : ∃ minus, sign = Power.signText minus := by
      rcases hsign with rfl | ⟨c, rfl, hc⟩
      · exact ⟨none, rfl⟩
      · rcases (by simpa [inClass, within_single] using hc : c = '-' ∨ c = '+') with rfl | rfl
        · exact ⟨some true, rfl⟩
        · exact ⟨some false, rfl⟩
    exact ⟨⟨mark, minus, ds, hmark', List.length_pos_iff.mp hne, hds⟩, by simp [Power.text]⟩
  · rintro ⟨⟨mark, sign, ds, hmark, hne, hds⟩, rfl⟩
    refine ⟨[mark], Power.signText sign ++ ds, rfl, ⟨mark, rfl, ?_⟩, Power.signText sign, ds, rfl, ?_,
      ds, [], (List.append_nil ds).symm, ⟨List.length_pos_iff.mpr hne, by simp, hds⟩, rfl⟩
    · simpa [inClass, within_single] using hmark
    · rcases sign with _ | _ | _ <;> simp [Power.signText, inClass, within_single]

theorem derives_number (h : Grounded rules) : Derives rules (depth + 2) (.rule "number") cs ↔
    ∃ l : Literal, cs = l.text := by
  have hrule := h.derives (depth + 1) cs (r := ⟨"number", .seq [
    .rule "integer",
    .opt (.group (.seq [word ".", .plus (.chars false [('0', '9')])])),
    .opt (.group (.seq [
      .chars false [('e', 'e'), ('E', 'E')],
      .opt (.chars false [('-', '-'), ('+', '+')]),
      .plus (.chars false [('0', '9')])]))]⟩) (List.mem_of_getElem? (i := 6) rfl)
  rw [hrule]
  simp only [derives_seq_cons, derives_seq_nil, derives_integer h, derives_fraction, derives_power]
  constructor
  · rintro ⟨_, _, rfl, ⟨l, ⟨hfraction, hpower⟩, rfl⟩, fraction, _, rfl, hpoint, power, _, rfl, hten,
      rfl⟩
    obtain ⟨p, hp⟩ : ∃ p : Option Power, power = (p.map Power.text).getD [] := by
      rcases hten with rfl | ⟨p, rfl⟩
      · exact ⟨none, rfl⟩
      · exact ⟨some p, rfl⟩
    obtain ⟨ds, hds, hdigits⟩ : ∃ ds, fraction = (if ds = [] then [] else '.' :: ds) ∧
        ∀ d ∈ ds, d.isDigit = true := by
      rcases hpoint with rfl | ⟨c, ds, rfl, hds⟩
      · exact ⟨[], rfl, by simp⟩
      · exact ⟨c :: ds, by simp, hds⟩
    refine ⟨⟨l.negative, l.whole, ds, p, l.whole_ok, l.whole_digits, hdigits⟩, ?_⟩
    subst hp hds
    cases ds <;> cases p <;>
      simp [Literal.text, Literal.fractionText, Literal.powerText, hfraction, hpower]
  · rintro ⟨l, rfl⟩
    refine ⟨minusText l.negative ++ l.whole, l.fractionText ++ l.powerText, ?_,
      ⟨⟨l.negative, l.whole, [], none, l.whole_ok, l.whole_digits, by simp⟩, ⟨rfl, rfl⟩, ?_⟩,
      l.fractionText, l.powerText, rfl, ?_, l.powerText, [], (List.append_nil _).symm, ?_, rfl⟩
    · simp [Literal.text]
    · simp [Literal.text, Literal.fractionText, Literal.powerText]
    · unfold Literal.fractionText
      split
      · exact .inl rfl
      · next c ds heq => exact .inr ⟨c, ds, rfl, heq ▸ l.fraction_digits⟩
    · unfold Literal.powerText
      split
      · exact .inl rfl
      · next p _ => exact .inr ⟨p, rfl⟩

end StructuredOutput.Grammar

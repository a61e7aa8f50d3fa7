import StructuredOutput.Proofs.Json.Cut
import StructuredOutput.Proofs.Stream.Scanned

/-!
Closing a text that ends inside a value: what is kept is the text of what remains of the value, or
everything before the value if nothing does.
-/

namespace StructuredOutput.Repair

open Json Text

variable {cs ds : List Char} {o o' : Opened} {os : List Opened} {keyed : Bool} {n : Nat}

/-! ### Ends of texts -/

/-- Whether a text does not end in a value that nothing can change. -/
def Unfinished (cs : List Char) : Prop := endsInValue (cs.reverse.dropWhile isBlank) = false

theorem isBlank_of_isSpace {c : Char} (h : isSpace c = true) : isBlank c = true := by
  simp only [isSpace, Bool.or_eq_true, decide_eq_true_eq] at h
  rcases h with ((rfl | rfl) | rfl) | rfl <;> rfl

theorem isBlank_of_isDigit {c : Char} (h : c.isDigit = true) : isBlank c = false := by
  have hrange : 0x30 ≤ c.toNat ∧ c.toNat ≤ 0x39 := by
    simpa [Char.isDigit, UInt32.le_iff_toNat_le] using h
  simp only [isBlank, inRanges, blanks, List.any_cons, List.any_nil]
  simp only [Bool.or_eq_false_iff, Bool.and_eq_false_iff, decide_eq_false_iff_not, and_true]
  omega

theorem isBlank_of_beginsValue {c : Char} (h : beginsValue c = true) : isBlank c = false := by
  rcases Bool.or_eq_true_iff.mp h with hdigit | hmark
  · exact isBlank_of_isDigit hdigit
  · simp only [List.contains_iff_mem, List.mem_cons, List.not_mem_nil, or_false] at hmark
    rcases hmark with rfl | rfl | rfl | rfl | rfl | rfl | rfl <;> rfl

theorem reverse_gap (g : Gap) :
    (cs ++ g.chars).reverse.dropWhile isBlank = cs.reverse.dropWhile isBlank := by
  rw [List.reverse_append, List.dropWhile_append_of_pos]
  intro c hc
  exact isBlank_of_isSpace (g.blank c (List.mem_reverse.mp hc))

theorem reverse_last {c : Char} (hc : isBlank c = false) :
    (cs ++ [c]).reverse.dropWhile isBlank = c :: cs.reverse := by
  rw [List.reverse_append, List.reverse_singleton, List.singleton_append,
    List.dropWhile_cons_of_neg (by rw [hc]; exact Bool.false_ne_true)]

theorem Unfinished.gap (h : Unfinished cs) (g : Gap) : Unfinished (cs ++ g.chars) := by
  rw [Unfinished, reverse_gap]
  exact h

theorem unfinished_openBracket (keyed : Bool) : Unfinished (cs ++ [openBracket keyed]) := by
  cases keyed <;> rw [Unfinished, reverse_last rfl] <;> rfl

theorem unfinished_comma : Unfinished (cs ++ [',']) := by
  rw [Unfinished, reverse_last rfl]
  rfl

theorem unfinished_colon : Unfinished (cs ++ [':']) := by
  rw [Unfinished, reverse_last rfl]
  rfl

theorem unfinished_concat {c : Char} (ds : List Char) (hc : isBlank c = false)
    (h : endsInValue (c :: (ds.reverse ++ cs.reverse)) = false) :
    Unfinished (cs ++ (ds ++ [c])) := by
  rwa [Unfinished, ← List.append_assoc, reverse_last hc, List.reverse_append]

/-- A proper beginning of a word ends in no value. -/
theorem unfinished_word {word : List Char} (hword : word ∈ words) (hcs : Unfinished cs)
    (hn : n < word.length) : Unfinished (cs ++ word.take n) := by
  rw [← List.append_nil cs] at hcs
  simp only [words, List.mem_cons, List.not_mem_nil, or_false] at hword
  rcases hword with rfl | rfl | rfl
  · rcases n with _ | _ | _ | _ | n
    · exact hcs
    · exact unfinished_concat [] rfl rfl
    · exact unfinished_concat ['t'] rfl rfl
    · exact unfinished_concat ['t', 'r'] rfl rfl
    · cases Nat.not_lt.mpr (Nat.le_add_left 4 n) hn
  · rcases n with _ | _ | _ | _ | _ | n
    · exact hcs
    · exact unfinished_concat [] rfl rfl
    · exact unfinished_concat ['f'] rfl rfl
    · exact unfinished_concat ['f', 'a'] rfl rfl
    · exact unfinished_concat ['f', 'a', 'l'] rfl rfl
    · cases Nat.not_lt.mpr (Nat.le_add_left 5 n) hn
  · rcases n with _ | _ | _ | _ | n
    · exact hcs
    · exact unfinished_concat [] rfl rfl
    · exact unfinished_concat ['n'] rfl rfl
    · exact unfinished_concat ['n', 'u'] rfl rfl
    · cases Nat.not_lt.mpr (Nat.le_add_left 4 n) hn

/-- The last character of a number ends no value: a digit, a point, a sign, or the mark of a power
of ten, which is no part of a word since something of the number stands before it. -/
theorem unfinished_number (x : Numeral) (hcs : Unfinished cs) (n : Nat) :
    Unfinished (cs ++ x.text.take n) := by
  rcases List.eq_nil_or_concat (x.text.take n) with hnil | ⟨ds, c, htake⟩
  · rwa [hnil, List.append_nil]
  rw [List.concat_eq_append] at htake
  have hmem : ∀ d ∈ ds ++ [c], isNumeral d = true := fun d hd =>
    x.isNumeral_of_mem (List.mem_of_mem_take (htake ▸ hd))
  have hc := hmem c (by simp)
  have hblank : isBlank c = false := by
    rcases isNumeral_cases hc with hc | rfl | rfl | rfl | rfl | rfl
    · exact isBlank_of_isDigit hc
    all_goals rfl
  rw [htake]
  refine unfinished_concat ds hblank ?_
  have hne {b d : Char} (hb : isNumeral b = true) (hd : isNumeral d = false) : (d == b) = false :=
    beq_eq_false_iff_ne.mpr (ne_of_isNumeral hb hd).symm
  by_cases hmark : c = 'e'
  · subst hmark
    rcases List.eq_nil_or_concat ds with rfl | ⟨es, d, rfl⟩
    · obtain ⟨b, bs, hcons, hb⟩ := x.exists_text_cons
      rw [hcons] at htake
      obtain _ | n := n
      · cases htake
      · obtain ⟨rfl, -⟩ := List.cons.inj htake
        rcases hb with hb | hb <;> cases hb
    · have hd := hmem d (by simp)
      simp [endsInValue, words, List.isPrefixOf_cons_cons, hne hd (show isNumeral 'u' = false from rfl),
        hne hd (show isNumeral 's' = false from rfl)]
  · have hmark' : ('e' == c) = false := beq_eq_false_iff_ne.mpr (Ne.symm hmark)
    have hquote : c ≠ '"' := ne_of_isNumeral hc rfl
    have hbrace : c ≠ '\x7d' := ne_of_isNumeral hc rfl
    have hbracket : c ≠ ']' := ne_of_isNumeral hc rfl
    simp [endsInValue, words, List.isPrefixOf_cons_cons, hquote, hbrace, hbracket, hmark',
      hne hc (show isNumeral 'l' = false from rfl)]

/-! ### Closing and retreating -/

/-- The text before an incomplete value, with the containers closed that are kept. -/
def retreat (cs : List Char) (os : List Opened) : List Char :=
  (cutBack cs os).1 ++ closers (cutBack cs os).2

/-- A text with everything closed that is open after it. -/
def closing (s : Scan) (cs : List Char) : List Char :=
  let closed := closeString s cs
  match s.opened with
  | [] => closed
  | o :: os =>
    if isComplete o closed then closed ++ closers (o :: os) else retreat closed (o :: os)

theorem retreat_of_none (h : o.comma = none) :
    retreat cs (o :: os) = retreat (cs.take o.start) os := by
  rw [retreat, cutBack, h]
  rfl

theorem retreat_of_some {i : Nat} (h : o.comma = some i) :
    retreat cs (o :: os) = cs.take i ++ closers (o :: os) := by
  rw [retreat, cutBack, h]

theorem closers_cons (o : Opened) (os : List Opened) :
    closers (o :: os) = closeBracket o.isObject :: closers os := rfl

/-- The bracket and the comma of a container lie within a text. -/
structure Within (o : Opened) (cs : List Char) : Prop where
  start : o.start ≤ cs.length
  comma : ∀ i, o.comma = some i → i ≤ cs.length

theorem Within.append (h : Within o cs) (ds : List Char) : Within o (cs ++ ds) := by
  have hlength : cs.length ≤ (cs ++ ds).length := by simp
  exact ⟨Nat.le_trans h.start hlength, fun i hi => Nat.le_trans (h.comma i hi) hlength⟩

/-- Whatever follows the comma, or the bracket, of a container is lost in a retreat. -/
theorem retreat_append (h : Within o cs) (hobject : o'.isObject = o.isObject)
    (hstart : o'.start = o.start) (hcomma : o'.comma = o.comma) :
    retreat (cs ++ ds) (o' :: os) = retreat cs (o :: os) := by
  cases hi : o.comma with
  | none =>
    rw [retreat_of_none (hcomma.trans hi), retreat_of_none hi, hstart,
      List.take_append_of_le_length h.start]
  | some i =>
    rw [retreat_of_some (hcomma.trans hi), retreat_of_some hi, closers_cons, closers_cons, hobject,
      List.take_append_of_le_length (h.comma i hi)]

theorem retreat_openBracket (keyed : Bool) :
    retreat (cs ++ openBracket keyed :: ds) (⟨keyed, cs.length, none, none⟩ :: os) =
      retreat cs os := by
  rw [retreat_of_none rfl, List.take_left']
  rfl

theorem closing_eq {s : Scan} {closed : List Char} (hopened : s.opened = o :: os)
    (hclosed : closeString s cs = closed) :
    closing s cs =
      if isComplete o closed then closed ++ closers (o :: os) else retreat closed (o :: os) := by
  rw [closing, hopened, hclosed]

theorem closing_outside :
    closing (outside cs (o :: os)) cs =
      if isComplete o cs then cs ++ closers (o :: os) else retreat cs (o :: os) := rfl

theorem closing_of_unfinished (h : Unfinished cs) :
    closing (outside cs (o :: os)) cs = retreat cs (o :: os) := by
  rw [closing_outside, isComplete, h, Bool.and_false, if_neg Bool.false_ne_true]

theorem closing_of_expectsValue_eq_false {s : Scan} (hopened : s.opened = o :: os)
    (h : o.expectsValue = false) : closing s cs = retreat (closeString s cs) (o :: os) := by
  rw [closing_eq hopened rfl, isComplete, h, Bool.false_and, if_neg Bool.false_ne_true]

theorem closing_of_complete (hexpects : o.expectsValue = true)
    (h : endsInValue (cs.reverse.dropWhile isBlank) = true) :
    closing (outside cs (o :: os)) cs = cs ++ closers (o :: os) := by
  rw [closing_outside, isComplete, hexpects, h]
  rfl

/-- Whether a container is an object, for each open container. -/
def kinds (os : List Opened) : List Bool := os.map Opened.isObject

theorem kinds_suffix {s : Scan} (h : s.opened = os) : kinds os <:+ kinds s.opened := by
  subst h
  exact List.suffix_rfl

/-- A text is closed as `result`, and containers of the kinds of `os` are still open after it. -/
structure Closes (s : Scan) (cs : List Char) (os : List Opened) (result : List Char) : Prop where
  text : closing s cs = result
  opened : kinds os <:+ kinds s.opened

theorem Closes.congr {s : Scan} {result result' : List Char} (h : Closes s cs os result)
    (hresult : result = result') : Closes s cs os result' :=
  hresult ▸ h

/-- Characters that change nothing and complete no value are lost. -/
theorem closes_passed (h : ∀ c ∈ ds, isPassed c = true) (hend : Unfinished (cs ++ ds))
    (hwithin : Within o cs) :
    Closes ((outside cs (o :: os)).steps ds) (cs ++ ds) (o :: os) (retreat cs (o :: os)) := by
  rw [steps_passed h]
  exact ⟨(closing_of_unfinished hend).trans (retreat_append hwithin rfl rfl rfl),
    List.suffix_rfl⟩

theorem closes_nothing (hcs : Unfinished cs) (hwithin : Within o cs) :
    Closes ((outside cs (o :: os)).steps []) (cs ++ []) (o :: os) (retreat cs (o :: os)) :=
  closes_passed (fun _ hc => absurd hc List.not_mem_nil) (by simpa using hcs) hwithin

/-! ### Values -/

/-- Closing a text that ends inside a value, or inside the blanks after it, keeps what remains of
the value. -/
def ClosesValue (v : Written) : Prop :=
  ∀ (after : Gap) {cs : List Char} {o : Opened} (os : List Opened) (n : Nat),
    n ≤ v.chars.length + after.chars.length → o.expectsValue = true → Within o cs → Unfinished cs →
    Closes ((outside cs (o :: os)).steps ((v.chars ++ after.chars).take n))
      (cs ++ (v.chars ++ after.chars).take n) (o :: os)
      (match v.cut n with
        | some w =>
          cs ++ (w.chars ++ ((after.take (n - v.chars.length)).chars ++ closers (o :: os)))
        | none => retreat cs (o :: os))

theorem endsInValue_closeBracket (keyed : Bool) :
    endsInValue ((cs ++ [closeBracket keyed]).reverse.dropWhile isBlank) = true := by
  cases keyed <;> rw [reverse_last rfl] <;> rfl

theorem endsInValue_quote : endsInValue ((cs ++ ['"']).reverse.dropWhile isBlank) = true := by
  rw [reverse_last rfl]
  rfl

theorem exists_parts_concat (p : Parts keyed) {cs : List Char} (h : p.chars = cs) :
    ∃ ds, cs = ds ++ [closeBracket keyed] := by
  cases p with
  | last label v after =>
    exact ⟨label.text ++ (v.chars ++ after.chars), by simp [← h, Parts.chars]⟩
  | more label v after before rest =>
    obtain ⟨ds, hds⟩ := exists_parts_concat rest rfl
    exact ⟨label.text ++ (v.chars ++ (after.chars ++ ',' :: (before.chars ++ ds))),
      by simp [← h, Parts.chars, hds]⟩

/-- A complete value other than a number ends in one that nothing can change. -/
theorem endsInValue_written {v : Written} (h : ∀ x, v ≠ .number x) :
    endsInValue ((cs ++ v.chars).reverse.dropWhile isBlank) = true := by
  cases v with
  | null =>
    rw [Written.chars, show "null".toList = ['n', 'u', 'l'] ++ ['l'] from rfl,
      ← List.append_assoc, reverse_last rfl, List.reverse_append]
    rfl
  | bool b =>
    cases b with
    | true =>
      rw [Written.chars, show boolText true = ['t', 'r', 'u'] ++ ['e'] from rfl,
        ← List.append_assoc, reverse_last rfl, List.reverse_append]
      rfl
    | false =>
      rw [Written.chars, show boolText false = ['f', 'a', 'l', 's'] ++ ['e'] from rfl,
        ← List.append_assoc, reverse_last rfl, List.reverse_append]
      rfl
  | number x => exact absurd rfl (h x)
  | text pieces =>
    rw [Written.chars, quotedText, List.cons_append, List.append_cons, ← List.append_assoc]
    exact endsInValue_quote
  | empty keyed inside =>
    rw [Written.chars, List.cons_append, List.append_cons, ← List.append_assoc]
    exact endsInValue_closeBracket keyed
  | container keyed before parts =>
    obtain ⟨ds, hds⟩ := exists_parts_concat parts rfl
    rw [Written.chars, hds, ← List.append_assoc, ← List.append_assoc]
    exact endsInValue_closeBracket keyed

/-- It is enough to look at places inside the value: after its end it is kept whole unless it is a
number. -/
theorem closesValue_of_lt {v : Written}
    (h : ∀ {cs : List Char} {o : Opened} {os : List Opened} {n : Nat}, n < v.chars.length →
      o.expectsValue = true → Within o cs → Unfinished cs →
      Closes ((outside cs (o :: os)).steps (v.chars.take n)) (cs ++ v.chars.take n) (o :: os)
        (match v.cut n with
          | some w => cs ++ (w.chars ++ closers (o :: os))
          | none => retreat cs (o :: os))) : ClosesValue v := by
  intro after cs o os n hn hexpects hwithin hcs
  by_cases hlt : n < v.chars.length
  · rw [List.take_append_of_le_length (Nat.le_of_lt hlt),
      Nat.sub_eq_zero_of_le (Nat.le_of_lt hlt)]
    exact h hlt hexpects hwithin hcs
  · have hle := Nat.not_lt.mp hlt
    have htake : (v.chars ++ after.chars).take n =
        v.chars ++ (after.take (n - v.chars.length)).chars := by
      rw [List.take_append, List.take_of_length_le hle]
      rfl
    rw [htake, Scan.steps_append, steps_written, steps_gap, ← List.append_assoc]
    refine ⟨?_, List.suffix_rfl⟩
    rcases v.cut_of_le hle with hcut | ⟨x, rfl⟩
    · have hend : endsInValue ((cs ++ v.chars ++
          (after.take (n - v.chars.length)).chars).reverse.dropWhile isBlank) = true := by
        rw [reverse_gap]
        refine endsInValue_written ?_
        rintro x rfl
        cases hcut
      rw [closing_of_complete hexpects hend, hcut]
      simp only [List.append_assoc]
    · have hnumber : Unfinished (cs ++ (Written.number x).chars) := by
        have htext := unfinished_number x hcs x.text.length
        rwa [List.take_length] at htext
      rw [closing_of_unfinished (hnumber.gap _), Written.cut, List.append_assoc,
        retreat_append hwithin rfl rfl rfl]

theorem closesValue_of_passed {v : Written} (hpassed : ∀ c ∈ v.chars, isPassed c = true)
    (hcut : ∀ n < v.chars.length, v.cut n = none)
    (hend : ∀ {cs : List Char} {n : Nat}, Unfinished cs → n < v.chars.length →
      Unfinished (cs ++ v.chars.take n)) : ClosesValue v := by
  refine closesValue_of_lt fun hn _ hwithin hcs => ?_
  rw [hcut _ hn]
  exact closes_passed (fun c hc => hpassed c (List.mem_of_mem_take hc)) (hend hcs hn) hwithin

theorem closesValue_null : ClosesValue .null :=
  closesValue_of_passed (List.all_eq_true.mp rfl) (fun _ hn => if_pos hn) fun hcs hn =>
    unfinished_word (by decide) hcs hn

theorem closesValue_bool (b : Bool) : ClosesValue (.bool b) := by
  have hpassed : ∀ c ∈ boolText b, isPassed c = true := by
    cases b <;> exact List.all_eq_true.mp rfl
  have hword : boolText b ∈ words := by cases b <;> decide
  exact closesValue_of_passed hpassed (fun _ hn => if_pos hn) fun hcs hn =>
    unfinished_word hword hcs hn

theorem closesValue_number (x : Numeral) : ClosesValue (.number x) :=
  closesValue_of_passed (fun _ hc => isPassed_of_isNumeral (x.isNumeral_of_mem hc))
    (fun _ _ => rfl) fun hcs _ => unfinished_number x hcs _

/-! ### Strings -/

/-- A text that ends inside a string is closed with the pieces that are complete. -/
theorem closeString_innerText (pieces : List Piece) {n : Nat} (cs : List Char) (os : List Opened)
    (hn : n ≤ (innerText pieces).length) :
    ((inside cs os).steps ((innerText pieces).take n)).opened = os ∧
      closeString ((inside cs os).steps ((innerText pieces).take n))
          (cs ++ (innerText pieces).take n) =
        cs ++ (innerText (cutPieces pieces n) ++ ['"']) := by
  have hnothing (cs : List Char) : ((inside cs os).steps []).opened = os ∧
      closeString ((inside cs os).steps []) (cs ++ []) = cs ++ ([] ++ ['"']) := by
    rw [List.append_nil]
    exact ⟨rfl, rfl⟩
  induction pieces generalizing cs n with
  | nil =>
    rw [show innerText [] = [] from rfl, List.take_nil]
    exact hnothing cs
  | cons p ps ih =>
    have htext : innerText (p :: ps) = p.text ++ innerText ps := rfl
    rw [htext] at hn ⊢
    by_cases hp : p.text.length ≤ n
    · have htake : (p.text ++ innerText ps).take n =
          p.text ++ (innerText ps).take (n - p.text.length) := by
        rw [List.take_append, List.take_of_length_le hp]
      rw [List.length_append] at hn
      have hrest : n - p.text.length ≤ (innerText ps).length := by omega
      obtain ⟨hopened, hclosed⟩ := ih (cs ++ p.text) hrest
      rw [htake, Scan.steps_append, steps_piece, ← List.append_assoc, hclosed, cutPieces, if_pos hp]
      exact ⟨hopened, by simp [innerText]⟩
    · rw [cutPieces, if_neg hp]
      obtain _ | n := n
      · exact hnothing cs
      · cases p with
        | plain c quotable => exact absurd (Nat.le_add_left 1 n) hp
        | escape letter c stands =>
          obtain rfl : n = 0 := by
            have hlength : (Piece.escape letter c stands).text.length = 2 := rfl
            omega
          have hdropped : (cs ++ ['\\']).dropLast = cs := List.dropLast_concat
          exact ⟨rfl, congrArg (fun ds => ds ++ ['"']) hdropped⟩

theorem closeString_quotedText (pieces : List Piece) (cs : List Char) (os : List Opened)
    (hn : n ≤ (innerText pieces).length) :
    ((outside cs os).steps ((quotedText pieces).take (n + 1))).opened = os ∧
      closeString ((outside cs os).steps ((quotedText pieces).take (n + 1)))
          (cs ++ (quotedText pieces).take (n + 1)) =
        cs ++ quotedText (cutPieces pieces n) := by
  have htake : (quotedText pieces).take (n + 1) = '"' :: (innerText pieces).take n := by
    rw [quotedText, List.cons_append, List.take_succ_cons, List.take_append_of_le_length hn]
  obtain ⟨hopened, hclosed⟩ := closeString_innerText pieces (cs ++ ['"']) os hn
  rw [htake, Scan.steps_cons, step_quote, List.append_cons cs '"' ((innerText pieces).take n),
    hclosed]
  exact ⟨hopened, by simp [quotedText]⟩

theorem closesValue_text (pieces : List Piece) : ClosesValue (.text pieces) := by
  refine closesValue_of_lt fun {cs o os n} hn hexpects hwithin hcs => ?_
  obtain _ | n := n
  · exact closes_nothing hcs hwithin
  · have hlength : n ≤ (innerText pieces).length := by
      simp only [Written.chars, quotedText, List.length_append, List.length_cons,
        List.length_nil] at hn
      omega
    obtain ⟨hopened, hclosed⟩ := closeString_quotedText pieces cs (o :: os) hlength
    have hcut : (Written.text pieces).cut (n + 1) = some (.text (cutPieces pieces n)) := rfl
    have hend : endsInValue ((cs ++ quotedText (cutPieces pieces n)).reverse.dropWhile isBlank) =
        true := by
      exact endsInValue_written (v := .text (cutPieces pieces n)) fun x hx => by cases hx
    refine ⟨?_, kinds_suffix hopened⟩
    rw [Written.chars, closing_eq hopened hclosed, isComplete, hexpects, hend, hcut]
    exact List.append_assoc _ _ _

/-! ### Containers -/

/-- A container that holds what is expected before a part: in an object, a key comes next. -/
structure Ready (o : Opened) (keyed : Bool) (cs : List Char) : Prop extends Within o cs where
  object : o.isObject = keyed
  key : keyed = true → o.expectsValue = false

theorem ready_openBracket (keyed : Bool) (cs : List Char) :
    Ready ⟨keyed, cs.length, none, none⟩ keyed (cs ++ [openBracket keyed]) where
  start := by simp
  comma := fun _ hi => by cases hi
  object := rfl
  key := by
    rintro rfl
    rfl

theorem Ready.append (h : Ready o keyed cs) (ds : List Char) : Ready o keyed (cs ++ ds) :=
  ⟨h.toWithin.append ds, h.object, h.key⟩

/-- Closing a text that ends before the end of a container, from the bracket or a comma on, keeps
what remains of the parts. -/
def ClosesParts (p : Parts keyed) : Prop :=
  ∀ (before : Gap) {cs : List Char} {o : Opened} (os : List Opened) (n : Nat),
    n < before.chars.length + p.chars.length → Ready o keyed cs → Unfinished cs →
    Closes ((outside cs (o :: os)).steps ((before.chars ++ p.chars).take n))
      (cs ++ (before.chars ++ p.chars).take n) (o :: os)
      (match p.cut (n - before.chars.length) with
        | some q => cs ++ (before.chars ++ (q.chars ++ closers os))
        | none => retreat cs (o :: os))

/-- It is enough to look at places after the blanks. -/
theorem closesParts_of_lt {p : Parts keyed}
    (h : ∀ {cs : List Char} {o : Opened} {os : List Opened} {n : Nat}, n < p.chars.length →
      Ready o keyed cs → Unfinished cs →
      Closes ((outside cs (o :: os)).steps (p.chars.take n)) (cs ++ p.chars.take n) (o :: os)
        (match p.cut n with
          | some q => cs ++ (q.chars ++ closers os)
          | none => retreat cs (o :: os))) : ClosesParts p := by
  intro before cs o os n hn hready hcs
  by_cases hle : n ≤ before.chars.length
  · rw [List.take_append_of_le_length hle, Nat.sub_eq_zero_of_le hle, p.cut_zero]
    exact closes_passed (fun c hc => isPassed_of_isSpace (before.blank c (List.mem_of_mem_take hc)))
      (hcs.gap (before.take n)) hready.toWithin
  · have htake : (before.chars ++ p.chars).take n =
        before.chars ++ p.chars.take (n - before.chars.length) := by
      rw [List.take_append, List.take_of_length_le (by omega)]
    rw [htake, Scan.steps_append, steps_gap, ← List.append_assoc]
    refine (h (by omega) (hready.append before.chars) (hcs.gap before)).congr ?_
    cases p.cut (n - before.chars.length) with
    | none => exact retreat_append hready.toWithin rfl rfl rfl
    | some q => exact List.append_assoc _ _ _

/-- A container of which only the bracket is known, or blanks after it, is dropped. -/
theorem closes_openBracket (cs : List Char) (os : List Opened) (keyed : Bool) (g : Gap) :
    Closes ((outside cs os).steps (openBracket keyed :: g.chars))
      (cs ++ openBracket keyed :: g.chars) (⟨keyed, cs.length, none, none⟩ :: os)
      (retreat cs os) := by
  have hend : Unfinished (cs ++ [openBracket keyed] ++ g.chars) :=
    (unfinished_openBracket keyed).gap g
  rw [Scan.steps_cons, step_openBracket, steps_gap, List.append_cons cs _ g.chars]
  refine ⟨?_, List.suffix_rfl⟩
  rw [closing_of_unfinished hend, List.append_assoc]
  exact retreat_openBracket keyed

/-- A container that is not complete keeps what remains of its parts. -/
theorem closes_container {p : Parts keyed} (hp : ClosesParts p) (cs : List Char)
    (os : List Opened) (before : Gap)
    (hn : n < before.chars.length + p.chars.length) :
    Closes ((outside cs os).steps (openBracket keyed :: (before.chars ++ p.chars).take n))
      (cs ++ openBracket keyed :: (before.chars ++ p.chars).take n)
      (⟨keyed, cs.length, none, none⟩ :: os)
      (match p.cut (n - before.chars.length) with
        | some q => cs ++ ((Written.container keyed before q).chars ++ closers os)
        | none => retreat cs os) := by
  rw [Scan.steps_cons, step_openBracket,
    List.append_cons cs (openBracket keyed) ((before.chars ++ p.chars).take n)]
  refine (hp before os n hn (ready_openBracket keyed cs) (unfinished_openBracket keyed)).congr ?_
  cases p.cut (n - before.chars.length) with
  | none => exact retreat_openBracket keyed
  | some q => simp [Written.chars]

theorem closesValue_empty (keyed : Bool) (g : Gap) : ClosesValue (.empty keyed g) := by
  refine closesValue_of_lt fun {cs o os n} hn hexpects hwithin hcs => ?_
  rw [Written.cut, if_pos hn]
  obtain _ | n := n
  · exact closes_nothing hcs hwithin
  · have hlength : n ≤ g.chars.length := by
      simp only [Written.chars, List.length_append, List.length_cons, List.length_nil] at hn
      omega
    have htake : (Written.empty keyed g).chars.take (n + 1) =
        openBracket keyed :: (g.take n).chars := by
      rw [Written.chars, List.cons_append, List.take_succ_cons,
        List.take_append_of_le_length hlength]
      rfl
    obtain ⟨htext, hopened⟩ := closes_openBracket cs (o :: os) keyed (g.take n)
    rw [htake]
    exact ⟨htext, (List.suffix_cons _ _).trans hopened⟩

theorem closesValue_container {p : Parts keyed} (hp : ClosesParts p) (before : Gap) :
    ClosesValue (.container keyed before p) := by
  refine closesValue_of_lt fun {cs o os n} hn hexpects hwithin hcs => ?_
  obtain _ | n := n
  · rw [Written.cut_zero]
    exact closes_nothing hcs hwithin
  · have hlength : n < before.chars.length + p.chars.length := by
      simp only [Written.chars, List.length_append, List.length_cons] at hn
      omega
    have htake : (Written.container keyed before p).chars.take (n + 1) =
        openBracket keyed :: (before.chars ++ p.chars).take n := rfl
    obtain ⟨htext, hopened⟩ := closes_container hp cs (o :: os) before hlength
    rw [htake]
    refine ⟨?_, (List.suffix_cons _ _).trans hopened⟩
    rw [htext, Written.cut, Nat.add_sub_cancel]
    cases p.cut (n - before.chars.length) <;> rfl

/-! ### Parts -/

/-- A part of which only the label is known is dropped. -/
theorem closes_label (label : Label keyed) (hn : n ≤ label.text.length) (hready : Ready o keyed cs)
    (hcs : Unfinished cs) :
    Closes ((outside cs (o :: os)).steps (label.text.take n)) (cs ++ label.text.take n) (o :: os)
      (retreat cs (o :: os)) := by
  have hwithin := hready.toWithin
  cases label with
  | none =>
    rw [Label.text, List.take_nil]
    exact closes_nothing hcs hwithin
  | key pieces before gap =>
    have hkey := hready.key rfl
    have hquoted : (quotedText pieces).length = (innerText pieces).length + 2 := by
      simp [quotedText]
    have htext : (Label.key pieces before gap).text =
        quotedText pieces ++ (before.chars ++ ':' :: gap.chars) := by
      simp [Label.text]
    rw [htext] at hn ⊢
    simp only [List.length_append, List.length_cons] at hn
    by_cases hinside : n < (quotedText pieces).length
    · rw [List.take_append_of_le_length (Nat.le_of_lt hinside)]
      obtain _ | n := n
      · exact closes_nothing hcs hwithin
      · obtain ⟨hopened, hclosed⟩ := closeString_quotedText pieces cs (o :: os)
          (show n ≤ (innerText pieces).length by omega)
        refine ⟨?_, kinds_suffix hopened⟩
        rw [closing_of_expectsValue_eq_false hopened hkey, hclosed,
          retreat_append hwithin rfl rfl rfl]
    · rw [List.take_append, List.take_of_length_le (Nat.not_lt.mp hinside), Scan.steps_append,
        steps_quotedText]
      by_cases hcolon : n ≤ (quotedText pieces).length + before.chars.length
      · rw [List.take_append_of_le_length (by omega)]
        rw [← List.append_assoc, show before.chars.take (n - (quotedText pieces).length) =
          (before.take (n - (quotedText pieces).length)).chars from rfl, steps_gap]
        refine ⟨?_, List.suffix_rfl⟩
        rw [closing_of_expectsValue_eq_false rfl hkey]
        exact (congrArg (retreat · (o :: os)) (List.append_assoc _ _ _)).trans
          (retreat_append hwithin rfl rfl rfl)
      · obtain ⟨m, rfl⟩ : ∃ m, n = (quotedText pieces).length + before.chars.length + (m + 1) :=
          ⟨n - (quotedText pieces).length - before.chars.length - 1, by omega⟩
        have htake : (before.chars ++ ':' :: gap.chars).take
            ((quotedText pieces).length + before.chars.length + (m + 1) -
              (quotedText pieces).length) = before.chars ++ ':' :: (gap.take m).chars := by
          rw [Nat.add_assoc, Nat.add_sub_cancel_left, List.take_append,
            List.take_of_length_le (Nat.le_add_right _ _), Nat.add_sub_cancel_left,
            List.take_succ_cons]
          rfl
        have hassoc : cs ++ (quotedText pieces ++ (before.chars ++ ':' :: (gap.take m).chars)) =
            cs ++ quotedText pieces ++ before.chars ++ [':'] ++ (gap.take m).chars := by simp
        rw [htake, Scan.steps_append, steps_gap, Scan.steps_cons, step_colon, steps_gap, hassoc]
        refine ⟨?_, List.suffix_rfl⟩
        rw [closing_of_unfinished (unfinished_colon.gap _), ← hassoc]
        exact retreat_append hwithin rfl rfl rfl

theorem isObject_noteLabel (label : Label keyed) :
    (noteLabel cs o label).isObject = o.isObject := by
  cases label <;> rfl

theorem kinds_noteLabel (cs : List Char) (label : Label keyed) :
    kinds (noteLabel cs o label :: os) = kinds (o :: os) := by
  cases label <;> rfl

theorem start_noteLabel (label : Label keyed) : (noteLabel cs o label).start = o.start := by
  cases label <;> rfl

theorem comma_noteLabel (label : Label keyed) : (noteLabel cs o label).comma = o.comma := by
  cases label <;> rfl

theorem within_noteLabel (h : Within o cs) (label : Label keyed) :
    Within (noteLabel cs o label) (cs ++ label.text) := by
  have happend := h.append label.text
  refine ⟨?_, ?_⟩
  · rw [start_noteLabel]
    exact happend.start
  · rw [comma_noteLabel]
    exact happend.comma

/-- After a label, a value comes next. -/
theorem expectsValue_noteLabel (h : Ready o keyed cs) (label : Label keyed) :
    (noteLabel cs o label).expectsValue = true := by
  cases label with
  | none => simp [noteLabel, Opened.expectsValue, h.object]
  | key pieces before after =>
    have hcomma : o.comma.getD o.start ≤ cs.length := by
      cases hi : o.comma with
      | none => exact h.start
      | some i => exact h.comma i hi
    have hquoted : 0 < (quotedText pieces).length := by simp [quotedText]
    have hcolon : o.comma.getD o.start <
        cs.length + (quotedText pieces).length + before.chars.length := by omega
    simp [noteLabel, Opened.expectsValue, hcolon]

theorem Unfinished.label (h : Unfinished cs) (label : Label keyed) :
    Unfinished (cs ++ label.text) := by
  cases label with
  | none => rwa [Label.text, List.append_nil]
  | key pieces before after =>
    have hassoc : cs ++ (Label.key pieces before after).text =
        cs ++ quotedText pieces ++ before.chars ++ [':'] ++ after.chars := by simp [Label.text]
    rw [hassoc]
    exact unfinished_colon.gap after

/-- A part that is not followed by a comma is kept if something remains of its value. -/
theorem closes_part {v : Written} (hv : ClosesValue v) (label : Label keyed) (after : Gap)
    (hn : n ≤ label.text.length + v.chars.length + after.chars.length) (hready : Ready o keyed cs)
    (hcs : Unfinished cs) :
    Closes ((outside cs (o :: os)).steps ((label.text ++ (v.chars ++ after.chars)).take n))
      (cs ++ (label.text ++ (v.chars ++ after.chars)).take n) (o :: os)
      (match (v.cut (n - label.text.length)).map fun w => Parts.last label w
          (after.take (n - label.text.length - v.chars.length)) with
        | some q => cs ++ (q.chars ++ closers os)
        | none => retreat cs (o :: os)) := by
  by_cases hlabel : n ≤ label.text.length
  · rw [List.take_append_of_le_length hlabel, Nat.sub_eq_zero_of_le hlabel, v.cut_zero]
    exact closes_label label hlabel hready hcs
  · have htake : (label.text ++ (v.chars ++ after.chars)).take n =
        label.text ++ (v.chars ++ after.chars).take (n - label.text.length) := by
      rw [List.take_append, List.take_of_length_le (by omega)]
    obtain ⟨hclosed, hopened⟩ := hv after os (n - label.text.length) (by omega)
      (expectsValue_noteLabel hready label) (within_noteLabel hready.toWithin label)
      (hcs.label label)
    rw [htake, Scan.steps_append, steps_label, ← List.append_assoc]
    refine ⟨hclosed.trans ?_, kinds_noteLabel cs label ▸ hopened⟩
    cases v.cut (n - label.text.length) with
    | none =>
      exact retreat_append hready.toWithin (isObject_noteLabel label) (start_noteLabel label)
        (comma_noteLabel label)
    | some w =>
      rw [closers_cons, isObject_noteLabel, hready.object]
      simp [Parts.chars]

theorem closesParts_last {v : Written} (hv : ClosesValue v) (label : Label keyed) (after : Gap) :
    ClosesParts (.last label v after) := by
  refine closesParts_of_lt fun {cs o os n} hn hready hcs => ?_
  simp only [Parts.chars, List.length_append, List.length_cons, List.length_nil] at hn
  have htake : (Parts.last label v after).chars.take n =
      (label.text ++ (v.chars ++ after.chars)).take n := by
    rw [Parts.chars, ← List.append_assoc v.chars, ← List.append_assoc label.text,
      List.take_append_of_le_length]
    simp only [List.length_append]
    omega
  rw [htake, Parts.cut, if_neg (by omega)]
  exact closes_part hv label after (by omega) hready hcs

/-- After a comma, a container is ready for the next part. -/
theorem ready_comma (h : Ready o keyed cs) (label : Label keyed) (ds : List Char) :
    Ready { noteLabel cs o label with comma := some (cs ++ label.text ++ ds).length } keyed
      (cs ++ label.text ++ ds ++ [',']) where
  start := by
    have hstart := ((within_noteLabel h.toWithin label).append (ds ++ [','])).start
    rwa [← List.append_assoc] at hstart
  comma := fun i hi => by
    cases hi
    simp
  object := (isObject_noteLabel label).trans h.object
  key := by
    rintro rfl
    cases label with
    | key pieces before after =>
      simp [Opened.expectsValue, noteLabel, h.object, Label.text]
      omega

theorem closesParts_more {v : Written} {rest : Parts keyed} (hv : ClosesValue v)
    (hrest : ClosesParts rest) (label : Label keyed) (after before : Gap) :
    ClosesParts (.more label v after before rest) := by
  refine closesParts_of_lt fun {cs o os n} hn hready hcs => ?_
  simp only [Parts.chars, List.length_append, List.length_cons] at hn
  have hchars : (Parts.more label v after before rest).chars =
      label.text ++ (v.chars ++ after.chars) ++ ',' :: (before.chars ++ rest.chars) := by
    simp [Parts.chars]
  have hlength : (label.text ++ (v.chars ++ after.chars)).length =
      label.text.length + v.chars.length + after.chars.length := by
    simp [Nat.add_assoc]
  rw [hchars, Parts.cut]
  by_cases hcomma : label.text.length + v.chars.length + after.chars.length < n
  · rw [if_pos hcomma]
    obtain ⟨m, rfl⟩ : ∃ m, n = label.text.length + v.chars.length + after.chars.length + (m + 1) :=
      ⟨n - (label.text.length + v.chars.length + after.chars.length) - 1, by omega⟩
    have htake (ds : List Char) : (label.text ++ (v.chars ++ after.chars) ++ ',' :: ds).take
        (label.text.length + v.chars.length + after.chars.length + (m + 1)) =
          label.text ++ (v.chars ++ after.chars) ++ ',' :: ds.take m := by
      rw [← hlength, List.take_append, List.take_of_length_le (Nat.le_add_right _ _),
        Nat.add_sub_cancel_left, List.take_succ_cons]
    have hsteps (ds : List Char) :
        (outside cs (o :: os)).steps (label.text ++ (v.chars ++ after.chars) ++ ',' :: ds) =
          (outside (cs ++ label.text ++ (v.chars ++ after.chars) ++ [','])
            ({ noteLabel cs o label with
                comma := some (cs ++ label.text ++ (v.chars ++ after.chars)).length } :: os)).steps
              ds := by
      rw [Scan.steps_append, Scan.steps_append, steps_label, Scan.steps_append, steps_written,
        steps_gap, Scan.steps_cons, step_comma, List.append_assoc (cs ++ label.text)]
    have hassoc (ds : List Char) : cs ++ (label.text ++ (v.chars ++ after.chars) ++ ',' :: ds) =
        cs ++ label.text ++ (v.chars ++ after.chars) ++ [','] ++ ds := by simp
    have hsub : label.text.length + v.chars.length + after.chars.length + (m + 1) -
        (label.text.length + v.chars.length + after.chars.length) - 1 - before.chars.length =
          m - before.chars.length := by omega
    obtain ⟨hclosed, hopened⟩ := hrest before os m (by omega)
      (ready_comma hready label (v.chars ++ after.chars)) unfinished_comma
    rw [htake, hsteps, hassoc, hsub]
    refine ⟨hclosed.trans ?_, kinds_noteLabel cs label ▸ hopened⟩
    cases rest.cut (m - before.chars.length) with
    | none =>
      rw [retreat_of_some rfl, List.take_left' rfl, closers_cons]
      simp [Parts.chars, isObject_noteLabel, hready.object]
    | some r => simp [Parts.chars]
  · rw [if_neg hcomma, List.take_append_of_le_length (by omega)]
    exact closes_part hv label after (Nat.not_lt.mp hcomma) hready hcs

mutual

theorem closesValue (v : Written) : ClosesValue v := by
  match v with
  | .null => exact closesValue_null
  | .bool b => exact closesValue_bool b
  | .number x => exact closesValue_number x
  | .text pieces => exact closesValue_text pieces
  | .empty keyed inside => exact closesValue_empty keyed inside
  | .container keyed before parts => exact closesValue_container (closesParts parts) before

theorem closesParts {keyed : Bool} (p : Parts keyed) : ClosesParts p := by
  match p with
  | .last label v after => exact closesParts_last (closesValue v) label after
  | .more label v after before rest =>
    exact closesParts_more (closesValue v) (closesParts rest) label after before

end

/-! ### Whole texts -/

end StructuredOutput.Repair

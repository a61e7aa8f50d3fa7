import Mathlib.Tactic.Common
import StructuredOutput.Proofs.Json.Written
import StructuredOutput.Proofs.Outcome

/-!
Reading what is written: the reader finds every value at the front of its text, whatever follows
that does not go on with a number.
-/

namespace StructuredOutput.Json

open Text

variable {rest : List Char}

/-! ### Spans of characters -/

/-- The first character, if there is one, does not meet a test. -/
def Stops (p : Char → Bool) (cs : List Char) : Prop := ∀ c, cs.head? = some c → p c = false

theorem takeWhile_append {p : Char → Bool} {cs : List Char} (hcs : ∀ c ∈ cs, p c = true)
    (hrest : Stops p rest) : (cs ++ rest).takeWhile p = cs := by
  rw [List.takeWhile_append_of_pos hcs]
  cases rest with
  | nil => simp
  | cons c rest => simp [hrest c rfl]

theorem dropWhile_append {p : Char → Bool} {cs : List Char} (hcs : ∀ c ∈ cs, p c = true)
    (hrest : Stops p rest) : (cs ++ rest).dropWhile p = rest := by
  rw [List.dropWhile_append_of_pos hcs]
  cases rest with
  | nil => simp
  | cons c rest => simp [hrest c rfl]

theorem skipSpace_gap (g : Gap) (hrest : Stops isSpace rest) :
    skipSpace (g.chars ++ rest) = rest :=
  dropWhile_append g.blank hrest

theorem stops_cons {p : Char → Bool} {c : Char} (h : p c = false) : Stops p (c :: rest) := by
  intro d hd
  cases hd
  exact h

theorem stops_nil (p : Char → Bool) : Stops p [] := by
  intro c hc
  cases hc

/-! ### Numbers -/

/-- Whether a character may go on with a number. -/
def continuesNumber (c : Char) : Bool := c.isDigit || c = '.' || c = 'e' || c = 'E'

theorem Stops.isDigit (h : Stops continuesNumber rest) : Stops Char.isDigit rest := by
  intro c hc
  have hall := h c hc
  simp only [continuesNumber, Bool.or_eq_false_iff] at hall
  exact hall.1.1.1

theorem Stops.ne {c : Char} (h : Stops continuesNumber rest) (hc : rest.head? = some c) :
    c ≠ '.' ∧ c ≠ 'e' ∧ c ≠ 'E' := by
  have hall := h c hc
  simp only [continuesNumber, Bool.or_eq_false_iff, decide_eq_false_iff_not] at hall
  exact ⟨hall.1.1.2, hall.1.2, hall.2⟩

theorem ne_sign_of_isDigit {c : Char} (h : c.isDigit = true) : c ≠ '-' ∧ c ≠ '+' := by
  constructor <;> (rintro rfl; cases h)

theorem exponentPart_power (p : Power) (hrest : Stops Char.isDigit rest) :
    exponentPart (p.text ++ rest) = (some p.value, rest) := by
  obtain ⟨mark, sign, digits, hmark, hne, hdigits⟩ := p
  have htake := takeWhile_append hdigits hrest
  have hdrop := dropWhile_append hdigits hrest
  obtain ⟨d, ds, rfl⟩ := List.exists_cons_of_ne_nil hne
  have hd := ne_sign_of_isDigit (hdigits d List.mem_cons_self)
  rw [List.cons_append] at htake hdrop
  rcases sign with _ | _ | _ <;>
    simp [exponentPart, Power.text, Power.signText, Power.value, hmark, htake, hdrop, hd]

theorem Power.stops_text (p : Power) (rest : List Char) :
    Stops (fun c => c.isDigit || c = '.') (p.text ++ rest) := by
  refine stops_cons ?_
  rcases p.mark_ok with hmark | hmark <;> rw [hmark] <;> decide

/-- The digits before the point begin with a digit. -/
theorem exists_digit_cons {whole : List Char}
    (hwhole : whole = ['0'] ∨ whole.head? ≠ some '0' ∧ whole ≠ [])
    (hdigits : ∀ c ∈ whole, c.isDigit = true) :
    ∃ c cs, whole = c :: cs ∧ c.isDigit = true := by
  have hne : whole ≠ [] := by
    rcases hwhole with h | h
    · simp [h]
    · exact h.2
  obtain ⟨c, cs, rfl⟩ := List.exists_cons_of_ne_nil hne
  exact ⟨c, cs, rfl, hdigits c List.mem_cons_self⟩

theorem exponentPart_none (hrest : Stops continuesNumber rest) :
    exponentPart rest = (none, rest) := by
  cases rest with
  | nil => rfl
  | cons c rest =>
    have hc := hrest.ne rfl
    simp [exponentPart, hc]

theorem fractionPart_none (hrest : ∀ c, rest.head? = some c → c ≠ '.') :
    fractionPart rest = ([], rest) := by
  unfold fractionPart
  split
  · exact absurd rfl (hrest '.' rfl)
  · rfl

theorem fractionPart_digits {c : Char} {cs : List Char} (hcs : ∀ d ∈ c :: cs, d.isDigit = true)
    (hrest : Stops Char.isDigit rest) :
    fractionPart ('.' :: c :: cs ++ rest) = (c :: cs, rest) := by
  have htake := takeWhile_append hcs hrest
  have hdrop := dropWhile_append hcs hrest
  rw [List.cons_append] at htake hdrop
  simp [fractionPart, hcs c List.mem_cons_self, htake, hdrop]

theorem wholePart_append {whole : List Char}
    (hwhole : whole = ['0'] ∨ whole.head? ≠ some '0' ∧ whole ≠ [])
    (hdigits : ∀ c ∈ whole, c.isDigit = true) (hrest : Stops Char.isDigit rest) :
    wholePart (whole ++ rest) = (whole, rest) := by
  rcases hwhole with rfl | ⟨hhead, hne⟩
  · rfl
  · obtain ⟨c, cs, rfl⟩ := List.exists_cons_of_ne_nil hne
    have hc : c ≠ '0' := fun h => hhead (h ▸ rfl)
    have htake := takeWhile_append hdigits hrest
    have hdrop := dropWhile_append hdigits hrest
    rw [List.cons_append] at htake hdrop
    unfold wholePart
    rw [List.cons_append]
    split
    · next heq => exact absurd (List.cons.inj heq).1 hc
    · rw [htake, hdrop]

/-- Reads a number after its sign; `start` is the text from the sign on. -/
def readMagnitude (negative : Bool) (start body : List Char) : Result Json :=
  match wholePart body with
  | ([], _) => .error ⟨.value, start⟩
  | (whole, afterWhole) =>
    let (fraction, afterFraction) := fractionPart afterWhole
    let (exponent, rest) := exponentPart afterFraction
    match fraction, exponent with
    | [], none =>
      if integerLimit < whole.length then .error ⟨.longInteger whole.length, start⟩
      else
        let n : Int := (ofDigits (whole.filterMap asciiDigit?) : Nat)
        .ok (.integer (if negative then -n else n), rest)
    | _, _ =>
      let digits := ofDigits ((whole ++ fraction).filterMap asciiDigit?)
      .ok (.real (Decimal.toFloating ⟨digits, exponent.getD 0 - fraction.length⟩ negative), rest)

theorem readNumber_minus (body : List Char) :
    readNumber ('-' :: body) = readMagnitude true ('-' :: body) body := rfl

theorem readNumber_of_ne {cs : List Char} (h : cs.head? ≠ some '-') :
    readNumber cs = readMagnitude false cs cs := by
  cases cs with
  | nil => rfl
  | cons c cs =>
    have hc : c ≠ '-' := fun hc => h (hc ▸ rfl)
    unfold readNumber
    split
    next negative body heq =>
    split at heq
    · next hminus => exact absurd (List.cons.inj hminus).1 hc
    · cases heq
      rfl

theorem readNumber_signed (negative : Bool) {c : Char} (cs : List Char) (hc : c.isDigit = true) :
    readNumber (minusText negative ++ c :: cs) =
      readMagnitude negative (minusText negative ++ c :: cs) (c :: cs) := by
  cases negative with
  | true => exact readNumber_minus (c :: cs)
  | false =>
    have hsign : (c :: cs).head? ≠ some '-' := by
      simpa using (ne_sign_of_isDigit hc).1
    exact readNumber_of_ne hsign

namespace Numeral

variable (n : Numeral)

theorem exponentPart_powerText (hrest : Stops continuesNumber rest) :
    exponentPart (n.powerText ++ rest) = (n.power.map Power.value, rest) := by
  unfold powerText
  split
  · next hpower =>
    rw [hpower]
    exact exponentPart_none hrest
  · next p hpower =>
    rw [hpower]
    exact exponentPart_power p hrest.isDigit

theorem stops_powerText (hrest : Stops continuesNumber rest) :
    Stops (fun c => c.isDigit || c = '.') (n.powerText ++ rest) := by
  unfold powerText
  split
  · intro c hc
    simp [hrest.isDigit c hc, hrest.ne hc]
  · next p _ => exact p.stops_text rest

theorem fractionPart_fractionText (hrest : Stops continuesNumber rest) :
    fractionPart (n.fractionText ++ (n.powerText ++ rest)) = (n.fraction, n.powerText ++ rest) := by
  have hstop := n.stops_powerText hrest
  unfold fractionText
  split
  · next hfraction =>
    rw [hfraction]
    refine fractionPart_none fun c hc => ?_
    simpa using (Bool.or_eq_false_iff.mp (hstop c hc)).2
  · next c cs hfraction =>
    rw [hfraction]
    refine fractionPart_digits (hfraction ▸ n.fraction_digits) fun c hc => ?_
    exact (Bool.or_eq_false_iff.mp (hstop c hc)).1

theorem stops_fractionText (hrest : Stops continuesNumber rest) :
    Stops Char.isDigit (n.fractionText ++ (n.powerText ++ rest)) := by
  unfold fractionText
  split
  · exact fun c hc => (Bool.or_eq_false_iff.mp (n.stops_powerText hrest c hc)).1
  · exact stops_cons rfl

theorem exists_whole_cons : ∃ c cs, n.whole = c :: cs ∧ c.isDigit = true :=
  exists_digit_cons n.whole_ok n.whole_digits

theorem exists_text_signed (rest : List Char) :
    ∃ c cs, n.text ++ rest = minusText n.negative ++ c :: cs ∧ c.isDigit = true := by
  obtain ⟨c, cs, hcons, hc⟩ := n.exists_whole_cons
  exact ⟨c, cs ++ (n.fractionText ++ (n.powerText ++ rest)), by simp [text, minusText, hcons], hc⟩

/-- A number is read up to what does not go on with it. -/
theorem readNumber_text (hrest : Stops continuesNumber rest) :
    readNumber (n.text ++ rest) = .ok (n.json, rest) := by
  have hmagnitude (start : List Char) :
      readMagnitude n.negative start (n.whole ++ (n.fractionText ++ (n.powerText ++ rest))) =
        .ok (n.json, rest) := by
    obtain ⟨c, cs, hcons, -⟩ := n.exists_whole_cons
    have hshort : n.fraction = [] → n.power = none → ¬integerLimit < n.whole.length :=
      fun hf hp => Nat.not_lt.mpr (n.short hf hp)
    rw [readMagnitude, wholePart_append n.whole_ok n.whole_digits (n.stops_fractionText hrest),
      json]
    rw [hcons] at hshort ⊢
    dsimp only
    rw [n.fractionPart_fractionText hrest]
    dsimp only
    rw [n.exponentPart_powerText hrest]
    cases hf : n.fraction with
    | cons d ds => rfl
    | nil =>
      cases hp : n.power with
      | some p => rfl
      | none => rw [Option.map_none, if_neg (hshort hf hp)]
  obtain ⟨c, cs, hcons, hc⟩ := n.exists_whole_cons
  have htext : n.text ++ rest = minusText n.negative ++
      c :: (cs ++ (n.fractionText ++ (n.powerText ++ rest))) := by
    simp [text, minusText, hcons]
  rw [htext, readNumber_signed n.negative _ hc, ← List.cons_append, ← hcons]
  exact hmagnitude _

end Numeral

/-! ### Characters of numbers -/

/-- Whether a character may be part of a number. -/
def isNumeral (c : Char) : Bool := c.isDigit || ['-', '+', '.', 'e', 'E'].contains c

theorem isNumeral_cases {c : Char} (h : isNumeral c = true) :
    c.isDigit = true ∨ c = '-' ∨ c = '+' ∨ c = '.' ∨ c = 'e' ∨ c = 'E' := by
  simpa [isNumeral] using h

theorem ne_of_isNumeral {c d : Char} (h : isNumeral c = true) (hd : isNumeral d = false) :
    c ≠ d := by
  rintro rfl
  cases h.symm.trans hd

theorem Power.isNumeral_of_mem (p : Power) {c : Char} (h : c ∈ p.text) : isNumeral c = true := by
  simp only [text, List.cons_append, List.mem_cons, List.mem_append] at h
  rcases h with rfl | h | h
  · rcases p.mark_ok with hmark | hmark <;> rw [hmark] <;> rfl
  · rcases hsign : p.sign with _ | _ | _ <;> rw [hsign] at h <;>
      simp only [signText, List.mem_singleton, List.not_mem_nil] at h <;> rw [h] <;> rfl
  · simp [isNumeral, p.digits_ok c h]

theorem Literal.isNumeral_of_mem (l : Literal) {c : Char} (h : c ∈ l.text) :
    isNumeral c = true := by
  simp only [text, List.mem_append] at h
  rcases h with h | h | h | h
  · cases hneg : l.negative <;> rw [hneg] at h <;> simp [minusText] at h
    rw [h]
    rfl
  · simp [isNumeral, l.whole_digits c h]
  · unfold fractionText at h
    split at h
    · cases h
    · next d ds heq =>
      rcases List.mem_cons.mp h with rfl | h
      · rfl
      · simp [isNumeral, l.fraction_digits c (heq ▸ h)]
  · unfold powerText at h
    split at h
    · cases h
    · exact Power.isNumeral_of_mem _ h

theorem Numeral.isNumeral_of_mem (n : Numeral) {c : Char} (h : c ∈ n.text) :
    isNumeral c = true :=
  n.literal.isNumeral_of_mem h

/-! ### Words -/

theorem readScalar_null : readScalar ("null".toList ++ rest) = .ok (.null, rest) := by
  rfl

theorem readScalar_bool (b : Bool) (rest : List Char) :
    readScalar (boolText b ++ rest) = .ok (.bool b, rest) := by
  cases b <;> rfl

theorem readScalar_signed (negative : Bool) {c : Char} (cs : List Char) (hc : c.isDigit = true) :
    readScalar (minusText negative ++ c :: cs) = readNumber (minusText negative ++ c :: cs) := by
  have hword : (words.find? fun w =>
      w.1.toList.isPrefixOf (minusText negative ++ c :: cs)) = none := by
    have hletter (letter : Char) (h : letter.isDigit = false) : letter ≠ c := by
      rintro rfl
      cases h.symm.trans hc
    cases negative <;>
      simp [words, minusText, hletter 'n' rfl, hletter 't' rfl, hletter 'f' rfl, hletter 'N' rfl,
        hletter 'I' rfl, hletter '-' rfl]
  rw [readScalar, hword]

/-! ### Strings -/

/-- A character of a string where a text begins, and what follows it. -/
inductive Takes : List Char → Char → List Char → Prop
  | plain {c : Char} (quotable : c ≠ '"' ∧ c ≠ '\\' ∧ 0x20 ≤ c.toNat) (rest : List Char) :
      Takes (c :: rest) c rest
  | escape {letter c : Char} (stands : escaped? letter = some c) (rest : List Char) :
      Takes ('\\' :: letter :: rest) c rest
  | unit {n : Nat} {cs after : List Char} (hunit : unicodeUnit? cs = some (n, after)) :
      Takes ('\\' :: 'u' :: cs) (unitChar n) after
  | pair {n m : Nat} {cs second beyond : List Char}
      (hunit : unicodeUnit? cs = some (n, '\\' :: 'u' :: second))
      (hsecond : unicodeUnit? second = some (m, beyond)) :
      Takes ('\\' :: 'u' :: cs) (pairChar n m) beyond

theorem ne_of_escaped? {letter c : Char} (stands : escaped? letter = some c) : letter ≠ 'u' := by
  rintro rfl
  cases stands

/-- A string that is read ends here, or a character is taken and the rest is read. -/
theorem stringBody_eq_ok {start : List Char} {fuel : Nat} {cs chars : List Char}
    (h : stringBody start (fuel + 1) cs = .ok (chars, rest)) :
    (cs = '"' :: rest ∧ chars = []) ∨ ∃ c after more, Takes cs c after ∧
      stringBody start fuel after = .ok (more, rest) ∧ chars = c :: more := by
  have htake {c : Char} {cs after : List Char} (htakes : Takes cs c after)
      (hmap : stringBody.prepend c (stringBody start fuel after) = .ok (chars, rest)) :
      ∃ c after more, Takes cs c after ∧
        stringBody start fuel after = .ok (more, rest) ∧ chars = c :: more := by
    obtain ⟨⟨more, beyond⟩, hmore, heq⟩ := Outcome.map_eq_ok.mp hmap
    cases heq
    exact ⟨c, after, more, htakes, hmore, rfl⟩
  rcases cs with _ | ⟨c, cs⟩
  · cases h
  rw [stringBody.eq_def] at h
  dsimp only at h
  by_cases hquote : c = '"'
  · subst hquote
    rw [if_pos rfl] at h
    cases h
    exact .inl ⟨rfl, rfl⟩
  right
  rw [if_neg hquote] at h
  by_cases hbackslash : c = '\\'
  · subst hbackslash
    rw [if_pos rfl] at h
    split at h
    · cases h
    · split at h
      · cases h
      next n after hafter =>
      split at h
      · next second =>
        split at h
        · exact htake (.unit hafter) h
        split at h
        · cases h
        next m beyond hbeyond =>
        split at h
        · exact htake (.pair hafter hbeyond) h
        · exact htake (.unit hafter) h
      · exact htake (.unit hafter) h
    · split at h
      · next d hd => exact htake (.escape hd _) h
      · cases h
  · rw [if_neg hbackslash] at h
    split at h
    · cases h
    · next hcontrol => exact htake (.plain ⟨hquote, hbackslash, Nat.not_lt.mp hcontrol⟩ cs) h

theorem stringBody_quote (start : List Char) (fuel : Nat) (rest : List Char) :
    stringBody start (fuel + 1) ('"' :: rest) = .ok ([], rest) := rfl

theorem stringBody_plain (start : List Char) (fuel : Nat) {c : Char}
    (quotable : c ≠ '"' ∧ c ≠ '\\' ∧ 0x20 ≤ c.toNat) (rest : List Char) :
    stringBody start (fuel + 1) (c :: rest) =
      stringBody.prepend c (stringBody start fuel rest) := by
  obtain ⟨hquote, hbackslash, hcontrol⟩ := quotable
  rw [stringBody.eq_def]
  dsimp only
  rw [if_neg hquote, if_neg hbackslash, if_neg (Nat.not_lt.mpr hcontrol)]

theorem stringBody_escape (start : List Char) (fuel : Nat) {letter c : Char}
    (stands : escaped? letter = some c) (rest : List Char) :
    stringBody start (fuel + 1) ('\\' :: letter :: rest) =
      stringBody.prepend c (stringBody start fuel rest) := by
  rw [stringBody.eq_def]
  dsimp only
  rw [if_neg (by decide), if_pos rfl]
  split
  · next heq => cases heq
  · next heq => exact absurd (List.cons.inj heq).1 (ne_of_escaped? stands)
  · next heq =>
    cases heq
    rw [stands]

/-- A character is taken from an escaped code unit, if the escape after it, if it is one of a code
unit, has its digits too. -/
theorem exists_takes_unit (start : List Char) (fuel : Nat) {cs after : List Char} {n : Nat}
    (hunit : unicodeUnit? cs = some (n, after))
    (hsecond : ∀ second, after = '\\' :: 'u' :: second → ∃ u, unicodeUnit? second = some u) :
    ∃ c beyond, Takes ('\\' :: 'u' :: cs) c beyond ∧
      stringBody start (fuel + 1) ('\\' :: 'u' :: cs) =
        stringBody.prepend c (stringBody start fuel beyond) := by
  rw [stringBody.eq_def]
  dsimp only
  rw [if_neg (by decide), if_pos rfl]
  simp only [hunit]
  split
  · next second _ =>
    obtain ⟨⟨m, beyond⟩, hbeyond⟩ := hsecond second rfl
    split
    · exact ⟨_, _, .unit hunit, rfl⟩
    · rw [hbeyond]
      dsimp only
      split
      · exact ⟨_, _, .pair hunit hbeyond, rfl⟩
      · exact ⟨_, _, .unit hunit, rfl⟩
  · exact ⟨_, _, .unit hunit, rfl⟩

theorem stringBody_unit (start : List Char) (fuel : Nat) {cs after : List Char} {n : Nat}
    (hunit : unicodeUnit? cs = some (n, after)) (hsurrogate : isHighSurrogate n = false) :
    stringBody start (fuel + 1) ('\\' :: 'u' :: cs) =
      stringBody.prepend (unitChar n) (stringBody start fuel after) := by
  rw [stringBody.eq_def]
  dsimp only
  rw [if_neg (by decide), if_pos rfl]
  simp only [hunit, hsurrogate]

/-- The text of a character of a string: itself, or an escape by a letter or by its code. -/
inductive WritesChar : List Char → Char → Prop
  | plain {c : Char} (quotable : c ≠ '"' ∧ c ≠ '\\' ∧ 0x20 ≤ c.toNat) : WritesChar [c] c
  | escape {letter c : Char} (stands : escaped? letter = some c) : WritesChar ['\\', letter] c
  | unit {a b c d : Char} {n : Nat} (digits : hexUnit? a b c d = some n)
      (scalar : isHighSurrogate n = false ∧ isLowSurrogate n = false) :
      WritesChar ['\\', 'u', a, b, c, d] (Char.ofNat n)

theorem stringBody_char (start : List Char) (fuel : Nat) {p after : List Char} {c : Char}
    (h : WritesChar p c) (hafter : after ≠ []) :
    stringBody start (fuel + 1) (p ++ after) =
      stringBody.prepend c (stringBody start fuel after) := by
  cases h with
  | plain quotable => exact stringBody_plain start fuel quotable after
  | escape stands => exact stringBody_escape start fuel stands after
  | @unit a b c d n digits scalar =>
    obtain ⟨next, after, rfl⟩ := List.exists_cons_of_ne_nil hafter
    have hunit : unicodeUnit? (a :: b :: c :: d :: next :: after) = some (n, next :: after) := by
      simp [unicodeUnit?, digits]
    have hchar : unitChar n = Char.ofNat n := by simp [unitChar, scalar]
    rw [← hchar]
    exact stringBody_unit start fuel hunit scalar.1

/-- A string is read when each of its characters is spelled. -/
theorem stringBody_spelled (start : List Char) {parts : List (List Char)} {chars : List Char}
    (h : List.Forall₂ WritesChar parts chars) {fuel : Nat} (hfuel : parts.length < fuel) :
    stringBody start fuel (parts.flatten ++ '"' :: rest) = .ok (chars, rest) := by
  induction h generalizing fuel with
  | nil =>
    obtain ⟨fuel, rfl⟩ := Nat.exists_eq_add_of_lt hfuel
    simp [stringBody]
  | cons hfirst _ ih =>
    obtain _ | fuel := fuel
    · cases hfuel
    rw [List.flatten_cons, List.append_assoc, stringBody_char start fuel hfirst (by simp),
      ih (Nat.lt_of_succ_lt_succ hfuel)]
    rfl

theorem WritesChar.length_pos {p : List Char} {c : Char} (h : WritesChar p c) : 0 < p.length := by
  cases h <;> exact Nat.succ_pos _

theorem readString_spelled {parts : List (List Char)} {chars : List Char}
    (h : List.Forall₂ WritesChar parts chars) (rest : List Char) :
    readString ('"' :: (parts.flatten ++ '"' :: rest)) = .ok (String.ofList chars, rest) := by
  have hlength : parts.length ≤ parts.flatten.length := by
    induction h with
    | nil => exact Nat.le_refl 0
    | cons hfirst _ ih =>
      have hpos := hfirst.length_pos
      rw [List.flatten_cons, List.length_append, List.length_cons]
      omega
  rw [readString, List.tail_cons, stringBody_spelled _ h]
  · rfl
  · simp only [List.length_cons, List.length_append]
    omega

theorem Piece.writesChar (p : Piece) : WritesChar p.text p.char := by
  cases p with
  | plain c quotable => exact .plain quotable
  | escape letter c stands => exact .escape stands

theorem readString_quotedText (pieces : List Piece) (rest : List Char) :
    readString (quotedText pieces ++ rest) = .ok (stringOf pieces, rest) := by
  have hwrites : List.Forall₂ WritesChar (pieces.map Piece.text) (pieces.map Piece.char) := by
    rw [List.forall₂_map_left_iff, List.forall₂_map_right_iff, List.forall₂_same]
    exact fun p _ => p.writesChar
  have hstart : quotedText pieces ++ rest =
      '"' :: ((pieces.map Piece.text).flatten ++ '"' :: rest) := by
    simp [quotedText, innerText, List.flatMap_def]
  rw [hstart, readString_spelled hwrites, stringOf]

/-! ### Containers -/

/-- Reads the parts of a container up to its closing bracket. -/
def readParts (keyed : Bool) (fuel depth : Nat) (cs : List Char) : Result (List (String × Json)) :=
  if keyed then readEntries fuel depth cs
  else (readItems fuel depth cs).map fun (items, after) => (items.map fun j => ("", j), after)

/-- Reads what follows a part: a closing bracket, or a comma and more parts. -/
def readAfter (keyed : Bool) (fuel depth : Nat) (part : String × Json) :
    List Char → Result (List (String × Json))
  | [] => .error ⟨.comma, []⟩
  | c :: cs =>
    if c = closeBracket keyed then .ok ([part], cs)
    else if c = ',' then
      (readParts keyed fuel depth (skipSpace cs)).map fun (parts, after) => (part :: parts, after)
    else .error ⟨.comma, c :: cs⟩

theorem readValue_open (keyed : Bool) (fuel depth : Nat) (cs : List Char) :
    readValue (fuel + 1) (depth + 1) (openBracket keyed :: cs) =
      if (skipSpace cs).head? = some (closeBracket keyed) then
        .ok (ofParts keyed [], (skipSpace cs).tail)
      else
        (readParts keyed fuel depth (skipSpace cs)).map fun (parts, after) =>
          (ofParts keyed parts, after) := by
  cases keyed with
  | false =>
    change readValue (fuel + 1) (depth + 1) ('[' :: cs) = _
    simp only [readValue]
    split
    · next after heq => simp [heq, closeBracket, ofParts]
    · next inside hne =>
      rw [if_neg fun hhead => ?_]
      · cases hitems : readItems fuel depth (skipSpace cs) <;>
          simp [readParts, ofParts, Except.map, hitems, Function.comp_def]
      · obtain ⟨after, hafter⟩ := List.head?_eq_some_iff.mp hhead
        exact hne after hafter
  | true =>
    change readValue (fuel + 1) (depth + 1) ('\x7b' :: cs) = _
    simp only [readValue]
    split
    · next after heq => simp [heq, closeBracket, ofParts, Entries.ofList, Entries.putAll]
    · next inside hne =>
      rw [if_neg fun hhead => ?_]
      · rfl
      · obtain ⟨after, hafter⟩ := List.head?_eq_some_iff.mp hhead
        exact hne after hafter

theorem readParts_item {fuel depth : Nat} {cs after : List Char} {value : Json}
    (hvalue : readValue fuel depth cs = .ok (value, after)) :
    readParts false (fuel + 1) depth cs =
      readAfter false fuel depth ("", value) (skipSpace after) := by
  rw [readParts, if_neg Bool.false_ne_true]
  simp only [readItems, hvalue]
  split
  · next heq =>
    rw [heq]
    rfl
  · next more heq =>
    rw [heq]
    cases hitems : readItems fuel depth (skipSpace more) <;>
      simp [readAfter, readParts, closeBracket, hitems, Except.map]
  · next hclose hcomma =>
    rcases hfollowing : skipSpace after with _ | ⟨c, more⟩
    · rfl
    · have hc : c ≠ ']' := fun h => hclose more (h ▸ hfollowing)
      have hc' : c ≠ ',' := fun h => hcomma more (h ▸ hfollowing)
      simp [readAfter, closeBracket, Except.map, hc, hc']

theorem readParts_entry {fuel depth : Nat} {key : String} {value : Json}
    {start afterKey afterColon after : List Char} (hquote : start.head? = some '"')
    (hkey : readString start = .ok (key, afterKey))
    (hcolon : skipSpace afterKey = ':' :: afterColon)
    (hvalue : readValue fuel depth (skipSpace afterColon) = .ok (value, after)) :
    readParts true (fuel + 1) depth start =
      readAfter true fuel depth (key, value) (skipSpace after) := by
  obtain ⟨inside, rfl⟩ := List.head?_eq_some_iff.mp hquote
  rw [readParts, if_pos rfl]
  simp only [readEntries, hkey, hcolon, hvalue]
  split
  · next heq =>
    rw [heq]
    rfl
  · next heq =>
    rw [heq]
    rfl
  · next hclose hcomma =>
    rcases hfollowing : skipSpace after with _ | ⟨c, more⟩
    · rfl
    · have hc : c ≠ '\x7d' := fun h => hclose more (h ▸ hfollowing)
      have hc' : c ≠ ',' := fun h => hcomma more (h ▸ hfollowing)
      simp [readAfter, closeBracket, hc, hc']

/-- Items that are read begin with a value. -/
theorem exists_item {fuel depth : Nat} {cs : List Char} {parts : List (String × Json)}
    (h : readParts false (fuel + 1) depth cs = .ok (parts, rest)) :
    ∃ value after, readValue fuel depth cs = .ok (value, after) ∧
      readAfter false fuel depth ("", value) (skipSpace after) = .ok (parts, rest) := by
  cases hvalue : readValue fuel depth cs with
  | error e => simp [readParts, readItems, hvalue, Except.map] at h
  | ok found =>
    obtain ⟨value, after⟩ := found
    rw [readParts_item hvalue] at h
    exact ⟨value, after, rfl, h⟩

/-- Entries that are read begin with a key, a colon and a value. -/
theorem exists_entry {fuel depth : Nat} {cs : List Char} {parts : List (String × Json)}
    (h : readParts true (fuel + 1) depth cs = .ok (parts, rest)) :
    ∃ key afterKey afterColon value after, cs.head? = some '"' ∧
      readString cs = .ok (key, afterKey) ∧ skipSpace afterKey = ':' :: afterColon ∧
        readValue fuel depth (skipSpace afterColon) = .ok (value, after) ∧
          readAfter true fuel depth (key, value) (skipSpace after) = .ok (parts, rest) := by
  have hread := h
  rw [readParts, if_pos rfl, readEntries.eq_def] at h
  dsimp only at h
  split at h
  · next tail =>
    cases hkey : readString ('"' :: tail) with
    | error e => simp [hkey] at h
    | ok found =>
      obtain ⟨key, afterKey⟩ := found
      rw [hkey] at h
      dsimp only at h
      split at h
      · next afterColon hcolon =>
        cases hvalue : readValue fuel depth (skipSpace afterColon) with
        | error e => simp [hvalue] at h
        | ok found =>
          obtain ⟨value, after⟩ := found
          rw [readParts_entry rfl hkey hcolon hvalue] at hread
          exact ⟨key, afterKey, afterColon, value, after, rfl, rfl, hcolon, hvalue, hread⟩
      · cases h
  · cases h

theorem readParts_label {keyed : Bool} (label : Label keyed) {fuel depth : Nat}
    {cs after : List Char} {value : Json} (hvalue : readValue fuel depth cs = .ok (value, after))
    (hcs : keyed = true → Stops isSpace cs) :
    readParts keyed (fuel + 1) depth (label.text ++ cs) =
      readAfter keyed fuel depth (label.name, value) (skipSpace after) := by
  cases label with
  | none => exact readParts_item hvalue
  | key pieces before gap =>
    have htext : (Label.key pieces before gap).text ++ cs =
        quotedText pieces ++ (before.chars ++ ':' :: (gap.chars ++ cs)) := by
      simp [Label.text]
    rw [htext]
    apply readParts_entry rfl (readString_quotedText pieces _)
    · exact skipSpace_gap before (stops_cons rfl)
    · rw [skipSpace_gap gap (hcs rfl), hvalue]

theorem readValue_of_scalar {c : Char} {cs : List Char} (fuel depth : Nat) (hquote : c ≠ '"')
    (hbracket : ∀ keyed, c ≠ openBracket keyed) :
    readValue (fuel + 1) depth (c :: cs) = readScalar (c :: cs) := by
  have harray : c ≠ '[' := hbracket false
  have hobject : c ≠ '\x7b' := hbracket true
  rw [readValue.eq_def]
  dsimp only
  split
  · next heq => exact absurd (List.cons.inj heq).1 hquote
  · next heq => exact absurd (List.cons.inj heq).1 harray
  · next heq => exact absurd (List.cons.inj heq).1 hobject
  · rfl

theorem readValue_quote {s : String} {start : List Char} (fuel depth : Nat)
    (hquote : start.head? = some '"') (hstring : readString start = .ok (s, rest)) :
    readValue (fuel + 1) depth start = .ok (.string s, rest) := by
  obtain ⟨inside, rfl⟩ := List.head?_eq_some_iff.mp hquote
  simp only [readValue, hstring]
  rfl

/-- How a value is read at the front of a text with one more step than its parts may take. -/
inductive ReadsValue (fuel : Nat) : (depth : Nat) → List Char → Json → List Char → Prop
  | empty {depth : Nat} {inside rest : List Char} (keyed : Bool)
      (closed : skipSpace inside = closeBracket keyed :: rest) :
      ReadsValue fuel (depth + 1) (openBracket keyed :: inside) (ofParts keyed []) rest
  | container {depth : Nat} {inside rest : List Char} {parts : List (String × Json)} (keyed : Bool)
      (unclosed : (skipSpace inside).head? ≠ some (closeBracket keyed))
      (read : readParts keyed fuel depth (skipSpace inside) = .ok (parts, rest)) :
      ReadsValue fuel (depth + 1) (openBracket keyed :: inside) (ofParts keyed parts) rest
  | string {depth : Nat} {inside rest : List Char} {s : String}
      (read : readString ('"' :: inside) = .ok (s, rest)) :
      ReadsValue fuel depth ('"' :: inside) (.string s) rest
  | scalar {depth : Nat} {c : Char} {inside rest : List Char} {j : Json} (unquoted : c ≠ '"')
      (unopened : ∀ keyed, c ≠ openBracket keyed)
      (read : readScalar (c :: inside) = .ok (j, rest)) :
      ReadsValue fuel depth (c :: inside) j rest

theorem readValue_eq_ok {fuel depth : Nat} {cs : List Char} {j : Json} :
    readValue (fuel + 1) depth cs = .ok (j, rest) ↔ ReadsValue fuel depth cs j rest := by
  constructor
  · intro h
    rcases cs with _ | ⟨c, inside⟩
    · cases h
    by_cases hopen : ∃ keyed, c = openBracket keyed
    · obtain ⟨keyed, rfl⟩ := hopen
      obtain _ | depth := depth
      · cases keyed <;> cases h
      rw [readValue_open] at h
      split at h
      · next hhead =>
        cases h
        obtain ⟨after, hafter⟩ := List.head?_eq_some_iff.mp hhead
        exact .empty keyed (by rw [hafter, List.tail_cons])
      · next hhead =>
        obtain ⟨⟨parts, after⟩, hread, heq⟩ := Outcome.map_eq_ok.mp h
        cases heq
        exact .container keyed hhead hread
    have unopened (keyed : Bool) : c ≠ openBracket keyed := fun heq => hopen ⟨keyed, heq⟩
    by_cases hquote : c = '"'
    · subst hquote
      obtain ⟨⟨s, after⟩, hread, heq⟩ := Outcome.map_eq_ok.mp h
      cases heq
      exact .string hread
    · rw [readValue_of_scalar fuel depth hquote unopened] at h
      exact .scalar hquote unopened h
  · intro h
    cases h with
    | empty keyed closed => rw [readValue_open, closed, List.head?_cons, if_pos rfl, List.tail_cons]
    | container keyed unclosed read =>
      rw [readValue_open, if_neg unclosed, read]
      rfl
    | string read => exact readValue_quote fuel depth rfl read
    | scalar unquoted unopened read => rwa [readValue_of_scalar fuel depth unquoted unopened]

/-! ### Beginnings of values -/

/-- Whether a value may begin with a character. -/
def beginsValue (c : Char) : Bool :=
  c.isDigit || ['-', '"', '[', '\x7b', 'n', 't', 'f'].contains c

theorem isSpace_of_beginsValue {c : Char} (h : beginsValue c = true) : isSpace c = false := by
  cases hspace : isSpace c with
  | false => rfl
  | true =>
    simp only [isSpace, Bool.or_eq_true, decide_eq_true_eq] at hspace
    rcases hspace with ((rfl | rfl) | rfl) | rfl <;> cases h

theorem ne_closeBracket_of_beginsValue {c : Char} (h : beginsValue c = true) (keyed : Bool) :
    c ≠ closeBracket keyed := by
  rintro rfl
  cases keyed <;> cases h

theorem Literal.exists_text_cons (l : Literal) :
    ∃ c cs, l.text = c :: cs ∧ (c = '-' ∨ c.isDigit = true) := by
  obtain ⟨c, cs, hcons, hc⟩ := exists_digit_cons l.whole_ok l.whole_digits
  cases hneg : l.negative with
  | true => exact ⟨'-', l.whole ++ (l.fractionText ++ l.powerText), by simp [text, minusText, hneg],
      .inl rfl⟩
  | false => exact ⟨c, cs ++ (l.fractionText ++ l.powerText), by simp [text, minusText, hneg, hcons],
      .inr hc⟩

theorem Numeral.exists_text_cons (n : Numeral) :
    ∃ c cs, n.text = c :: cs ∧ (c = '-' ∨ c.isDigit = true) :=
  n.literal.exists_text_cons

theorem readValue_signed (fuel depth : Nat) (negative : Bool) {c : Char} (cs : List Char)
    (hc : c.isDigit = true) :
    readValue (fuel + 1) depth (minusText negative ++ c :: cs) =
      readNumber (minusText negative ++ c :: cs) := by
  have hne (d : Char) (hdigit : d.isDigit = false) : c ≠ d := by
    rintro rfl
    cases hdigit.symm.trans hc
  rw [← readScalar_signed negative cs hc]
  cases negative with
  | true => exact readValue_of_scalar fuel depth (by decide) (by decide)
  | false =>
    refine readValue_of_scalar fuel depth (hne _ rfl) fun keyed => ?_
    cases keyed <;> exact hne _ rfl

theorem Numeral.readValue_text (n : Numeral) (fuel depth : Nat)
    (hrest : Stops continuesNumber rest) :
    readValue (fuel + 1) depth (n.text ++ rest) = .ok (n.json, rest) := by
  obtain ⟨c, cs, htext, hc⟩ := n.exists_text_signed rest
  rw [← n.readNumber_text hrest, htext, readValue_signed fuel depth n.negative cs hc]

theorem Written.exists_chars_cons (v : Written) :
    ∃ c cs, v.chars = c :: cs ∧ beginsValue c = true := by
  cases v with
  | null => exact ⟨'n', _, rfl, rfl⟩
  | bool b => cases b <;> exact ⟨_, _, rfl, rfl⟩
  | number n =>
    obtain ⟨c, cs, hcons, hc⟩ := n.exists_text_cons
    refine ⟨c, cs, hcons, ?_⟩
    rcases hc with rfl | hc
    · rfl
    · simp [beginsValue, hc]
  | text pieces => exact ⟨'"', _, rfl, rfl⟩
  | empty keyed inside => cases keyed <;> exact ⟨_, _, rfl, rfl⟩
  | container keyed before parts => cases keyed <;> exact ⟨_, _, rfl, rfl⟩

theorem Label.exists_text_cons {keyed : Bool} (label : Label keyed) (v : Written) :
    ∃ c cs, label.text ++ (v.chars ++ rest) = c :: cs ∧ beginsValue c = true := by
  cases label with
  | none =>
    obtain ⟨c, cs, hcons, hc⟩ := v.exists_chars_cons
    exact ⟨c, cs ++ rest, by simp [Label.text, hcons], hc⟩
  | key pieces before after => exact ⟨'"', _, rfl, rfl⟩

theorem Parts.exists_chars_cons {keyed : Bool} (parts : Parts keyed) :
    ∃ c cs, parts.chars = c :: cs ∧ beginsValue c = true := by
  cases parts with
  | last label v after => exact label.exists_text_cons v
  | more label v after before rest => exact label.exists_text_cons v

theorem Written.stops_chars (v : Written) : Stops isSpace (v.chars ++ rest) := by
  obtain ⟨c, cs, hcons, hc⟩ := v.exists_chars_cons
  rw [hcons]
  exact stops_cons (isSpace_of_beginsValue hc)

theorem Parts.stops_chars {keyed : Bool} (parts : Parts keyed) (rest : List Char) :
    Stops isSpace (parts.chars ++ rest) := by
  obtain ⟨c, cs, hcons, hc⟩ := parts.exists_chars_cons
  rw [hcons]
  exact stops_cons (isSpace_of_beginsValue hc)

theorem stops_gap (g : Gap) (hrest : Stops continuesNumber rest) :
    Stops continuesNumber (g.chars ++ rest) := by
  obtain ⟨cs, hblank⟩ := g
  cases cs with
  | nil => exact hrest
  | cons c cs =>
    refine stops_cons ?_
    have hc := hblank c List.mem_cons_self
    simp only [isSpace, Bool.or_eq_true, decide_eq_true_eq] at hc
    rcases hc with ((rfl | rfl) | rfl) | rfl <;> rfl

theorem stops_gap_end (g : Gap) : Stops continuesNumber g.chars := by
  have hgap := stops_gap g (stops_nil continuesNumber)
  rwa [List.append_nil] at hgap

/-! ### Values -/

theorem readAfter_closeBracket (keyed : Bool) (fuel depth : Nat) (part : String × Json) :
    readAfter keyed fuel depth part (closeBracket keyed :: rest) = .ok ([part], rest) := by
  simp [readAfter]

theorem readAfter_comma (keyed : Bool) (fuel depth : Nat) (part : String × Json) :
    readAfter keyed fuel depth part (',' :: rest) =
      (readParts keyed fuel depth (skipSpace rest)).map fun (parts, after) =>
        (part :: parts, after) := by
  cases keyed <;> simp [readAfter, closeBracket]

theorem stops_closeBracket (keyed : Bool) (rest : List Char) :
    Stops continuesNumber (closeBracket keyed :: rest) := by
  cases keyed <;> exact stops_cons rfl

theorem isSpace_closeBracket (keyed : Bool) : isSpace (closeBracket keyed) = false := by
  cases keyed <;> rfl

mutual

/-- A value is read up to what does not go on with it, given steps and levels enough. -/
theorem Written.readValue_chars (v : Written) (fuel depth : Nat) {rest : List Char}
    (hfuel : 2 * v.chars.length ≤ fuel) (hdepth : v.depth ≤ depth)
    (hrest : Stops continuesNumber rest) :
    readValue fuel depth (v.chars ++ rest) = .ok (v.json, rest) := by
  obtain _ | fuel := fuel
  · obtain ⟨c, cs, hcons, -⟩ := v.exists_chars_cons
    rw [hcons] at hfuel
    cases hfuel
  · cases v with
    | null => exact (readValue_of_scalar fuel depth (by decide) (by decide)).trans readScalar_null
    | bool b =>
      have hscalar := readScalar_bool b rest
      cases b <;> exact (readValue_of_scalar fuel depth (by decide) (by decide)).trans hscalar
    | number n => exact n.readValue_text fuel depth hrest
    | text pieces => exact readValue_quote fuel depth rfl (readString_quotedText pieces rest)
    | empty keyed inside =>
      obtain _ | depth := depth
      · cases hdepth
      · have hclose : Stops isSpace (closeBracket keyed :: rest) :=
          stops_cons (isSpace_closeBracket keyed)
        have hinside := skipSpace_gap inside hclose
        have htext : (Written.empty keyed inside).chars ++ rest =
            openBracket keyed :: (inside.chars ++ closeBracket keyed :: rest) := by
          simp [Written.chars]
        rw [htext, readValue_open, hinside, List.head?_cons, if_pos rfl]
        rfl
    | container keyed before parts =>
      obtain _ | depth := depth
      · cases hdepth
      · have htext : (Written.container keyed before parts).chars ++ rest =
            openBracket keyed :: (before.chars ++ (parts.chars ++ rest)) := by
          simp [Written.chars]
        have hlength : (Written.container keyed before parts).chars.length =
            before.chars.length + parts.chars.length + 1 := by
          simp [Written.chars]
        have hparts := parts.readParts_chars fuel depth rest (by omega)
          (Nat.le_of_succ_le_succ hdepth)
        have hclose : (parts.chars ++ rest).head? ≠ some (closeBracket keyed) := by
          obtain ⟨c, cs, hcons, hc⟩ := parts.exists_chars_cons
          simpa [hcons] using ne_closeBracket_of_beginsValue hc keyed
        rw [htext, readValue_open, skipSpace_gap before (parts.stops_chars rest), if_neg hclose, hparts]
        rfl

/-- The parts of a container are read up to its closing bracket. -/
theorem Parts.readParts_chars {keyed : Bool} (parts : Parts keyed) (fuel depth : Nat)
    (rest : List Char) (hfuel : 2 * parts.chars.length + 1 ≤ fuel) (hdepth : parts.depth ≤ depth) :
    readParts keyed fuel depth (parts.chars ++ rest) = .ok (parts.json, rest) := by
  obtain _ | fuel := fuel
  · cases hfuel
  · cases parts with
    | last label value after =>
      have htext : (Parts.last label value after).chars ++ rest =
          label.text ++ (value.chars ++ (after.chars ++ closeBracket keyed :: rest)) := by
        simp [Parts.chars]
      have hlength : value.chars.length + 1 ≤ (Parts.last label value after).chars.length := by
        simp only [Parts.chars, List.length_append, List.length_cons, List.length_nil]
        omega
      have hvalue := value.readValue_chars fuel depth (by omega) hdepth
        (stops_gap after (stops_closeBracket keyed rest))
      rw [htext, readParts_label label hvalue fun _ => value.stops_chars,
        skipSpace_gap after (stops_cons (isSpace_closeBracket keyed)), readAfter_closeBracket]
      rfl
    | more label value after before others =>
      have htext : (Parts.more label value after before others).chars ++ rest = label.text ++
          (value.chars ++ (after.chars ++ ',' :: (before.chars ++ (others.chars ++ rest)))) := by
        simp [Parts.chars]
      have hlength : value.chars.length + others.chars.length + 1 ≤
          (Parts.more label value after before others).chars.length := by
        simp only [Parts.chars, List.length_append, List.length_cons]
        omega
      have hcomma : Stops continuesNumber (',' :: (before.chars ++ (others.chars ++ rest))) :=
        stops_cons rfl
      have hvalue := value.readValue_chars fuel depth (by omega)
        (Nat.le_trans (Nat.le_max_left _ _) hdepth) (stops_gap after hcomma)
      have hothers := others.readParts_chars fuel depth rest (by omega)
        (Nat.le_trans (Nat.le_max_right _ _) hdepth)
      rw [htext, readParts_label label hvalue fun _ => value.stops_chars,
        skipSpace_gap after (stops_cons rfl), readAfter_comma,
        skipSpace_gap before (others.stops_chars rest), hothers]
      rfl

end

theorem Document.head?_chars (d : Document) {c : Char} (h : d.chars.head? = some c) :
    isSpace c = true ∨ beginsValue c = true := by
  obtain ⟨before, value, after⟩ := d
  obtain ⟨_ | ⟨b, bs⟩, hblank⟩ := before
  · obtain ⟨b, bs, hcons, hb⟩ := value.exists_chars_cons
    rw [Document.chars, hcons] at h
    cases h
    exact .inr hb
  · cases h
    exact .inl (hblank _ List.mem_cons_self)

/-- A whole text is read if it is not nested too deep. -/
theorem Document.read_chars (d : Document) (hdepth : d.value.depth ≤ nestingLimit) :
    read d.chars = .ok d.value.json := by
  have hvalue := d.value.readValue_chars (fuelFor (d.value.chars ++ d.after.chars)) nestingLimit
    (by simp only [fuelFor, List.length_append]; omega) hdepth (stops_gap_end d.after)
  have hafter := skipSpace_gap d.after (stops_nil isSpace)
  rw [List.append_nil] at hafter
  have hmark : d.chars.head? ≠ some (Char.ofNat 0xfeff) := by
    intro hhead
    rcases d.head?_chars hhead with hc | hc <;> cases hc
  rw [read, if_neg hmark, readWhole, Document.chars, skipSpace_gap d.before d.value.stops_chars,
    readPrefix, hvalue]
  dsimp only
  rw [hafter]

end StructuredOutput.Json

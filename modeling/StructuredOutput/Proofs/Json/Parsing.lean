import StructuredOutput.Proofs.Json.Reading

/-!
Every text that is read without `\u` in a string is the text of a document, and the data that is
read is the data of that document.
-/

namespace StructuredOutput.Json

open Text

variable {rest : List Char}

/-- Whether no string of a text is written with `\u`, where the text begins inside a string or
outside of strings. -/
def noUnicodeEscape (inString : Bool) : List Char → Bool
  | [] => true
  | c :: cs =>
    if inString then
      if c = '\\' then
        match cs with
        | [] => true
        | e :: more => e ≠ 'u' && noUnicodeEscape true more
      else noUnicodeEscape (c ≠ '"') cs
    else noUnicodeEscape (c = '"') cs

theorem noUnicodeEscape_cons (c : Char) (cs : List Char) :
    noUnicodeEscape false (c :: cs) = noUnicodeEscape (c = '"') cs := by
  rw [noUnicodeEscape.eq_def]
  dsimp only
  rw [if_neg Bool.false_ne_true]

theorem noUnicodeEscape_inside {c : Char} (h : c ≠ '\\') (cs : List Char) :
    noUnicodeEscape true (c :: cs) = noUnicodeEscape (c ≠ '"') cs := by
  rw [noUnicodeEscape.eq_def]
  dsimp only
  rw [if_pos rfl, if_neg h]

theorem noUnicodeEscape_escape (e : Char) (cs : List Char) :
    noUnicodeEscape true ('\\' :: e :: cs) = (e ≠ 'u' && noUnicodeEscape true cs) := by
  rw [noUnicodeEscape.eq_def]
  dsimp only
  rw [if_pos rfl, if_pos rfl]

theorem noUnicodeEscape_append {cs : List Char} (h : '"' ∉ cs) :
    noUnicodeEscape false (cs ++ rest) = noUnicodeEscape false rest := by
  induction cs with
  | nil => rfl
  | cons c cs ih =>
    have hc : c ≠ '"' := fun hc => h (hc ▸ List.mem_cons_self)
    rw [List.cons_append, noUnicodeEscape_cons, decide_eq_false hc]
    exact ih fun hmem => h (List.mem_cons_of_mem c hmem)

theorem ne_quote_of_isSpace {c : Char} (h : isSpace c = true) : c ≠ '"' := by
  rintro rfl
  cases h

/-! ### Strings -/

/-- What is read up to a quotation mark are pieces. -/
theorem exists_pieces (start : List Char) {fuel : Nat} {cs chars : List Char}
    (h : stringBody start fuel cs = .ok (chars, rest)) (hfree : noUnicodeEscape true cs = true) :
    ∃ pieces, cs = innerText pieces ++ '"' :: rest ∧ pieces.map Piece.char = chars ∧
      noUnicodeEscape false rest = true := by
  induction fuel generalizing cs chars with
  | zero => cases h
  | succ fuel ih =>
    rcases stringBody_eq_ok h with ⟨rfl, rfl⟩ | ⟨c, after, more, htakes, hmore, rfl⟩
    · rw [noUnicodeEscape_inside (by decide)] at hfree
      exact ⟨[], rfl, rfl, hfree⟩
    cases htakes with
    | plain quotable =>
      rw [noUnicodeEscape_inside quotable.2.1, decide_eq_true quotable.1] at hfree
      obtain ⟨pieces, rfl, rfl, hrest⟩ := ih hmore hfree
      exact ⟨.plain c quotable :: pieces, rfl, rfl, hrest⟩
    | escape stands =>
      rw [noUnicodeEscape_escape, Bool.and_eq_true_iff] at hfree
      obtain ⟨pieces, rfl, rfl, hrest⟩ := ih hmore hfree.2
      exact ⟨.escape _ c stands :: pieces, rfl, rfl, hrest⟩
    | unit | pair =>
      rw [noUnicodeEscape_escape] at hfree
      cases hfree

theorem exists_quotedText {cs : List Char} {s : String}
    (h : readString ('"' :: cs) = .ok (s, rest)) (hfree : noUnicodeEscape false ('"' :: cs) = true) :
    ∃ pieces, '"' :: cs = quotedText pieces ++ rest ∧ stringOf pieces = s ∧
      noUnicodeEscape false rest = true := by
  obtain ⟨⟨chars, after⟩, hbody, heq⟩ := Outcome.map_eq_ok.mp h
  cases heq
  have hinside : noUnicodeEscape true cs = true := by simpa [noUnicodeEscape_cons] using hfree
  obtain ⟨pieces, hcs, hchars, hrest⟩ := exists_pieces _ hbody hinside
  rw [List.tail_cons] at hcs
  exact ⟨pieces, by simp [quotedText, hcs], by rw [stringOf, hchars], hrest⟩

/-! ### Numbers -/

theorem isDigit_of_mem_takeWhile {cs : List Char} {c : Char}
    (h : c ∈ cs.takeWhile Char.isDigit) : c.isDigit = true :=
  List.all_eq_true.mp List.all_takeWhile c h

theorem wholePart_spec {cs whole : List Char} (h : wholePart cs = (whole, rest))
    (hne : whole ≠ []) :
    cs = whole ++ rest ∧ (whole = ['0'] ∨ whole.head? ≠ some '0' ∧ whole ≠ []) ∧
      ∀ c ∈ whole, c.isDigit = true := by
  unfold wholePart at h
  split at h
  · cases h
    refine ⟨rfl, .inl rfl, fun c hc => ?_⟩
    rw [List.mem_singleton.mp hc]
    rfl
  · next hzero =>
    cases h
    refine ⟨List.takeWhile_append_dropWhile.symm, .inr ⟨fun hhead => ?_, hne⟩,
      fun c => isDigit_of_mem_takeWhile⟩
    rw [List.head?_takeWhile, Option.filter_eq_some_iff] at hhead
    obtain ⟨more, hmore⟩ := List.head?_eq_some_iff.mp hhead.1
    exact hzero more hmore

theorem fractionPart_spec {cs fraction : List Char} (h : fractionPart cs = (fraction, rest)) :
    (fraction = [] ∧ cs = rest ∨ fraction ≠ [] ∧ cs = '.' :: (fraction ++ rest)) ∧
      ∀ c ∈ fraction, c.isDigit = true := by
  unfold fractionPart at h
  split at h
  · next d more =>
    split at h
    · next hd =>
      cases h
      refine ⟨.inr ⟨?_, ?_⟩, fun c => isDigit_of_mem_takeWhile⟩
      · rw [List.takeWhile_cons_of_pos hd]
        exact List.cons_ne_nil _ _
      · rw [List.takeWhile_append_dropWhile]
    · cases h
      exact ⟨.inl ⟨rfl, rfl⟩, fun _ hc => absurd hc List.not_mem_nil⟩
  · cases h
    exact ⟨.inl ⟨rfl, rfl⟩, fun _ hc => absurd hc List.not_mem_nil⟩

theorem exists_power {mark : Char} (hmark : mark = 'e' ∨ mark = 'E') (sign : Option Bool)
    {ds : List Char} (hne : ds.takeWhile Char.isDigit ≠ []) :
    ∃ p : Power, p.text ++ ds.dropWhile Char.isDigit = mark :: (Power.signText sign ++ ds) ∧
      p.value = (if sign = some true then
          -(ofDigits ((ds.takeWhile Char.isDigit).filterMap asciiDigit?) : Int)
        else (ofDigits ((ds.takeWhile Char.isDigit).filterMap asciiDigit?) : Int)) := by
  refine ⟨⟨mark, sign, ds.takeWhile Char.isDigit, hmark, hne, fun c => isDigit_of_mem_takeWhile⟩,
    ?_, rfl⟩
  simp [Power.text, List.takeWhile_append_dropWhile]

theorem exponentPart_spec {cs : List Char} {exponent : Option Int}
    (h : exponentPart cs = (exponent, rest)) :
    ∃ power : Option Power, exponent = power.map Power.value ∧
      cs = (power.map Power.text).getD [] ++ rest := by
  unfold exponentPart at h
  split at h
  · next e more =>
    split at h
    · next he =>
      split at h
      next negative ds hsplit =>
      have hsign : ∃ sign, more = Power.signText sign ++ ds ∧
          negative = decide (sign = some true) := by
        split at hsplit <;> cases hsplit
        · exact ⟨some true, rfl, rfl⟩
        · exact ⟨some false, rfl, rfl⟩
        · exact ⟨none, rfl, rfl⟩
      obtain ⟨sign, rfl, rfl⟩ := hsign
      split at h
      · cases h
        exact ⟨none, rfl, rfl⟩
      · next hne =>
        cases h
        obtain ⟨p, htext, hvalue⟩ := exists_power he sign hne
        exact ⟨some p, by simp [hvalue], htext.symm⟩
    · cases h
      exact ⟨none, rfl, rfl⟩
  · cases h
    exact ⟨none, rfl, rfl⟩

theorem exists_numeral {start body : List Char} {negative : Bool} {j : Json}
    (h : readMagnitude negative start body = .ok (j, rest)) :
    ∃ n : Numeral, (if negative then ['-'] else []) ++ body = n.text ++ rest ∧ n.json = j := by
  unfold readMagnitude at h
  split at h
  · cases h
  next whole afterWhole hne hwhole =>
  obtain ⟨rfl, hok, hdigits⟩ := wholePart_spec hwhole hne
  rcases hfraction : fractionPart afterWhole with ⟨fraction, afterFraction⟩
  obtain ⟨hafter, hfractionDigits⟩ := fractionPart_spec hfraction
  rcases hexponent : exponentPart afterFraction with ⟨exponent, after⟩
  obtain ⟨power, rfl, rfl⟩ := exponentPart_spec hexponent
  rw [hfraction] at h
  dsimp only at h
  rw [hexponent] at h
  dsimp only at h
  have hshort : fraction = [] → power = none → whole.length ≤ integerLimit := by
    rintro rfl rfl
    simp only [Option.map_none] at h
    split at h
    · cases h
    · next hlength => exact Nat.not_lt.mp hlength
  let n : Numeral := ⟨negative, whole, fraction, power, hok, hdigits, hfractionDigits, hshort⟩
  have hread : (Except.ok (n.json, after) : Result Json) = .ok (j, rest) := by
    rw [← h]
    rcases fraction with _ | ⟨d, ds⟩
    · rcases power with _ | p
      · exact (if_neg (Nat.not_lt.mpr (hshort rfl rfl))).symm
      · rfl
    · rfl
  have hpower : (power.map Power.text).getD [] = n.powerText := by cases power <;> rfl
  have htext : afterWhole = n.fractionText ++ (n.powerText ++ after) := by
    rw [← hpower]
    rcases hafter with ⟨rfl, rfl⟩ | ⟨hne, rfl⟩
    · rfl
    · obtain ⟨d, ds, rfl⟩ := List.exists_cons_of_ne_nil hne
      rfl
  cases hread
  refine ⟨n, ?_, rfl⟩
  rw [htext, Numeral.text]
  simp only [List.append_assoc, n]

theorem exists_numeral_of_readNumber {cs : List Char} {j : Json}
    (h : readNumber cs = .ok (j, rest)) : ∃ n : Numeral, cs = n.text ++ rest ∧ n.json = j := by
  by_cases hsign : cs.head? = some '-'
  · obtain ⟨body, rfl⟩ := List.head?_eq_some_iff.mp hsign
    exact exists_numeral (readNumber_minus body ▸ h)
  · rw [readNumber_of_ne hsign] at h
    exact exists_numeral h

theorem Numeral.quote_not_mem (n : Numeral) : '"' ∉ n.text := fun h =>
  ne_of_isNumeral (n.isNumeral_of_mem h) rfl rfl

theorem Numeral.backslash_not_mem (n : Numeral) : '\\' ∉ n.text := fun h =>
  ne_of_isNumeral (n.isNumeral_of_mem h) rfl rfl

/-! ### Words -/

/-- What is read as a word or a number is written as one, without quotation marks and
backslashes. -/
theorem exists_scalar {cs : List Char} {j : Json} (h : readScalar cs = .ok (j, rest)) :
    ∃ v : Written, cs = v.chars ++ rest ∧ v.json = j ∧ v.depth = 0 ∧ '"' ∉ v.chars ∧
      '\\' ∉ v.chars := by
  unfold readScalar at h
  split at h
  · next word v hfind =>
    cases h
    have hwritten : ∃ w : Written, w.chars = word.toList ∧ w.json = j ∧ w.depth = 0 ∧
        '"' ∉ w.chars ∧ '\\' ∉ w.chars := by
      have hmem := List.mem_of_find?_eq_some hfind
      simp only [words, List.mem_cons, Prod.mk.injEq, Except.ok.injEq, reduceCtorEq, and_false,
        List.not_mem_nil, or_false] at hmem
      rcases hmem with ⟨rfl, rfl⟩ | ⟨rfl, rfl⟩ | ⟨rfl, rfl⟩
      · exact ⟨.null, rfl, rfl, rfl, by decide, by decide⟩
      · exact ⟨.bool true, rfl, rfl, rfl, by decide, by decide⟩
      · exact ⟨.bool false, rfl, rfl, rfl, by decide, by decide⟩
    have hword := List.find?_some hfind
    obtain ⟨after, rfl⟩ := List.isPrefixOf_iff_prefix.mp hword
    obtain ⟨w, hchars, hjson, hdepth, hplain⟩ := hwritten
    rw [List.drop_left' String.length_toList]
    exact ⟨w, by rw [hchars], hjson, hdepth, hplain⟩
  · cases h
  · obtain ⟨n, rfl, rfl⟩ := exists_numeral_of_readNumber h
    exact ⟨.number n, rfl, rfl, rfl, n.quote_not_mem, n.backslash_not_mem⟩

theorem exists_written_of_readScalar {cs : List Char} {j : Json}
    (h : readScalar cs = .ok (j, rest)) (hfree : noUnicodeEscape false cs = true) :
    ∃ v : Written, cs = v.chars ++ rest ∧ v.json = j ∧ v.depth = 0 ∧
      noUnicodeEscape false rest = true := by
  obtain ⟨v, rfl, hjson, hdepth, hquote, -⟩ := exists_scalar h
  rw [noUnicodeEscape_append hquote] at hfree
  exact ⟨v, rfl, hjson, hdepth, hfree⟩

/-! ### Values -/

theorem exists_gap (cs : List Char) : ∃ g : Gap, cs = g.chars ++ skipSpace cs :=
  ⟨⟨cs.takeWhile isSpace, fun _ => List.all_eq_true.mp List.all_takeWhile _⟩,
    List.takeWhile_append_dropWhile.symm⟩

theorem noUnicodeEscape_gap (g : Gap) :
    noUnicodeEscape false (g.chars ++ rest) = noUnicodeEscape false rest :=
  noUnicodeEscape_append fun h => ne_quote_of_isSpace (g.blank _ h) rfl

/-- Parts begin with a label and a value. -/
theorem exists_label {keyed : Bool} {fuel depth : Nat} {cs : List Char}
    {parts : List (String × Json)} (h : readParts keyed fuel depth cs = .ok (parts, rest))
    (hfree : noUnicodeEscape false cs = true) :
    ∃ more, fuel = more + 1 ∧ ∃ (label : Label keyed) (body after : List Char) (value : Json),
      cs = label.text ++ body ∧ noUnicodeEscape false body = true ∧
      readValue more depth body = .ok (value, after) ∧
      readAfter keyed more depth (label.name, value) (skipSpace after) = .ok (parts, rest) := by
  obtain _ | fuel := fuel
  · cases keyed <;> cases h
  refine ⟨fuel, rfl, ?_⟩
  cases keyed with
  | false =>
    obtain ⟨value, after, hvalue, hafter⟩ := exists_item h
    exact ⟨.none, cs, after, value, rfl, hfree, hvalue, hafter⟩
  | true =>
    obtain ⟨key, afterKey, afterColon, value, after, hquote, hkey, hcolon, hvalue, hafter⟩ :=
      exists_entry h
    obtain ⟨tail, rfl⟩ := List.head?_eq_some_iff.mp hquote
    obtain ⟨pieces, htext, rfl, hfree⟩ := exists_quotedText hkey hfree
    obtain ⟨before, hbefore⟩ := exists_gap afterKey
    obtain ⟨gap, hgap⟩ := exists_gap afterColon
    have hlabel : afterKey = before.chars ++ ':' :: (gap.chars ++ skipSpace afterColon) := by
      rw [← hgap, ← hcolon]
      exact hbefore
    have htail : '"' :: tail = (Label.key pieces before gap).text ++ skipSpace afterColon := by
      rw [htext, hlabel]
      simp [Label.text]
    have hbody : noUnicodeEscape false (skipSpace afterColon) = true := by
      rwa [hlabel, noUnicodeEscape_gap, noUnicodeEscape_cons, decide_eq_false (by decide),
        noUnicodeEscape_gap] at hfree
    exact ⟨.key pieces before gap, _, after, value, htail, hbody, hvalue, hafter⟩

theorem readAfter_eq_ok {keyed : Bool} {fuel depth : Nat} {part : String × Json} {cs : List Char}
    {parts : List (String × Json)} (h : readAfter keyed fuel depth part cs = .ok (parts, rest)) :
    (cs = closeBracket keyed :: rest ∧ parts = [part]) ∨
      ∃ body others, cs = ',' :: body ∧ parts = part :: others ∧
        readParts keyed fuel depth (skipSpace body) = .ok (others, rest) := by
  rcases cs with _ | ⟨c, cs⟩
  · cases h
  rw [readAfter] at h
  split at h
  · next hclose =>
    cases h
    exact .inl ⟨hclose ▸ rfl, rfl⟩
  · split at h
    · next hcomma =>
      obtain ⟨⟨others, after⟩, hothers, heq⟩ := Outcome.map_eq_ok.mp h
      cases heq
      exact .inr ⟨cs, others, hcomma ▸ rfl, rfl, hothers⟩
    · cases h

theorem noUnicodeEscape_skipSpace {cs : List Char} (h : noUnicodeEscape false cs = true) :
    noUnicodeEscape false (skipSpace cs) = true := by
  obtain ⟨g, hg⟩ := exists_gap cs
  rwa [hg, noUnicodeEscape_gap] at h

theorem noUnicodeEscape_tail {c : Char} {cs : List Char} (hc : c ≠ '"')
    (h : noUnicodeEscape false (c :: cs) = true) : noUnicodeEscape false cs = true := by
  rwa [noUnicodeEscape_cons, decide_eq_false hc] at h

theorem closeBracket_ne_quote (keyed : Bool) : closeBracket keyed ≠ '"' := by
  cases keyed <;> decide

theorem openBracket_ne_quote (keyed : Bool) : openBracket keyed ≠ '"' := by
  cases keyed <;> decide

/-- Whatever is read as a value in so many steps is written as one. -/
def ValueParses (fuel : Nat) : Prop :=
  ∀ {depth : Nat} {cs rest : List Char} {j : Json}, readValue fuel depth cs = .ok (j, rest) →
    noUnicodeEscape false cs = true →
    ∃ v : Written, cs = v.chars ++ rest ∧ v.json = j ∧ v.depth ≤ depth ∧
      noUnicodeEscape false rest = true

/-- Whatever is read as parts in so many steps is written as such. -/
def PartsParse (fuel : Nat) : Prop :=
  ∀ {keyed : Bool} {depth : Nat} {cs rest : List Char} {js : List (String × Json)},
    readParts keyed fuel depth cs = .ok (js, rest) → noUnicodeEscape false cs = true →
    ∃ p : Parts keyed, cs = p.chars ++ rest ∧ p.json = js ∧ p.depth ≤ depth ∧
      noUnicodeEscape false rest = true

theorem valueParses_succ {fuel : Nat} (hparts : PartsParse fuel) : ValueParses (fuel + 1) := by
  intro depth cs rest j h hfree
  cases readValue_eq_ok.mp h with
  | @empty depth inside _ keyed closed =>
    have hinside := noUnicodeEscape_tail (openBracket_ne_quote keyed) hfree
    have hrest := noUnicodeEscape_skipSpace hinside
    obtain ⟨g, hg⟩ := exists_gap inside
    rw [closed] at hg hrest
    refine ⟨.empty keyed g, ?_, rfl, Nat.le_add_left 1 depth,
      noUnicodeEscape_tail (closeBracket_ne_quote keyed) hrest⟩
    rw [hg]
    simp [Written.chars]
  | @container depth inside _ js keyed _ read =>
    have hinside := noUnicodeEscape_tail (openBracket_ne_quote keyed) hfree
    obtain ⟨g, hg⟩ := exists_gap inside
    obtain ⟨p, hp, rfl, hdepth, hrest⟩ := hparts read (noUnicodeEscape_skipSpace hinside)
    refine ⟨.container keyed g p, ?_, rfl, Nat.succ_le_succ hdepth, hrest⟩
    rw [hg, hp]
    simp [Written.chars]
  | string read =>
    obtain ⟨pieces, htext, rfl, hrest⟩ := exists_quotedText read hfree
    exact ⟨.text pieces, htext, rfl, Nat.zero_le depth, hrest⟩
  | scalar _ _ read =>
    obtain ⟨v, htext, rfl, hdepth, hrest⟩ := exists_written_of_readScalar read hfree
    exact ⟨v, htext, rfl, hdepth ▸ Nat.zero_le depth, hrest⟩

theorem partsParse_succ {fuel : Nat} (hvalue : ValueParses fuel) (hparts : PartsParse fuel) :
    PartsParse (fuel + 1) := by
  intro keyed depth cs rest js h hfree
  obtain ⟨more, hmore, label, body, after, value, rfl, hbody, hread, hafter⟩ :=
    exists_label h hfree
  cases hmore
  obtain ⟨v, rfl, rfl, hdepth, hfree⟩ := hvalue hread hbody
  obtain ⟨g, hg⟩ := exists_gap after
  have hfree := noUnicodeEscape_skipSpace hfree
  rcases readAfter_eq_ok hafter with ⟨hclose, rfl⟩ | ⟨tail, others, hcomma, rfl, hothers⟩
  · rw [hclose] at hg hfree
    refine ⟨.last label v g, ?_, rfl, hdepth,
      noUnicodeEscape_tail (closeBracket_ne_quote keyed) hfree⟩
    rw [hg]
    simp [Parts.chars]
  · rw [hcomma] at hg hfree
    obtain ⟨before, hbefore⟩ := exists_gap tail
    have htail := noUnicodeEscape_tail (by decide) hfree
    obtain ⟨p, hp, rfl, hothersDepth, hrest⟩ := hparts hothers (noUnicodeEscape_skipSpace htail)
    refine ⟨.more label v g before p, ?_, rfl, Nat.max_le.mpr ⟨hdepth, hothersDepth⟩, hrest⟩
    rw [hg, hbefore, hp]
    simp [Parts.chars]

theorem parses (fuel : Nat) : ValueParses fuel ∧ PartsParse fuel := by
  induction fuel with
  | zero =>
    refine ⟨fun h => (by cases h), fun {keyed} _ _ _ _ h => ?_⟩
    cases keyed <;> cases h
  | succ fuel ih => exact ⟨valueParses_succ ih.2, partsParse_succ ih.1 ih.2⟩

/-- What is read of a text is a value with nothing but blanks around it. -/
theorem exists_readValue {cs : List Char} {j : Json} (h : read cs = .ok j) :
    ∃ rest, readValue (fuelFor (skipSpace cs)) nestingLimit (skipSpace cs) = .ok (j, rest) ∧
      skipSpace rest = [] := by
  rw [read] at h
  split at h
  · cases h
  rw [readWhole] at h
  split at h
  · cases h
  next value rest hread =>
  split at h
  · next hend =>
    cases h
    exact ⟨rest, hread, hend⟩
  · cases h

/-- A text that is read is the text of a document. -/
theorem exists_document {cs : List Char} {j : Json} (h : read cs = .ok j)
    (hfree : noUnicodeEscape false cs = true) :
    ∃ d : Document, d.chars = cs ∧ d.value.json = j ∧ d.value.depth ≤ nestingLimit := by
  obtain ⟨rest, hvalue, hend⟩ := exists_readValue h
  obtain ⟨v, hv, rfl, hdepth, -⟩ := (parses _).1 hvalue (noUnicodeEscape_skipSpace hfree)
  obtain ⟨before, hbefore⟩ := exists_gap cs
  obtain ⟨after, hafter⟩ := exists_gap rest
  refine ⟨⟨before, v, after⟩, ?_, rfl, hdepth⟩
  rw [hend, List.append_nil] at hafter
  rw [Document.chars, ← hafter, ← hv]
  exact hbefore.symm

end StructuredOutput.Json

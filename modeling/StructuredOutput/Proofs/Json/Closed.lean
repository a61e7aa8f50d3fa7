import StructuredOutput.Proofs.Json.Budget

/-!
Reading a printed text that is cut off anywhere and closed by a quotation mark and brackets: a
string is read as its beginning, and nothing can follow a value that would go on with it.
-/

namespace StructuredOutput.Json

open Text

variable {rest : List Char}

/-- Closing brackets only. -/
def Brackets (cs : List Char) : Prop := ∀ c ∈ cs, ∃ keyed, c = closeBracket keyed

/-- What closes a text: the quotation mark of an open string, if there is one, and brackets. -/
inductive ClosingMarks : List Char → Prop
  | brackets {cs : List Char} (h : Brackets cs) : ClosingMarks cs
  | quote {cs : List Char} (h : Brackets cs) : ClosingMarks ('"' :: cs)

/-- Whether a text has neither commas nor blanks. -/
def Bare (cs : List Char) : Prop := ∀ c ∈ cs, c ≠ ',' ∧ isSpace c = false

instance : DecidablePred Bare := fun cs =>
  List.decidableBAll (fun c => c ≠ ',' ∧ isSpace c = false) cs

/-- A text that begins two others put together is cut off in the first or goes on to the second. -/
theorem prefix_append_cases {kept cs ds : List Char} (h : kept <+: cs ++ ds) :
    (kept <+: cs ∧ kept ≠ cs) ∨ ∃ more, kept = cs ++ more ∧ more <+: ds := by
  rcases List.prefix_or_prefix_of_prefix h (List.prefix_append cs ds) with hkept | ⟨more, rfl⟩
  · by_cases heq : kept = cs
    · exact .inr ⟨[], by simp [heq], List.nil_prefix⟩
    · exact .inl ⟨hkept, heq⟩
  · exact .inr ⟨more, rfl, (List.prefix_append_right_inj cs).mp h⟩

/-! ### What closes a text -/

theorem Brackets.of_cons {c : Char} {cs : List Char} (h : Brackets (c :: cs)) :
    (∃ keyed, c = closeBracket keyed) ∧ Brackets cs :=
  List.forall_mem_cons.mp h

theorem Brackets.not_mem {cs : List Char} (h : Brackets cs) {c : Char}
    (hc : ∀ keyed, c ≠ closeBracket keyed) : c ∉ cs := fun hmem =>
  let ⟨keyed, heq⟩ := h c hmem
  hc keyed heq

theorem Brackets.bare {cs : List Char} (h : Brackets cs) : Bare cs := by
  intro c hc
  obtain ⟨keyed, rfl⟩ := h c hc
  cases keyed <;> exact ⟨by decide, rfl⟩

theorem ClosingMarks.bare {cs : List Char} (h : ClosingMarks cs) : Bare cs := by
  cases h with
  | brackets h => exact h.bare
  | quote h => exact List.forall_mem_cons.mpr ⟨⟨by decide, rfl⟩, h.bare⟩

theorem Brackets.of_prefix {cs ds : List Char} (h : Brackets ds) (hcs : cs <+: ds) : Brackets cs :=
  fun c hc => h c (hcs.subset hc)

theorem ClosingMarks.of_prefix {cs ds : List Char} (h : ClosingMarks ds) (hcs : cs <+: ds) :
    ClosingMarks cs := by
  cases h with
  | brackets h => exact .brackets (h.of_prefix hcs)
  | quote h =>
    cases cs with
    | nil => exact .brackets fun c hc => absurd hc List.not_mem_nil
    | cons c cs =>
      obtain ⟨rfl, htail⟩ := List.cons_prefix_cons.mp hcs
      exact .quote (h.of_prefix htail)

theorem ClosingMarks.append {cs ds : List Char} (h : ClosingMarks cs) (hds : Brackets ds) :
    ClosingMarks (cs ++ ds) := by
  cases h with
  | brackets h => exact .brackets (List.forall_mem_append.mpr ⟨h, hds⟩)
  | quote h => exact .quote (List.forall_mem_append.mpr ⟨h, hds⟩)

theorem Bare.stops {cs : List Char} (h : Bare cs) : Stops isSpace cs := by
  intro c hc
  exact (h c (List.mem_of_mem_head? hc)).2

theorem Bare.of_append {cs ds : List Char} (h : Bare (cs ++ ds)) : Bare ds := fun c hc =>
  h c (List.mem_append_right cs hc)

/-- The first character of what closes a text. -/
theorem ClosingMarks.head_cases {c : Char} {cs : List Char} (h : ClosingMarks (c :: cs)) :
    (c = '"' ∨ ∃ keyed, c = closeBracket keyed) ∧ Brackets cs := by
  cases h with
  | brackets h => exact ⟨.inr h.of_cons.1, h.of_cons.2⟩
  | quote h => exact ⟨.inl rfl, h⟩

theorem ClosingMarks.ne_head {c d : Char} {cs : List Char} (h : ClosingMarks (c :: cs))
    (hquote : d ≠ '"') (hbracket : ∀ keyed, d ≠ closeBracket keyed) : d ≠ c := by
  rintro rfl
  rcases h.head_cases.1 with rfl | ⟨keyed, rfl⟩
  · exact hquote rfl
  · exact hbracket keyed rfl

theorem ClosingMarks.stops {cs : List Char} (h : ClosingMarks cs) : Stops continuesNumber cs := by
  cases cs with
  | nil => exact stops_nil _
  | cons c cs =>
    apply stops_cons
    rcases h.head_cases.1 with rfl | ⟨keyed, rfl⟩
    · rfl
    · cases keyed <;> rfl

/-! ### Strings -/

theorem mem_of_takes {cs after : List Char} {c d : Char} (h : Takes cs c after) (hd : d ∈ after) :
    d ∈ cs := by
  have hunit {more after : List Char} {n : Nat} (h : unicodeUnit? more = some (n, after))
      (hd : d ∈ after) : d ∈ more := by
    unfold unicodeUnit? at h
    split at h
    · obtain ⟨n, -, heq⟩ := Option.map_eq_some_iff.mp h
      cases heq
      simp_all
    · cases h
  cases h with
  | plain => exact List.mem_cons_of_mem _ hd
  | escape => exact List.mem_cons_of_mem _ (List.mem_cons_of_mem _ hd)
  | unit h => exact List.mem_cons_of_mem _ (List.mem_cons_of_mem _ (hunit h hd))
  | pair h h' =>
    have hafter := List.mem_cons_of_mem '\\' (List.mem_cons_of_mem 'u' (hunit h' hd))
    exact List.mem_cons_of_mem _ (List.mem_cons_of_mem _ (hunit h hafter))

/-- A string that is read ends in a quotation mark. -/
theorem quote_mem_of_stringBody {start : List Char} {fuel : Nat} {cs chars : List Char}
    (h : stringBody start fuel cs = .ok (chars, rest)) : '"' ∈ cs := by
  induction fuel generalizing cs chars with
  | zero => cases h
  | succ fuel ih =>
    rcases stringBody_eq_ok h with ⟨rfl, -⟩ | ⟨c, after, more, htakes, hmore, -⟩
    · exact List.mem_cons_self
    · exact mem_of_takes htakes (ih hmore)

theorem Brackets.stringBody_ne_ok {cs : List Char} (h : Brackets cs) (start : List Char)
    (fuel : Nat) (r : List Char × List Char) : stringBody start fuel cs ≠ .ok r := fun hread =>
  h.not_mem (by decide) (quote_mem_of_stringBody hread)

/-- What closes a text ends a string at once. -/
theorem ClosingMarks.stringBody_eq_ok {closing : List Char} (h : ClosingMarks closing)
    {start : List Char}
    {fuel : Nat} {chars : List Char} (hread : stringBody start fuel closing = .ok (chars, rest)) :
    chars = [] ∧ Brackets rest := by
  cases h with
  | brackets h => exact absurd hread (h.stringBody_ne_ok _ _ _)
  | quote h =>
    obtain _ | fuel := fuel
    · cases hread
    · rw [stringBody_quote] at hread
      cases hread
      exact ⟨rfl, h⟩

theorem hexDigit?_quote : hexDigit? '"' = none := by decide

theorem hexDigit?_closeBracket (keyed : Bool) : hexDigit? (closeBracket keyed) = none := by
  cases keyed <;> decide

/-- The four digits of an escape that is cut off are not all there. -/
theorem ClosingMarks.unicodeUnit?_eq_none {closing digits : List Char} (h : ClosingMarks closing)
    (hdigits : digits.length < 4) : unicodeUnit? (digits ++ closing) = none := by
  cases closing with
  | nil =>
    rw [List.append_nil]
    match digits, hdigits with
    | [], _ | [_], _ | [_, _], _ | [_, _, _], _ => rfl
  | cons m marks =>
    have hmark : hexDigit? m = none := by
      rcases h.head_cases.1 with rfl | ⟨keyed, rfl⟩
      · exact hexDigit?_quote
      · exact hexDigit?_closeBracket keyed
    unfold unicodeUnit?
    split
    · next a b c d e more heq =>
      have hnone : hexUnit? a b c d = none := by
        match digits, hdigits with
        | [], _ => simp_all [hexUnit?]
        | [_], _ => simp_all [hexUnit?]
        | [_, _], _ => simp_all [hexUnit?]
        | [_, _, _], _ => simp_all [hexUnit?]
      rw [hnone]
      rfl
    · rfl

/-- No string is read of a text that is cut off inside the escape of a character. -/
theorem WritesChar.stringBody_ne_ok {p kept closing : List Char} {c : Char} (h : WritesChar p c)
    (hkept : kept <+: p) (hcut : kept ≠ p) (hne : kept ≠ []) (hclosing : ClosingMarks closing)
    (start : List Char) (fuel : Nat) (r : List Char × List Char) :
    stringBody start fuel (kept ++ closing) ≠ .ok r := by
  intro hread
  obtain _ | fuel := fuel
  · cases hread
  -- what is left of an escape is its backslash, or `\u` and some of its digits
  have hescape : ∃ more, kept = '\\' :: more ∧
      (more = [] ∨ ∃ digits, more = 'u' :: digits ∧ digits.length < 4) := by
    have hlength := hkept.length_le
    have hshort : kept.length ≠ p.length := fun heq => hcut (hkept.eq_of_length heq)
    obtain ⟨k, more, rfl⟩ := List.exists_cons_of_ne_nil hne
    cases h with
    | plain =>
      simp only [List.length_cons, List.length_nil] at hlength hshort
      omega
    | escape =>
      obtain ⟨rfl, hmore⟩ := List.cons_prefix_cons.mp hkept
      simp only [List.length_cons, List.length_nil] at hlength hshort
      exact ⟨more, rfl, .inl (List.length_eq_zero_iff.mp (by omega))⟩
    | unit =>
      obtain ⟨rfl, hmore⟩ := List.cons_prefix_cons.mp hkept
      refine ⟨more, rfl, ?_⟩
      cases more with
      | nil => exact .inl rfl
      | cons u digits =>
        obtain ⟨rfl, -⟩ := List.cons_prefix_cons.mp hmore
        simp only [List.length_cons, List.length_nil] at hlength hshort
        exact .inr ⟨digits, rfl, by omega⟩
  obtain ⟨more, rfl, hmore⟩ := hescape
  rcases stringBody_eq_ok hread with ⟨heq, -⟩ | ⟨d, after, chars, htakes, hafter, -⟩
  · cases heq
  rcases hmore with rfl | ⟨digits, rfl, hdigits⟩
  · -- the backslash takes the quotation mark, and nothing ends the string
    cases htakes with
    | plain quotable => exact quotable.2.1 rfl
    | escape stands => exact hclosing.head_cases.2.stringBody_ne_ok _ _ _ hafter
    | unit | pair => exact hclosing.ne_head (by decide) (by decide) rfl
  · have hnone := hclosing.unicodeUnit?_eq_none hdigits
    cases htakes with
    | plain quotable => exact quotable.2.1 rfl
    | escape stands => exact ne_of_escaped? stands rfl
    | unit hunit => cases hnone.symm.trans hunit
    | pair hunit => cases hnone.symm.trans hunit

/-- No string is read of a text that ends in a character. -/
theorem WritesChar.stringBody_end_ne_ok {p : List Char} {c : Char} (h : WritesChar p c)
    (start : List Char) (fuel : Nat) (r : List Char × List Char) :
    stringBody start fuel p ≠ .ok r := by
  intro hread
  have hend {fuel : Nat} {r : List Char × List Char} : stringBody start fuel [] ≠ .ok r :=
    Brackets.stringBody_ne_ok (fun _ hc => absurd hc List.not_mem_nil) start fuel r
  obtain _ | fuel := fuel
  · cases hread
  cases h with
  | plain quotable =>
    rw [stringBody_plain start fuel quotable] at hread
    obtain ⟨_, hnil, -⟩ := Outcome.map_eq_ok.mp hread
    exact hend hnil
  | escape stands =>
    rw [stringBody_escape start fuel stands] at hread
    obtain ⟨_, hnil, -⟩ := Outcome.map_eq_ok.mp hread
    exact hend hnil
  | unit =>
    rcases stringBody_eq_ok hread with ⟨heq, -⟩ | ⟨d, after, chars, htakes, -, -⟩
    · cases heq
    · cases htakes with
      | plain quotable => exact quotable.2.1 rfl
      | escape stands => exact ne_of_escaped? stands rfl
      | unit hunit => cases hunit
      | pair hunit => cases hunit

/-- Of a string that is cut off and closed its first characters are read. -/
theorem stringBody_cut {start : List Char} {fuel : Nat} {cs kept closing chars : List Char}
    (hkept : kept <+: cs.flatMap (escapedChar false)) (hclosing : ClosingMarks closing)
    (h : stringBody start fuel (kept ++ closing) = .ok (chars, rest)) :
    chars <+: cs ∧ Brackets rest := by
  induction cs generalizing fuel kept chars with
  | nil =>
    obtain rfl := List.prefix_nil.mp hkept
    obtain ⟨rfl, hrest⟩ := hclosing.stringBody_eq_ok h
    exact ⟨List.prefix_rfl, hrest⟩
  | cons c cs ih =>
    have hwrites := writesChar_escapedChar c
    rw [List.flatMap_cons] at hkept
    rcases prefix_append_cases hkept with ⟨hkept, hcut⟩ | ⟨more, rfl, hmore⟩
    · by_cases hne : kept = []
      · subst hne
        obtain ⟨rfl, hrest⟩ := hclosing.stringBody_eq_ok h
        exact ⟨List.nil_prefix, hrest⟩
      · exact absurd h (hwrites.stringBody_ne_ok hkept hcut hne hclosing _ _ _)
    · obtain _ | fuel := fuel
      · cases h
      rw [List.append_assoc] at h
      by_cases hnil : more ++ closing = []
      · rw [hnil, List.append_nil] at h
        exact absurd h (hwrites.stringBody_end_ne_ok _ _ _)
      · rw [stringBody_char start fuel hwrites hnil] at h
        obtain ⟨⟨others, after⟩, hothers, heq⟩ := Outcome.map_eq_ok.mp h
        cases heq
        obtain ⟨hbegins, hrest⟩ := ih hmore hothers
        exact ⟨List.cons_prefix_cons.mpr ⟨rfl, hbegins⟩, hrest⟩

/-- Of a printed string that is cut off and closed its first characters are read. -/
theorem readString_cut {t s : String} {kept closing : List Char}
    (hkept : kept <+: stringText false t.toList) (hcut : kept ≠ stringText false t.toList)
    (hne : kept ≠ []) (hclosing : ClosingMarks closing)
    (h : readString (kept ++ closing) = .ok (s, rest)) : s.toList <+: t.toList ∧ Brackets rest := by
  obtain ⟨c, inside, rfl⟩ := List.exists_cons_of_ne_nil hne
  rw [stringText, List.cons_append] at hkept hcut
  obtain ⟨rfl, hinside⟩ := List.cons_prefix_cons.mp hkept
  rcases List.prefix_concat_iff.mp hinside with rfl | hinside
  · exact absurd rfl hcut
  · obtain ⟨⟨chars, after⟩, hbody, heq⟩ := Outcome.map_eq_ok.mp h
    cases heq
    rw [String.toList_ofList]
    exact stringBody_cut hinside hclosing hbody

/-! ### Nothing to read -/

/-- What closes a text is no string. -/
theorem ClosingMarks.readString_ne_ok {closing : List Char} (h : ClosingMarks closing)
    (r : String × List Char) : readString closing ≠ .ok r := by
  intro hread
  obtain ⟨found, hbody, -⟩ := Outcome.map_eq_ok.mp hread
  have hbrackets : Brackets closing.tail := by
    cases h with
    | brackets h => exact fun c hc => h c (List.mem_of_mem_tail hc)
    | quote h => exact h
  exact hbrackets.stringBody_ne_ok _ _ _ hbody

/-- What closes a text is no value. -/
theorem ClosingMarks.readValue_ne_ok {closing : List Char} (h : ClosingMarks closing)
    (fuel depth : Nat) (r : Json × List Char) : readValue fuel depth closing ≠ .ok r := by
  intro hread
  obtain _ | fuel := fuel
  · cases hread
  rcases closing with _ | ⟨c, marks⟩
  · cases hread
  rcases h.head_cases.1 with rfl | ⟨keyed, rfl⟩
  · simp only [readValue] at hread
    obtain ⟨found, hstring, -⟩ := Outcome.map_eq_ok.mp hread
    exact h.readString_ne_ok _ hstring
  · rw [readValue_of_scalar fuel depth (by cases keyed <;> decide)
      (by cases keyed <;> decide)] at hread
    obtain ⟨v, htext, -⟩ := exists_scalar hread
    obtain ⟨d, ds, hchars, hd⟩ := v.exists_chars_cons
    rw [hchars] at htext
    exact ne_closeBracket_of_beginsValue hd keyed (List.cons.inj htext).1.symm

/-- What closes a text has no parts. -/
theorem ClosingMarks.readParts_ne_ok {closing : List Char} (h : ClosingMarks closing) (keyed : Bool)
    (fuel depth : Nat) (r : List (String × Json) × List Char) :
    readParts keyed fuel depth closing ≠ .ok r := by
  intro hread
  obtain _ | fuel := fuel
  · cases keyed <;> cases hread
  cases keyed with
  | false =>
    obtain ⟨value, after, hvalue, -⟩ := exists_item hread
    exact h.readValue_ne_ok _ _ _ hvalue
  | true =>
    obtain ⟨key, afterKey, -, -, -, -, hkey, -⟩ := exists_entry hread
    exact h.readString_ne_ok _ hkey

/-- No entry is read of a text that is cut off in a key or after it. -/
theorem readParts_key_ne_ok {key : String} {kept closing : List Char}
    (hkept : kept <+: stringText false key.toList) (hclosing : ClosingMarks closing)
    (fuel depth : Nat) (r : List (String × Json) × List Char) :
    readParts true fuel depth (kept ++ closing) ≠ .ok r := by
  intro hread
  by_cases hne : kept = []
  · subst hne
    exact hclosing.readParts_ne_ok _ _ _ _ hread
  obtain _ | fuel := fuel
  · cases hread
  obtain ⟨found, afterKey, afterColon, -, -, -, hstring, hcolon, -⟩ := exists_entry hread
  have hmarks : ClosingMarks afterKey := by
    by_cases hcut : kept = stringText false key.toList
    · rw [hcut, readString_stringText] at hstring
      cases hstring
      exact hclosing
    · exact .brackets (readString_cut hkept hcut hne hclosing hstring).2
  rw [skipSpace_of_stops hmarks.bare.stops] at hcolon
  subst hcolon
  exact hmarks.ne_head (by decide) (by decide) rfl

/-! ### Words and numbers -/

/-- Of a word or a number that is cut off and closed a word or a number is read, and null only if it
began like that. -/
theorem readValue_scalar_cut {fuel depth : Nat} {c : Char} {cs closing : List Char} {j : Json}
    (hquote : c ≠ '"') (hbracket : ∀ keyed, c ≠ openBracket keyed)
    (hbare : Bare (c :: cs)) (hclosing : ClosingMarks closing)
    (h : readValue fuel depth (c :: cs ++ closing) = .ok (j, rest)) :
    Bare rest ∧ (j = .null ∧ c = 'n' ∨ (∃ b, j = .bool b) ∨ ∃ x : Numeral, j = x.json) := by
  obtain _ | fuel := fuel
  · cases h
  rw [List.cons_append, readValue_of_scalar fuel depth hquote hbracket] at h
  obtain ⟨v, htext, rfl, hdepth, hplain, -⟩ := exists_scalar h
  have hall : Bare (v.chars ++ rest) := by
    rw [← htext, ← List.cons_append]
    intro d hd
    exact (List.mem_append.mp hd).elim (hbare d) (hclosing.bare d)
  refine ⟨hall.of_append, ?_⟩
  cases v with
  | null => exact .inl ⟨rfl, (List.cons.inj htext).1⟩
  | bool b => exact .inr (.inl ⟨b, rfl⟩)
  | number x => exact .inr (.inr ⟨x, rfl⟩)
  | text pieces => exact absurd List.mem_cons_self hplain
  | empty | container => simp [Written.depth] at hdepth

end StructuredOutput.Json

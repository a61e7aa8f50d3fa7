import StructuredOutput.Content.Parse
import StructuredOutput.Proofs.Content.Truncation
import StructuredOutput.Proofs.Grammar.Forms
import StructuredOutput.Proofs.Json.Marks
import StructuredOutput.Proofs.Json.Printed

/-!
Texts as a grammar has them are read as values, if their marks are readable: words, number literals,
strings, and arrays and objects with blanks around their parts.
-/

namespace StructuredOutput.Grammar

open Json

variable {good : Content → Prop} {cs rest : List Char} {spare : Nat} {keyed : Bool}

/-- A text is read as good content, whatever follows it that does not go on with a number, if the
marks are readable; then those of what follows are readable, too. -/
structure ReadsAs (good : Content → Prop) (cs : List Char) : Prop where
  begins : ∃ c more, cs = c :: more ∧ beginsValue c = true
  reads : ∀ spare rest, Stops isNumeral rest → Readable spare (marks (cs ++ rest)) →
    Readable spare (marks rest) ∧ ∃ j c, Content.ofJson j = .ok c ∧ good c ∧
      ∀ fuel, 2 * cs.length ≤ fuel → readValue fuel spare (cs ++ rest) = .ok (j, rest)

theorem stops_continuesNumber (h : Stops isNumeral rest) : Stops continuesNumber rest := by
  intro c hc
  have hall := h c hc
  simp only [isNumeral, Bool.or_eq_false_iff] at hall
  have hne (d : Char) (hd : ['-', '+', '.', 'e', 'E'].contains d = true) : c ≠ d := by
    rintro rfl
    cases hall.2.symm.trans hd
  simp [continuesNumber, hall.1, hne '.' rfl, hne 'e' rfl, hne 'E' rfl]

namespace ReadsAs

theorem imp {wide : Content → Prop} (h : ReadsAs good cs) (himp : ∀ c, good c → wide c) :
    ReadsAs wide cs where
  begins := h.begins
  reads := by
    intro spare rest hrest hread
    obtain ⟨hafter, j, c, hj, hc, hvalue⟩ := h.reads spare rest hrest hread
    exact ⟨hafter, j, c, hj, himp c hc, hvalue⟩

theorem stops (h : ReadsAs good cs) (rest : List Char) : Stops isSpace (cs ++ rest) := by
  obtain ⟨c, more, rfl, hc⟩ := h.begins
  exact stops_cons (isSpace_of_beginsValue hc)

/-! ### Words, numbers and strings -/

theorem word {j : Json} {c : Content} {first : Char} {more : List Char}
    (hfirst : first = 'n' ∨ first = 't' ∨ first = 'f')
    (hidle : (first :: more).all isIdle = true) (hj : Content.ofJson j = .ok c)
    (hscalar : ∀ rest, readScalar (first :: more ++ rest) = .ok (j, rest)) :
    ReadsAs (· = c) (first :: more) where
  begins := ⟨first, more, rfl, by rcases hfirst with rfl | rfl | rfl <;> rfl⟩
  reads := by
    intro spare rest _ hread
    rw [marks_idle (List.all_eq_true.mp hidle)] at hread
    refine ⟨hread, j, c, hj, rfl, fun fuel hfuel => ?_⟩
    obtain _ | fuel := fuel
    · cases hfuel
    · rw [← hscalar rest]
      rcases hfirst with rfl | rfl | rfl <;>
        exact readValue_of_scalar fuel spare (by decide) (by decide)

theorem null : ReadsAs (· = .null) "null".toList :=
  word (.inl rfl) rfl rfl fun _ => readScalar_null

theorem bool (b : Bool) : ReadsAs (· = .bool b) (boolText b) := by
  cases b with
  | false => exact word (.inr (.inr rfl)) rfl rfl (readScalar_bool false)
  | true => exact word (.inr (.inl rfl)) rfl rfl (readScalar_bool true)

theorem number (l : Literal) :
    ReadsAs (fun c => ∃ x, c = .number x ∧ (l.IsWhole → x.isIntegral = true)) l.text where
  begins := by
    obtain ⟨c, cs, htext, hc⟩ := l.exists_text_cons
    refine ⟨c, cs, htext, ?_⟩
    rcases hc with rfl | hc
    · rfl
    · simp [beginsValue, hc]
  reads := by
    intro spare rest hrest hread
    rw [marks_literal l hrest] at hread
    obtain ⟨⟨x, hx⟩, hafter⟩ := hread.number
    rw [l.nearest?_text, Option.some.injEq] at hx
    obtain ⟨n, y, htext, hy, hwhole⟩ := Literal.exists_numeral hx
    refine ⟨hafter, n.json, .number y, hy, ⟨y, rfl, hwhole⟩, fun fuel hfuel => ?_⟩
    rw [← htext] at hfuel ⊢
    obtain _ | fuel := fuel
    · obtain ⟨c, cs, hcons, -⟩ := n.exists_text_cons
      rw [hcons] at hfuel
      cases hfuel
    · exact n.readValue_text fuel spare (stops_continuesNumber hrest)

end ReadsAs

theorem quoted_append (parts : List (List Char)) (rest : List Char) :
    quoted parts ++ rest = '"' :: (parts.flatten ++ '"' :: rest) := by
  simp [quoted]

/-- The characters of a string are spelled, if its escapes are readable. -/
theorem exists_spelled {parts : List (List Char)} (each : ∀ p ∈ parts, CharText p)
    (hread : Readable spare (marksFrom .inside (parts.flatten ++ rest))) :
    ∃ chars, List.Forall₂ WritesChar parts chars := by
  induction parts with
  | nil => exact ⟨[], .nil⟩
  | cons p parts ih =>
    obtain ⟨hp, hparts⟩ := List.forall_mem_cons.mp each
    rw [List.flatten_cons, List.append_assoc] at hread
    obtain ⟨c, hc⟩ : ∃ c, WritesChar p c := by
      cases hp with
      | plain quotable => exact ⟨_, .plain quotable⟩
      | escape stands => exact ⟨_, .escape stands⟩
      | unit digits => exact ⟨_, .unit digits (marksFrom_unit digits _ ▸ hread).unit.1⟩
    obtain ⟨chars, hchars⟩ := ih hparts (hread.of_char hc)
    exact ⟨c :: chars, .cons hc hchars⟩

theorem readValue_spelled {parts : List (List Char)} {chars : List Char}
    (h : List.Forall₂ WritesChar parts chars) (fuel spare : Nat) (rest : List Char) :
    readValue (fuel + 1) spare (quoted parts ++ rest) =
      .ok (.string (String.ofList chars), rest) := by
  rw [quoted_append]
  exact readValue_quote fuel spare rfl (readString_spelled h rest)

theorem quoted_map (s : String) :
    stringText false s.toList = quoted (s.toList.map (escapedChar false)) := by
  rw [quoted, stringText, List.flatMap_def, List.cons_append]

namespace ReadsAs

theorem string {parts : List (List Char)} (each : ∀ p ∈ parts, CharText p) :
    ReadsAs (fun c => ∃ s, c = .string s ∧ s.length = parts.length) (quoted parts) where
  begins := ⟨'"', _, rfl, rfl⟩
  reads := by
    intro spare rest _ hread
    rw [quoted_append] at hread
    obtain ⟨chars, hchars⟩ := exists_spelled each (marks_quote _ ▸ hread)
    have hlength : (String.ofList chars).length = parts.length := by
      rw [String.length_ofList, hchars.length_eq]
    refine ⟨hread.of_spelled hchars, .string (String.ofList chars), _, rfl, ⟨_, rfl, hlength⟩,
      fun fuel hfuel => ?_⟩
    obtain _ | fuel := fuel
    · cases hfuel
    · exact readValue_spelled hchars fuel spare rest

theorem stringText (s : String) :
    ReadsAs (· = .string s) (Json.stringText false s.toList) where
  begins := ⟨'"', _, rfl, rfl⟩
  reads := by
    intro spare rest _ hread
    rw [quoted_map, quoted_append] at hread
    refine ⟨hread.of_spelled (writesChars s.toList), .string s, _, rfl, rfl, fun fuel hfuel => ?_⟩
    obtain _ | fuel := fuel
    · cases hfuel
    · rw [quoted_map, readValue_spelled (writesChars s.toList), String.ofList_toList]

end ReadsAs

/-! ### Parts of containers -/

/-- A text is read as a part of a container, up to what comes after the part. -/
structure ReadsPart (keyed : Bool) (good : String → Content → Prop) (cs : List Char) : Prop where
  begins : ∃ c more, cs = c :: more ∧ beginsValue c = true
  reads : ∀ spare rest, Stops isNumeral rest → Readable spare (marks (cs ++ rest)) →
    Readable spare (marks rest) ∧ ∃ name j c, Content.ofJson j = .ok c ∧ good name c ∧
      ∀ fuel, 2 * cs.length ≤ fuel → readParts keyed (fuel + 1) spare (cs ++ rest) =
        readAfter keyed fuel spare (name, j) (skipSpace rest)

theorem ReadsAs.item (h : ReadsAs good cs) : ReadsPart false (fun _ c => good c) cs where
  begins := h.begins
  reads := by
    intro spare rest hrest hread
    obtain ⟨hafter, j, c, hj, hc, hvalue⟩ := h.reads spare rest hrest hread
    exact ⟨hafter, "", j, c, hj, hc, fun fuel hfuel => readParts_item (hvalue fuel hfuel)⟩

theorem IsBlank.idle (h : IsBlank cs) : ∀ c ∈ cs, isIdle c = true := by
  intro c hc
  rcases h c hc with rfl | rfl | rfl <;> rfl

theorem IsBlank.skipSpace (h : IsBlank cs) (hrest : Stops isSpace rest) :
    skipSpace (cs ++ rest) = rest := by
  refine dropWhile_append (fun c hc => ?_) hrest
  rcases h c hc with rfl | rfl | rfl <;> rfl

theorem IsBlank.stops (h : IsBlank cs) (hrest : Stops isNumeral rest) :
    Stops isNumeral (cs ++ rest) := by
  cases cs with
  | nil => exact hrest
  | cons c cs =>
    refine stops_cons ?_
    rcases h c List.mem_cons_self with rfl | rfl | rfl <;> rfl

theorem ReadsAs.entry {before after body : List Char} (h : ReadsAs good body) (key : String)
    (hbefore : IsBlank before) (hafter : IsBlank after) :
    ReadsPart true (fun name c => name = key ∧ good c)
      (Json.stringText false key.toList ++ (before ++ ':' :: (after ++ body))) where
  begins := ⟨'"', _, rfl, rfl⟩
  reads := by
    intro spare rest hrest hread
    have htext : (Json.stringText false key.toList ++ (before ++ ':' :: (after ++ body))) ++ rest =
        Json.stringText false key.toList ++ (before ++ ':' :: (after ++ (body ++ rest))) := by
      simp
    rw [htext, quoted_map, quoted_append] at hread
    replace hread := hread.of_spelled (writesChars key.toList)
    rw [marks_idle hbefore.idle, marks_colon, marks_idle hafter.idle] at hread
    obtain ⟨hrest', j, c, hj, hc, hvalue⟩ := h.reads spare rest hrest hread
    refine ⟨hrest', key, j, c, hj, ⟨rfl, hc⟩, fun fuel hfuel => ?_⟩
    rw [htext]
    apply readParts_entry rfl
    · rw [readString_stringText, String.ofList_toList]
    · exact hbefore.skipSpace (stops_cons rfl)
    · rw [hafter.skipSpace (h.stops rest)]
      refine hvalue fuel (Nat.le_trans (Nat.mul_le_mul_left 2 ?_) hfuel)
      simp only [List.length_append, List.length_cons]
      omega

/-! ### Containers -/

/-- What is good of each part holds of the entries in order. -/
abbrev Fulfils (goods : List (String → Content → Prop)) (entries : List (String × Content)) :
    Prop :=
  List.Forall₂ (fun good e => good e.1 e.2) goods entries

theorem ReadsPart.stops {good : String → Content → Prop} (h : ReadsPart keyed good cs)
    (rest : List Char) : Stops isSpace (cs ++ rest) := by
  obtain ⟨c, more, rfl, hc⟩ := h.begins
  exact stops_cons (isSpace_of_beginsValue hc)

theorem Listing.begins {parts : List (List Char)} (h : Listing parts cs)
    {goods : List (String → Content → Prop)} (heach : List.Forall₂ (ReadsPart keyed) goods parts) :
    ∃ c more, cs = c :: more ∧ beginsValue c = true := by
  cases h with
  | last part blank =>
    cases heach with
    | cons hpart =>
      obtain ⟨c, more, rfl, hc⟩ := hpart.begins
      exact ⟨c, _, rfl, hc⟩
  | more part before_blank after_blank others =>
    cases heach with
    | cons hpart =>
      obtain ⟨c, more, rfl, hc⟩ := hpart.begins
      exact ⟨c, _, rfl, hc⟩

/-- The parts of a container are read up to its closing bracket. -/
theorem readParts_listing {parts : List (List Char)} (hlisting : Listing parts cs)
    {goods : List (String → Content → Prop)} (heach : List.Forall₂ (ReadsPart keyed) goods parts)
    (hread : Readable spare (marks (cs ++ closeBracket keyed :: rest))) :
    Readable (spare + 1) (marks rest) ∧ ∃ read entries,
      Content.ofJsonEntries read = .ok entries ∧ Fulfils goods entries ∧
        ∀ fuel, 2 * cs.length + 1 ≤ fuel →
          readParts keyed fuel spare (cs ++ closeBracket keyed :: rest) = .ok (read, rest) := by
  have hclose : Stops isNumeral (closeBracket keyed :: rest) := by
    cases keyed <;> exact stops_cons rfl
  induction hlisting generalizing goods with
  | @last gap part blank =>
    cases heach with
    | @cons good _ _ _ hpart hnil =>
      cases hnil
      rw [List.append_assoc] at hread
      obtain ⟨hafter, name, j, c, hj, hc, hvalue⟩ := hpart.reads spare _ (blank.stops hclose) hread
      rw [marks_idle blank.idle, marks_close] at hafter
      refine ⟨hafter.closes, [(name, j)], [(name, c)], ?_, .cons hc .nil, fun fuel hfuel => ?_⟩
      · exact Content.ofJsonEntries_cons_eq_ok.mpr ⟨c, [], hj, rfl, rfl⟩
      · obtain _ | fuel := fuel
        · cases hfuel
        rw [List.length_append] at hfuel
        rw [List.append_assoc, hvalue fuel (by omega),
          blank.skipSpace (stops_cons (isSpace_closeBracket keyed)), readAfter_closeBracket]
  | @more before after others parts part before_blank after_blank listing ih =>
    cases heach with
    | @cons good _ goods _ hpart hothers =>
      have htext : (part ++ (before ++ ',' :: (after ++ others))) ++ closeBracket keyed :: rest =
          part ++ (before ++ ',' :: (after ++ (others ++ closeBracket keyed :: rest))) := by
        simp
      rw [htext] at hread
      obtain ⟨hafter, name, j, c, hj, hc, hvalue⟩ :=
        hpart.reads spare _ (before_blank.stops (stops_cons rfl)) hread
      rw [marks_idle before_blank.idle, marks_comma, marks_idle after_blank.idle] at hafter
      obtain ⟨hend, read, entries, hentries, hgood, hrest⟩ := ih hothers hafter
      refine ⟨hend, (name, j) :: read, (name, c) :: entries, ?_, .cons hc hgood, fun fuel hfuel => ?_⟩
      · exact Content.ofJsonEntries_cons_eq_ok.mpr ⟨c, entries, hj, hentries, rfl⟩
      · obtain _ | fuel := fuel
        · cases hfuel
        simp only [List.length_append, List.length_cons] at hfuel
        obtain ⟨first, more, rfl, hfirst⟩ := listing.begins hothers
        have hbegins : Stops isSpace (first :: more ++ closeBracket keyed :: rest) :=
          stops_cons (isSpace_of_beginsValue hfirst)
        rw [htext, hvalue fuel (by omega), before_blank.skipSpace (stops_cons rfl),
          readAfter_comma, after_blank.skipSpace hbegins, hrest fuel (by omega)]
        rfl

/-- A container is read when its parts are, if they do not repeat a key. -/
theorem readsAs_enclosed {parts : List (List Char)}
    (h : Enclosed (openBracket keyed) (closeBracket keyed) parts cs)
    {goods : List (String → Content → Prop)} (heach : List.Forall₂ (ReadsPart keyed) goods parts)
    (hkeys : keyed = true → ∀ entries, Fulfils goods entries → (Entries.names entries).Nodup) :
    ReadsAs (fun c => ∃ entries, c = .container keyed entries ∧ Fulfils goods entries) cs where
  begins := by
    obtain ⟨gap, inside, -, rfl, -⟩ := h
    exact ⟨_, _, rfl, by cases keyed <;> rfl⟩
  reads := by
    intro spare rest _ hread
    obtain ⟨gap, inside, hgap, rfl, hinside⟩ := h
    have htext : (openBracket keyed :: (gap ++ (inside ++ [closeBracket keyed]))) ++ rest =
        openBracket keyed :: (gap ++ (inside ++ closeBracket keyed :: rest)) := by
      simp
    rw [htext, marks_open] at hread
    obtain ⟨inner, rfl, hinner⟩ := hread.opens
    rw [marks_idle hgap.idle] at hinner
    rcases hinside with ⟨rfl, rfl⟩ | hlisting
    · cases heach
      rw [List.nil_append, marks_close] at hinner
      refine ⟨hinner.closes, ofParts keyed [], .container keyed [], ?_, ⟨[], rfl, .nil⟩,
        fun fuel hfuel => ?_⟩
      · cases keyed <;> rfl
      · obtain _ | fuel := fuel
        · cases hfuel
        rw [htext, readValue_open, List.nil_append,
          hgap.skipSpace (stops_cons (isSpace_closeBracket keyed)), List.head?_cons, if_pos rfl]
        rfl
    · obtain ⟨hend, read, entries, hentries, hgood, hparts⟩ :=
        readParts_listing hlisting heach hinner
      have hdiffer (hkeyed : keyed = true) : (Entries.names read).Nodup :=
        Content.names_of_ofJsonEntries hentries ▸ hkeys hkeyed entries hgood
      refine ⟨hend, ofParts keyed read, .container keyed entries, ?_, ⟨entries, rfl, hgood⟩,
        fun fuel hfuel => ?_⟩
      · rw [Content.ofJson_ofParts hdiffer, hentries]
        rfl
      · obtain _ | fuel := fuel
        · cases hfuel
        simp only [List.length_append, List.length_cons] at hfuel
        obtain ⟨first, more, rfl, hfirst⟩ := hlisting.begins heach
        have hbegins : Stops isSpace (first :: more ++ closeBracket keyed :: rest) :=
          stops_cons (isSpace_of_beginsValue hfirst)
        rw [htext, readValue_open, hgap.skipSpace hbegins, if_neg, hparts fuel (by omega)]
        · rfl
        · simpa using ne_closeBracket_of_beginsValue hfirst keyed

/-- A text of which nothing else is left is read as a whole. -/
theorem ReadsAs.parse (h : ReadsAs good cs) (hread : Readable nestingLimit (marks cs)) :
    ∃ c, Content.parse cs = .ok c ∧ good c := by
  have hread' : Readable nestingLimit (marks (cs ++ [])) := by rwa [List.append_nil]
  obtain ⟨-, j, c, hj, hc, hvalue⟩ := h.reads nestingLimit [] (stops_nil _) hread'
  refine ⟨c, ?_, hc⟩
  have hprefix := hvalue (fuelFor cs) (by unfold fuelFor; omega)
  rw [List.append_nil] at hprefix
  have hskip := h.stops []
  rw [List.append_nil] at hskip
  have hmark : cs.head? ≠ some (Char.ofNat 0xfeff) := by
    obtain ⟨first, more, rfl, hfirst⟩ := h.begins
    rintro ⟨⟩
    cases hfirst
  have hwhole : Json.read cs = .ok j := by
    rw [Json.read, if_neg hmark, readWhole, skipSpace_of_stops hskip, readPrefix, hprefix]
    rfl
  rw [Content.parse, hwhole, Content.ofReading, hj]

end StructuredOutput.Grammar

import StructuredOutput.Json.Writer
import StructuredOutput.Proofs.Entries
import StructuredOutput.Proofs.Json.Reading

/-!
Reading what the writer prints: strings with every kind of escape, and containers on one line or
with their parts on lines of their own.
-/

namespace StructuredOutput.Json

open Text

variable {rest : List Char}

/-! ### Strings -/

theorem escaped?_of_shortEscape? {c letter : Char} (h : shortEscape? c = some letter) :
    escaped? letter = some c := by
  unfold shortEscape? at h
  split_ifs at h with hquote hbackslash hnewline hreturn htab hbackspace hfeed
  · cases h
    rw [hquote]
    rfl
  · cases h
    rw [hbackslash]
    rfl
  · cases h
    rw [hnewline]
    rfl
  · cases h
    rw [hreturn]
    rfl
  · cases h
    rw [htab]
    rfl
  · cases h
    rw [← Char.ofNat_toNat c, hbackspace]
    rfl
  · cases h
    rw [← Char.ofNat_toNat c, hfeed]
    rfl

/-- The hexadecimal digits of a control character's code are read as the code. -/
theorem exists_hexUnit_of_control {n : Nat} (h : n < 0x20) :
    ∃ a b c d, hexDigits n 4 = [a, b, c, d] ∧ hexUnit? a b c d = some n := by
  have hdigits : ∀ n < 0x20,
      hexDigits n 4 = ['0', '0', Nat.digitChar (n / 16), Nat.digitChar (n % 16)] ∧
        hexUnit? '0' '0' (Nat.digitChar (n / 16)) (Nat.digitChar (n % 16)) = some n := by
    decide
  exact ⟨_, _, _, _, hdigits n h⟩

theorem unicodeEscape_control {c : Char} (h : c.toNat < 0x20) :
    unicodeEscape c = '\\' :: 'u' :: hexDigits c.toNat 4 := by
  rw [unicodeEscape, if_pos (by omega)]
  rfl

theorem writesChar_escapedChar (c : Char) : WritesChar (escapedChar false c) c := by
  unfold escapedChar
  cases hshort : shortEscape? c with
  | some letter => exact .escape (escaped?_of_shortEscape? hshort)
  | none =>
    have hplain : c ≠ '"' ∧ c ≠ '\\' := by
      constructor <;> (rintro rfl; cases hshort)
    dsimp only
    by_cases hcontrol : c.toNat < 0x20
    · obtain ⟨a, b, d, e, htext, hunit⟩ := exists_hexUnit_of_control hcontrol
      rw [if_pos (by simp [hcontrol]), unicodeEscape_control hcontrol, htext]
      have hscalar : isHighSurrogate c.toNat = false ∧ isLowSurrogate c.toNat = false := by
        simp only [isHighSurrogate, isLowSurrogate, Bool.and_eq_false_iff, decide_eq_false_iff_not]
        omega
      have hwrites := WritesChar.unit hunit hscalar
      rwa [Char.ofNat_toNat] at hwrites
    · rw [if_neg (by simp [hcontrol])]
      exact .plain ⟨hplain.1, hplain.2, Nat.not_lt.mp hcontrol⟩

/-- A string is written in one part for every character. -/
theorem writesChars (cs : List Char) : List.Forall₂ WritesChar (cs.map (escapedChar false)) cs := by
  rw [List.forall₂_map_left_iff, List.forall₂_same]
  exact fun c _ => writesChar_escapedChar c

/-- A printed string is read back. -/
theorem readString_stringText (cs rest : List Char) :
    readString (stringText false cs ++ rest) = .ok (String.ofList cs, rest) := by
  have htext : stringText false cs ++ rest =
      '"' :: ((cs.map (escapedChar false)).flatten ++ '"' :: rest) := by
    simp [stringText, List.flatMap_def]
  rw [htext, readString_spelled (writesChars cs)]

/-! ### Styles -/

theorem skipSpace_of_stops (hrest : Stops isSpace rest) : skipSpace rest = rest :=
  skipSpace_gap .none hrest

/-- A style that prints text as it is and numbers in the plain layout. -/
structure Style.Plain (s : Style) : Prop where
  asciiOnly : s.asciiOnly = false
  numbers : s.numbers = plainLayout
  colon : ∃ g : Gap, s.colon.toList = ':' :: g.chars

theorem plain_styleFor (indent : Option Nat) : (styleFor indent).Plain where
  asciiOnly := by cases indent <;> rfl
  numbers := by cases indent <;> rfl
  colon := by
    cases indent with
    | none => exact ⟨.none, rfl⟩
    | some n =>
      have hblank : ∀ c ∈ [' '], isSpace c = true := by
        intro c hc
        rw [List.mem_singleton.mp hc]
        rfl
      exact ⟨⟨[' '], hblank⟩, by simp [styleFor, compactStyle]⟩

theorem exists_lineBreak (s : Style) (level : Nat) : ∃ g : Gap, s.lineBreak level = g.chars := by
  unfold Style.lineBreak
  split
  · exact ⟨.none, rfl⟩
  · refine ⟨⟨_, fun c hc => ?_⟩, rfl⟩
    rcases List.mem_cons.mp hc with rfl | hc
    · rfl
    · rw [List.eq_of_mem_replicate hc]
      rfl

/-! ### Values and parts -/

/-- A value that is read back from its text, with some levels of containers allowed. -/
structure Rereads (s : Style) (level depth : Nat) (j : Json) : Prop where
  begins : ∃ c cs, text s level j = c :: cs ∧ beginsValue c = true
  reads : ∀ fuel rest, 2 * (text s level j).length ≤ fuel → Stops continuesNumber rest →
    readValue fuel depth (text s level j ++ rest) = .ok (j, rest)

/-- The text of a part of a container. -/
def partText (s : Style) (level : Nat) (keyed : Bool) (part : String × Json) : List Char :=
  (if keyed then stringText s.asciiOnly part.1.toList ++ s.colon.toList else []) ++
    text s level part.2

theorem itemTexts_eq (s : Style) (level : Nat) (items : List Json) :
    itemTexts s level items = (items.map fun j => ("", j)).map (partText s level false) := by
  induction items with
  | nil => rfl
  | cons item items ih =>
    rw [itemTexts, ih]
    rfl

theorem entryTexts_eq (s : Style) (level : Nat) (entries : List (String × Json)) :
    entryTexts s level entries = entries.map (partText s level true) := by
  induction entries with
  | nil => rfl
  | cons e entries ih =>
    rw [entryTexts, ih]
    rfl

variable {s : Style} {level depth : Nat} {keyed : Bool}

/-- Printed parts are separated by commas, with blanks before each of them and after the last. -/
theorem exists_enclose (s : Style) (level : Nat) (keyed : Bool) {parts : List (String × Json)}
    (hne : parts ≠ []) :
    ∃ before after : Gap, s.enclose level (openBracket keyed) (closeBracket keyed)
      (parts.map (partText s (level + 1) keyed)) =
        openBracket keyed :: (before.chars ++ (List.intercalate (',' :: before.chars)
          (parts.map (partText s (level + 1) keyed)) ++ (after.chars ++ [closeBracket keyed]))) := by
  obtain ⟨before, hbefore⟩ := exists_lineBreak s (level + 1)
  obtain ⟨after, hafter⟩ := exists_lineBreak s level
  obtain ⟨part, parts, rfl⟩ := List.exists_cons_of_ne_nil hne
  refine ⟨before, after, ?_⟩
  simp [Style.enclose, hbefore, hafter]

theorem Rereads.stops {j : Json} (h : Rereads s level depth j) (rest : List Char) :
    Stops isSpace (text s level j ++ rest) := by
  obtain ⟨c, cs, hcons, hc⟩ := h.begins
  rw [hcons]
  exact stops_cons (isSpace_of_beginsValue hc)

theorem exists_texts_cons {parts : List (String × Json)} (hne : parts ≠ [])
    (each : ∀ part ∈ parts, Rereads s level depth part.2) (keyed : Bool) (separator : List Char) :
    ∃ c cs, List.intercalate separator (parts.map (partText s level keyed)) = c :: cs ∧
      beginsValue c = true := by
  obtain ⟨part, parts, rfl⟩ := List.exists_cons_of_ne_nil hne
  have hfirst : ∃ c cs, partText s level keyed part = c :: cs ∧ beginsValue c = true := by
    cases keyed with
    | false => exact (each part List.mem_cons_self).begins
    | true => exact ⟨'"', _, rfl, rfl⟩
  obtain ⟨c, cs, hcons, hc⟩ := hfirst
  cases parts with
  | nil => exact ⟨c, cs, by simp [hcons], hc⟩
  | cons next parts =>
    rw [List.map_cons, List.map_cons, List.intercalate_cons_cons, hcons]
    exact ⟨c, _, rfl, hc⟩

/-- A printed part is read, and then what follows it. -/
theorem readParts_partText (hs : s.Plain) {part : String × Json} {fuel : Nat}
    (hpart : Rereads s level depth part.2) (hname : keyed = false → part.1 = "")
    (hfuel : 2 * (partText s level keyed part).length ≤ fuel)
    (hrest : Stops continuesNumber rest) :
    readParts keyed (fuel + 1) depth (partText s level keyed part ++ rest) =
      readAfter keyed fuel depth part (skipSpace rest) := by
  obtain ⟨name, j⟩ := part
  change Rereads s level depth j at hpart
  have hlength : (text s level j).length ≤ (partText s level keyed (name, j)).length := by
    simp [partText]
  have hvalue := hpart.reads fuel rest (by omega) hrest
  cases keyed with
  | false =>
    obtain rfl : name = "" := hname rfl
    exact readParts_item hvalue
  | true =>
    obtain ⟨gap, hcolon⟩ := hs.colon
    have htext : partText s level true (name, j) ++ rest =
        stringText false name.toList ++ (':' :: (gap.chars ++ (text s level j ++ rest))) := by
      simp [partText, hs.asciiOnly, hcolon]
    rw [htext]
    apply readParts_entry rfl
    · rw [readString_stringText, String.ofList_toList]
    · exact skipSpace_of_stops (stops_cons rfl)
    · rw [skipSpace_gap gap (hpart.stops rest), hvalue]

/-- The printed parts of a container are read up to its closing bracket. -/
theorem readParts_texts (hs : s.Plain) {parts : List (String × Json)} (hne : parts ≠ [])
    (hnames : keyed = false → ∀ part ∈ parts, part.1 = "")
    (each : ∀ part ∈ parts, Rereads s level depth part.2) (gap after : Gap) {fuel : Nat}
    (hfuel : 2 * (List.intercalate (',' :: gap.chars)
      (parts.map (partText s level keyed))).length + 1 ≤ fuel) (rest : List Char) :
    readParts keyed fuel depth
      (List.intercalate (',' :: gap.chars) (parts.map (partText s level keyed)) ++
        (after.chars ++ closeBracket keyed :: rest)) = .ok (parts, rest) := by
  induction parts generalizing fuel with
  | nil => exact absurd rfl hne
  | cons part parts ih =>
    obtain _ | fuel := fuel
    · cases hfuel
    have hpart := each part List.mem_cons_self
    have hname (h : keyed = false) : part.1 = "" := hnames h part List.mem_cons_self
    cases parts with
    | nil =>
      simp only [List.map_cons, List.map_nil, List.intercalate_singleton] at hfuel ⊢
      rw [readParts_partText hs hpart hname (by omega)
        (stops_gap after (stops_closeBracket keyed rest)),
        skipSpace_gap after (stops_cons (isSpace_closeBracket keyed)), readAfter_closeBracket]
    | cons next parts =>
      rw [List.map_cons, List.map_cons, List.intercalate_cons_cons, ← List.map_cons] at hfuel ⊢
      simp only [List.length_append, List.length_cons] at hfuel
      have hrest : 2 * (List.intercalate (',' :: gap.chars)
          ((next :: parts).map (partText s level keyed))).length + 1 ≤ fuel := by omega
      have hothers := ih (List.cons_ne_nil _ _) (fun h p hp => hnames h p (List.mem_cons_of_mem _ hp))
        (fun p hp => each p (List.mem_cons_of_mem _ hp)) hrest
      have hbegins : Stops isSpace (List.intercalate (',' :: gap.chars)
          ((next :: parts).map (partText s level keyed)) ++
            (after.chars ++ closeBracket keyed :: rest)) := by
        obtain ⟨c, cs, hcons, hc⟩ := exists_texts_cons (List.cons_ne_nil next parts)
          (fun p hp => each p (List.mem_cons_of_mem _ hp)) keyed (',' :: gap.chars)
        rw [hcons]
        exact stops_cons (isSpace_of_beginsValue hc)
      rw [List.append_assoc, List.append_assoc, List.cons_append,
        readParts_partText hs hpart hname (by omega) (stops_cons rfl),
        skipSpace_of_stops (stops_cons rfl), readAfter_comma, skipSpace_gap gap hbegins, hothers]
      rfl

/-- A printed container is read back when its parts are. -/
theorem readValue_enclose (hs : s.Plain) (keyed : Bool) (parts : List (String × Json))
    (hnames : keyed = false → ∀ part ∈ parts, part.1 = "")
    (each : ∀ part ∈ parts, Rereads s (level + 1) depth part.2) {fuel : Nat}
    (hfuel : 2 * (s.enclose level (openBracket keyed) (closeBracket keyed)
      (parts.map (partText s (level + 1) keyed))).length ≤ fuel) (rest : List Char) :
    readValue fuel (depth + 1) (s.enclose level (openBracket keyed) (closeBracket keyed)
      (parts.map (partText s (level + 1) keyed)) ++ rest) = .ok (ofParts keyed parts, rest) := by
  obtain _ | fuel := fuel
  · have hpos : 0 < (s.enclose level (openBracket keyed) (closeBracket keyed)
        (parts.map (partText s (level + 1) keyed))).length := by
      unfold Style.enclose
      split <;> simp
    omega
  cases parts with
  | nil =>
    have htext : s.enclose level (openBracket keyed) (closeBracket keyed) [] ++ rest =
        openBracket keyed :: closeBracket keyed :: rest := rfl
    have hclose : Stops isSpace (closeBracket keyed :: rest) :=
      stops_cons (isSpace_closeBracket keyed)
    rw [List.map_nil, htext, readValue_open, skipSpace_of_stops hclose]
    simp
  | cons part parts =>
    obtain ⟨before, after, htext⟩ := exists_enclose s level keyed (List.cons_ne_nil part parts)
    obtain ⟨c, cs, hcons, hc⟩ :=
      exists_texts_cons (List.cons_ne_nil part parts) each keyed (',' :: before.chars)
    have hlength : 2 * (List.intercalate (',' :: before.chars)
        ((part :: parts).map (partText s (level + 1) keyed))).length + 1 ≤ fuel := by
      rw [htext] at hfuel
      simp only [List.length_append, List.length_cons, List.length_nil] at hfuel
      omega
    have hparts := readParts_texts hs (List.cons_ne_nil part parts) hnames each before after
      hlength rest
    rw [hcons] at hparts
    have hbegins : Stops isSpace (c :: cs ++ (after.chars ++ closeBracket keyed :: rest)) :=
      stops_cons (isSpace_of_beginsValue hc)
    have hinside : (openBracket keyed :: (before.chars ++ (c :: cs ++
        (after.chars ++ [closeBracket keyed])))) ++ rest =
          openBracket keyed :: (before.chars ++ (c :: cs ++
            (after.chars ++ closeBracket keyed :: rest))) := by
      simp
    rw [htext, hcons, hinside, readValue_open, skipSpace_gap before hbegins, if_neg, hparts]
    · rfl
    · simpa using ne_closeBracket_of_beginsValue hc keyed

/-! ### Kinds of values -/

theorem rereads_word {j : Json} {c : Char} {cs : List Char} (htext : text s level j = c :: cs)
    (hc : c = 'n' ∨ c = 't' ∨ c = 'f')
    (hscalar : ∀ rest, readScalar (c :: cs ++ rest) = .ok (j, rest)) : Rereads s level depth j where
  begins := ⟨c, cs, htext, by rcases hc with rfl | rfl | rfl <;> rfl⟩
  reads := by
    intro fuel rest hfuel _
    rw [htext] at hfuel ⊢
    obtain _ | fuel := fuel
    · cases hfuel
    · rw [← hscalar rest]
      rcases hc with rfl | rfl | rfl <;> exact readValue_of_scalar fuel depth (by decide) (by decide)

theorem rereads_null : Rereads s level depth .null :=
  rereads_word (by rw [text]; rfl) (.inl rfl) fun _ => readScalar_null

theorem rereads_bool (b : Bool) : Rereads s level depth (.bool b) := by
  cases b with
  | false => exact rereads_word (by rw [text]; rfl) (.inr (.inr rfl)) (readScalar_bool false)
  | true => exact rereads_word (by rw [text]; rfl) (.inr (.inl rfl)) (readScalar_bool true)

theorem rereads_numeral {j : Json} {n : Numeral} (htext : n.text = text s level j)
    (hjson : n.json = j) : Rereads s level depth j where
  begins := by
    obtain ⟨c, cs, hcons, hc⟩ := n.exists_text_cons
    refine ⟨c, cs, htext ▸ hcons, ?_⟩
    rcases hc with rfl | hc
    · rfl
    · simp [beginsValue, hc]
  reads := by
    intro fuel rest hfuel hrest
    rw [← htext] at hfuel ⊢
    obtain _ | fuel := fuel
    · obtain ⟨c, cs, hcons, -⟩ := n.exists_text_cons
      rw [hcons] at hfuel
      cases hfuel
    · rw [n.readValue_text fuel depth hrest, hjson]

theorem rereads_string (hs : s.Plain) (t : String) : Rereads s level depth (.string t) where
  begins := ⟨'"', _, by rw [text]; rfl, rfl⟩
  reads := by
    intro fuel rest hfuel _
    rw [text, hs.asciiOnly] at hfuel ⊢
    obtain _ | fuel := fuel
    · cases hfuel
    · apply readValue_quote fuel depth rfl
      rw [readString_stringText, String.ofList_toList]

theorem rereads_container (hs : s.Plain) (keyed : Bool) (parts : List (String × Json))
    (hnames : keyed = false → ∀ part ∈ parts, part.1 = "")
    (each : ∀ part ∈ parts, Rereads s (level + 1) depth part.2) {j : Json}
    (htext : text s level j = s.enclose level (openBracket keyed) (closeBracket keyed)
      (parts.map (partText s (level + 1) keyed))) (hjson : ofParts keyed parts = j) :
    Rereads s level (depth + 1) j where
  begins := by
    rw [htext]
    unfold Style.enclose
    cases keyed <;> (split <;> exact ⟨_, _, rfl, rfl⟩)
  reads := by
    intro fuel rest hfuel _
    rw [htext] at hfuel ⊢
    rw [readValue_enclose hs keyed parts hnames each hfuel rest, hjson]

theorem rereads_array (hs : s.Plain) {items : List Json}
    (each : ∀ j ∈ items, Rereads s (level + 1) depth j) :
    Rereads s level (depth + 1) (.array items) := by
  apply rereads_container hs false (items.map fun j => ("", j))
  · simp
  · simpa using each
  · rw [text, itemTexts_eq]
    rfl
  · simp [ofParts, Function.comp_def]

theorem rereads_object (hs : s.Plain) {entries : List (String × Json)}
    (hdiffer : (Entries.names entries).Nodup)
    (each : ∀ e ∈ entries, Rereads s (level + 1) depth e.2) :
    Rereads s level (depth + 1) (.object entries) := by
  apply rereads_container hs true entries (by simp) each
  · rw [text, entryTexts_eq]
    rfl
  · rw [ofParts, if_pos rfl, Entries.ofList_of_nodup hdiffer]

/-- A whole printed text is read back. -/
theorem read_text {j : Json} (h : Rereads s 0 nestingLimit j) : read (text s 0 j) = .ok j := by
  have hspace : Stops isSpace [] := fun c hc => (by cases hc)
  have hvalue := h.reads (fuelFor (text s 0 j)) [] (by unfold fuelFor; omega)
    (fun c hc => (by cases hc))
  have hskip := h.stops []
  rw [List.append_nil] at hvalue hskip
  have hmark : (text s 0 j).head? ≠ some (Char.ofNat 0xfeff) := by
    obtain ⟨c, cs, hcons, hc⟩ := h.begins
    rw [hcons]
    rintro ⟨⟩
    cases hc
  rw [read, if_neg hmark, readWhole, skipSpace_of_stops hskip, readPrefix, hvalue]
  rfl

end StructuredOutput.Json

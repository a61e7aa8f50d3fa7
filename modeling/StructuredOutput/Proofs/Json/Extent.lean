import StructuredOutput.Proofs.Json.Escapes

/-!
What is read of a text ends where the value ends. What follows has no part in it, except that a
number goes on as long as it can, and so the characters that are read are read as the same value
before any other text.
-/

namespace StructuredOutput.Json

open Text

variable {rest : List Char}

/-! ### Escapes of code units -/

theorem unicodeUnit?_cons (a b c d : Char) (after : List Char) :
    unicodeUnit? (a :: b :: c :: d :: after) =
      if after = [] then none else (hexUnit? a b c d).map (·, after) := by
  cases after <;> rfl

/-- The digits of a code unit are read before any text. -/
theorem unicodeUnit?_append {cs after : List Char} {n : Nat}
    (h : unicodeUnit? cs = some (n, after)) (beyond : List Char) :
    unicodeUnit? (cs ++ beyond) = some (n, after ++ beyond) := by
  obtain ⟨a, b, c, d, rfl, hne, -⟩ := unicodeUnit?_eq_some h
  rw [unicodeUnit?_cons, if_neg hne, Option.map_eq_some_iff] at h
  obtain ⟨m, hunit, heq⟩ := h
  cases heq
  have hafter : after ++ beyond ≠ [] := by simp [hne]
  simp only [List.cons_append]
  rw [unicodeUnit?_cons, if_neg hafter, hunit]
  rfl

/-- The digits of a code unit and some of what follows them. -/
theorem exists_unicodeUnit?_of_append {cs used : List Char} {n : Nat} (hne : used ≠ [])
    (h : unicodeUnit? cs = some (n, used ++ rest)) :
    ∃ ds, cs = ds ++ rest ∧ unicodeUnit? ds = some (n, used) := by
  obtain ⟨a, b, c, d, rfl, happend, -⟩ := unicodeUnit?_eq_some h
  refine ⟨a :: b :: c :: d :: used, rfl, ?_⟩
  rw [unicodeUnit?_cons, if_neg happend, Option.map_eq_some_iff] at h
  obtain ⟨m, hunit, heq⟩ := h
  cases heq
  rw [unicodeUnit?_cons, if_neg hne, hunit]
  rfl

theorem length_of_unicodeUnit? {cs after : List Char} {n : Nat}
    (h : unicodeUnit? cs = some (n, after)) : cs.length = after.length + 4 := by
  obtain ⟨a, b, c, d, rfl, -, -⟩ := unicodeUnit?_eq_some h
  rfl

/-- An escaped code unit and the escape after it stand for one character. -/
def Pairs (n : Nat) (after : List Char) (m : Nat) (beyond : List Char) : Prop :=
  isHighSurrogate n = true ∧ isLowSurrogate m = true ∧
    ∃ second, after = '\\' :: 'u' :: second ∧ unicodeUnit? second = some (m, beyond)

theorem Pairs.append {n m : Nat} {after beyond : List Char} (h : Pairs n after m beyond)
    (more : List Char) : Pairs n (after ++ more) m (beyond ++ more) := by
  obtain ⟨hhigh, hlow, second, rfl, hsecond⟩ := h
  exact ⟨hhigh, hlow, second ++ more, rfl, unicodeUnit?_append hsecond more⟩

theorem stringBody_paired (start : List Char) (fuel : Nat) {cs after beyond : List Char} {n m : Nat}
    (hunit : unicodeUnit? cs = some (n, after)) (hpairs : Pairs n after m beyond) :
    stringBody start (fuel + 1) ('\\' :: 'u' :: cs) =
      stringBody.prepend (pairChar n m) (stringBody start fuel beyond) := by
  obtain ⟨hhigh, hlow, second, rfl, hsecond⟩ := hpairs
  have hlength : ¬second.length < 5 := by
    obtain ⟨a, b, c, d, rfl, hne, -⟩ := unicodeUnit?_eq_some hsecond
    have hpos := List.length_pos_iff.mpr hne
    simp only [List.length_cons]
    omega
  rw [stringBody.eq_def]
  dsimp only
  rw [if_neg (by decide), if_pos rfl]
  simp only [hunit, hhigh, if_neg hlength, hsecond, if_pos hlow]

/-- A string that is read has the digits of an escape that it begins with. -/
theorem exists_unit_of_stringBody {start cs chars : List Char} {fuel : Nat}
    (h : stringBody start fuel ('\\' :: 'u' :: cs) = .ok (chars, rest)) :
    ∃ n after, unicodeUnit? cs = some (n, after) := by
  obtain _ | fuel := fuel
  · cases h
  rcases stringBody_eq_ok h with ⟨heq, -⟩ | ⟨c, after, more, htakes, -, -⟩
  · cases heq
  · cases htakes with
    | plain quotable => exact absurd rfl quotable.2.1
    | escape stands => exact absurd rfl (ne_of_escaped? stands)
    | unit hunit => exact ⟨_, _, hunit⟩
    | pair hunit => exact ⟨_, _, hunit⟩

theorem stringBody_unpaired {start cs after chars : List Char} {fuel n : Nat}
    (hunit : unicodeUnit? cs = some (n, after)) (hpairs : ∀ m beyond, ¬Pairs n after m beyond) :
    stringBody start (fuel + 1) ('\\' :: 'u' :: cs) = .ok (chars, rest) ↔
      stringBody.prepend (unitChar n) (stringBody start fuel after) = .ok (chars, rest) := by
  rw [stringBody.eq_def]
  dsimp only
  rw [if_neg (by decide), if_pos rfl]
  simp only [hunit]
  split
  · next second hhigh =>
    split
    · rfl
    · split
      · next hnone =>
        -- neither reading gets past an escape without its digits
        constructor
        · intro h
          cases h
        · intro h
          obtain ⟨found, hread, -⟩ := Outcome.map_eq_ok.mp h
          obtain ⟨m, beyond, hsome⟩ := exists_unit_of_stringBody hread
          cases hnone.symm.trans hsome
      · next m beyond hsecond =>
        rw [if_neg fun hlow => hpairs m beyond ⟨hhigh, hlow, second, rfl, hsecond⟩]
  · rfl

/-! ### Strings -/

/-- Characters that are read as a string up to its quotation mark, before any text. -/
structure Spans (used chars : List Char) : Prop where
  ne_nil : used ≠ []
  reads : ∀ start more beyond, used.length ≤ more →
    stringBody start more (used ++ beyond) = .ok (chars, beyond)

namespace Spans

variable {used chars : List Char}

theorem quote : Spans ['"'] [] where
  ne_nil := by simp
  reads := by
    intro start more beyond hmore
    obtain _ | more := more
    · cases hmore
    · exact stringBody_quote start more beyond

/-- Characters that are read as one more character before a string. -/
theorem of_char {whole : List Char} {c : Char} (h : Spans used chars)
    (hlength : used.length < whole.length)
    (hread : ∀ start fuel beyond, stringBody start fuel (used ++ beyond) = .ok (chars, beyond) →
      stringBody start (fuel + 1) (whole ++ beyond) = .ok (c :: chars, beyond)) :
    Spans whole (c :: chars) where
  ne_nil := by
    rintro rfl
    cases hlength
  reads := by
    intro start more beyond hmore
    obtain _ | more := more
    · omega
    · exact hread start more beyond (h.reads start more beyond (by omega))

theorem plain {c : Char} (quotable : c ≠ '"' ∧ c ≠ '\\' ∧ 0x20 ≤ c.toNat)
    (h : Spans used chars) : Spans (c :: used) (c :: chars) := by
  apply h.of_char (Nat.lt_succ_self _)
  intro start fuel beyond hread
  rw [List.cons_append, stringBody_plain start fuel quotable, hread]
  rfl

theorem escape {letter c : Char} (stands : escaped? letter = some c) (h : Spans used chars) :
    Spans ('\\' :: letter :: used) (c :: chars) := by
  apply h.of_char (by simp only [List.length_cons]; omega)
  intro start fuel beyond hread
  rw [List.cons_append, List.cons_append, stringBody_escape start fuel stands, hread]
  rfl

theorem paired {cs after : List Char} {n m : Nat} (hunit : unicodeUnit? cs = some (n, after))
    (hpairs : Pairs n after m used) (h : Spans used chars) :
    Spans ('\\' :: 'u' :: cs) (pairChar n m :: chars) := by
  apply h.of_char
  · obtain ⟨-, -, second, rfl, hsecond⟩ := hpairs
    have hlength := length_of_unicodeUnit? hunit
    have hlength' := length_of_unicodeUnit? hsecond
    simp only [List.length_cons] at hlength ⊢
    omega
  · intro start fuel beyond hread
    rw [List.cons_append, List.cons_append, stringBody_paired start fuel
      (unicodeUnit?_append hunit beyond) (hpairs.append beyond), hread]
    rfl

/-- An escape that begins in what is read as a string lies in it as a whole. -/
theorem exists_pairs {n m : Nat} {beyond after : List Char} (h : Spans used chars)
    (hpairs : Pairs n (used ++ beyond) m after) : ∃ m after, Pairs n used m after := by
  obtain ⟨hhigh, hlow, second, hcons, hsecond⟩ := hpairs
  have hread := h.reads [] used.length [] (Nat.le_refl _)
  rw [List.append_nil] at hread
  match used, h.ne_nil with
  | [c], _ =>
    obtain rfl : c = '\\' := (List.cons.inj hcons).1
    rcases stringBody_eq_ok hread with ⟨heq, -⟩ | ⟨d, more, others, htakes, -, -⟩
    · cases heq
    · cases htakes with
      | plain quotable => exact absurd rfl quotable.2.1
  | c :: d :: used, _ =>
    obtain ⟨rfl, htail⟩ := List.cons.inj hcons
    obtain ⟨rfl, rfl⟩ := List.cons.inj htail
    obtain ⟨k, more, hunit⟩ := exists_unit_of_stringBody hread
    have hsame := unicodeUnit?_append hunit beyond
    rw [List.append_eq, hsame] at hsecond
    cases hsecond
    exact ⟨m, more, hhigh, hlow, used, rfl, hunit⟩

theorem unpaired {cs : List Char} {n : Nat} (hunit : unicodeUnit? cs = some (n, used))
    (hpairs : ∀ m after, ¬Pairs n used m after) (h : Spans used chars) :
    Spans ('\\' :: 'u' :: cs) (unitChar n :: chars) := by
  apply h.of_char
  · have hlength := length_of_unicodeUnit? hunit
    simp only [List.length_cons]
    omega
  · intro start fuel beyond hread
    rw [List.cons_append, List.cons_append,
      stringBody_unpaired (unicodeUnit?_append hunit beyond), hread]
    · rfl
    · intro m after hpaired
      obtain ⟨m, after, hinside⟩ := h.exists_pairs hpaired
      exact hpairs m after hinside

end Spans

/-- What holds of shorter strings holds of one that begins with an escaped code unit. -/
theorem exists_spans_of_unit {start ds after chars : List Char} {fuel n : Nat}
    (shorter : ∀ {cs chars : List Char}, stringBody start fuel cs = .ok (chars, rest) →
      ∃ used, cs = used ++ rest ∧ Spans used chars)
    (hunit : unicodeUnit? ds = some (n, after))
    (h : stringBody start (fuel + 1) ('\\' :: 'u' :: ds) = .ok (chars, rest)) :
    ∃ used, '\\' :: 'u' :: ds = used ++ rest ∧ Spans used chars := by
  by_cases hpairs : ∃ m beyond, Pairs n after m beyond
  · obtain ⟨m, beyond, hpairs⟩ := hpairs
    rw [stringBody_paired start fuel hunit hpairs] at h
    obtain ⟨⟨others, last⟩, hothers, heq⟩ := Outcome.map_eq_ok.mp h
    cases heq
    obtain ⟨used, rfl, hused⟩ := shorter hothers
    obtain ⟨hhigh, hlow, second, rfl, hsecond⟩ := hpairs
    obtain ⟨es, rfl, hes⟩ := exists_unicodeUnit?_of_append hused.ne_nil hsecond
    have hwhole : unicodeUnit? ds = some (n, ('\\' :: 'u' :: es) ++ rest) := hunit
    obtain ⟨front, rfl, hfront⟩ := exists_unicodeUnit?_of_append (by simp) hwhole
    exact ⟨'\\' :: 'u' :: front, rfl, hused.paired hfront ⟨hhigh, hlow, es, rfl, hes⟩⟩
  · have hapart : ∀ m beyond, ¬Pairs n after m beyond := fun m beyond h => hpairs ⟨m, beyond, h⟩
    rw [stringBody_unpaired hunit hapart] at h
    obtain ⟨⟨others, last⟩, hothers, heq⟩ := Outcome.map_eq_ok.mp h
    cases heq
    obtain ⟨used, rfl, hused⟩ := shorter hothers
    obtain ⟨front, rfl, hfront⟩ := exists_unicodeUnit?_of_append hused.ne_nil hunit
    exact ⟨'\\' :: 'u' :: front, rfl,
      hused.unpaired hfront fun m beyond h => hapart m _ (h.append rest)⟩

/-- A string that is read begins with the characters that it is read of. -/
theorem exists_spans {start cs chars : List Char} {fuel : Nat}
    (h : stringBody start fuel cs = .ok (chars, rest)) :
    ∃ used, cs = used ++ rest ∧ Spans used chars := by
  induction fuel generalizing cs chars with
  | zero => cases h
  | succ fuel ih =>
    have hread := h
    rcases stringBody_eq_ok h with ⟨rfl, rfl⟩ | ⟨c, after, others, htakes, hothers, rfl⟩
    · exact ⟨['"'], rfl, .quote⟩
    cases htakes with
    | plain quotable =>
      obtain ⟨used, rfl, hused⟩ := ih hothers
      exact ⟨c :: used, rfl, hused.plain quotable⟩
    | @escape letter _ stands =>
      obtain ⟨used, rfl, hused⟩ := ih hothers
      exact ⟨'\\' :: letter :: used, rfl, hused.escape stands⟩
    | unit hunit => exact exists_spans_of_unit ih hunit hread
    | pair hunit => exact exists_spans_of_unit ih hunit hread

/-- A string that is read is read of the same characters before any text. -/
theorem readString_extent {start : List Char} {s : String} (hquote : start.head? = some '"')
    (h : readString start = .ok (s, rest)) :
    ∃ used, start = used ++ rest ∧ used.head? = some '"' ∧
      ∀ beyond, readString (used ++ beyond) = .ok (s, beyond) := by
  obtain ⟨inside, rfl⟩ := List.head?_eq_some_iff.mp hquote
  obtain ⟨⟨chars, after⟩, hbody, heq⟩ := Outcome.map_eq_ok.mp h
  cases heq
  rw [List.tail_cons] at hbody
  obtain ⟨used, rfl, hused⟩ := exists_spans hbody
  refine ⟨'"' :: used, rfl, rfl, fun beyond => ?_⟩
  have hlength : used.length ≤ ('"' :: (used ++ beyond)).length + 1 := by
    simp only [List.length_cons, List.length_append]
    omega
  rw [List.cons_append, readString, List.tail_cons, hused.reads _ _ beyond hlength]
  rfl

/-! ### Values -/

theorem stops_skipSpace (cs : List Char) : Stops isSpace (skipSpace cs) := by
  intro c hc
  have hstop := List.head?_dropWhile_not isSpace cs
  rw [show cs.dropWhile isSpace = skipSpace cs from rfl, hc] at hstop
  simpa using hstop

/-- What a text begins with decides whether it stops. -/
theorem Stops.of_append {p : Char → Bool} {used : List Char} (hne : used ≠ [])
    (h : Stops p (used ++ rest)) (beyond : List Char) : Stops p (used ++ beyond) := by
  obtain ⟨c, cs, rfl⟩ := List.exists_cons_of_ne_nil hne
  exact stops_cons (h c rfl)

/-- Whether a text begins with a container. -/
def Opens (cs : List Char) : Prop := ∃ keyed, cs.head? = some (openBracket keyed)

/-- Characters that are read as a value before any text; only a container ends by itself, whatever
follows. -/
structure Fills (depth : Nat) (used : List Char) (j : Json) : Prop where
  ne_nil : used ≠ []
  reads : ∀ more beyond, 2 * used.length ≤ more → Opens used ∨ Stops continuesNumber beyond →
    readValue more depth (used ++ beyond) = .ok (j, beyond)

/-- Characters that are read as the parts of a container up to its closing bracket. -/
structure FillsParts (keyed : Bool) (depth : Nat) (used : List Char) (js : List (String × Json)) :
    Prop where
  ne_nil : used ≠ []
  reads : ∀ more beyond, 2 * used.length + 1 ≤ more →
    readParts keyed more depth (used ++ beyond) = .ok (js, beyond)

/-- Characters after a part of a container that are read as the end of it. -/
structure FillsAfter (keyed : Bool) (depth : Nat) (part : String × Json) (used : List Char)
    (js : List (String × Json)) : Prop where
  stops : ∀ beyond, Stops continuesNumber (used ++ beyond)
  reads : ∀ more beyond, 2 * used.length ≤ more →
    readAfter keyed more depth part (skipSpace (used ++ beyond)) = .ok (js, beyond)

section

variable {keyed : Bool} {depth : Nat} {part : String × Json} {used after : List Char}
  {value : Json} {js others : List (String × Json)}

theorem fillsAfter_close (g : Gap) (part : String × Json) :
    FillsAfter keyed depth part (g.chars ++ [closeBracket keyed]) [part] where
  stops beyond := by
    rw [List.append_assoc]
    exact stops_gap g (stops_closeBracket keyed beyond)
  reads more beyond _ := by
    rw [List.append_assoc, List.singleton_append,
      skipSpace_gap g (stops_cons (isSpace_closeBracket keyed)), readAfter_closeBracket]

theorem FillsParts.after_comma (h : FillsParts keyed depth used others)
    (hstops : Stops isSpace used) (before gap : Gap) (part : String × Json) :
    FillsAfter keyed depth part (before.chars ++ ',' :: (gap.chars ++ used)) (part :: others) where
  stops beyond := by
    rw [List.append_assoc]
    exact stops_gap before (stops_cons rfl)
  reads more beyond hmore := by
    have hused : Stops isSpace (used ++ beyond) := by
      rw [← List.append_nil used] at hstops
      exact Stops.of_append h.ne_nil hstops _
    simp only [List.length_append, List.length_cons] at hmore
    rw [List.append_assoc, List.cons_append, List.append_assoc,
      skipSpace_gap before (stops_cons rfl), readAfter_comma, skipSpace_gap gap hused,
      h.reads more beyond (by omega)]
    rfl

theorem Fills.item (h : Fills depth used value)
    (hafter : FillsAfter false depth ("", value) after js) :
    FillsParts false depth (used ++ after) js where
  ne_nil := by simp [h.ne_nil]
  reads more beyond hmore := by
    obtain _ | more := more
    · cases hmore
    rw [List.length_append] at hmore
    have hvalue := h.reads more (after ++ beyond) (by omega) (.inr (hafter.stops beyond))
    rw [List.append_assoc, readParts_item hvalue]
    exact hafter.reads more beyond (by omega)

theorem Fills.entry {key : String} {label : List Char} (h : Fills depth used value)
    (hstops : Stops isSpace used) (hquote : label.head? = some '"')
    (hkey : ∀ beyond, readString (label ++ beyond) = .ok (key, beyond)) (before gap : Gap)
    (hafter : FillsAfter true depth (key, value) after js) :
    FillsParts true depth (label ++ (before.chars ++ ':' :: (gap.chars ++ (used ++ after))))
      js where
  ne_nil := by
    obtain ⟨inside, rfl⟩ := List.head?_eq_some_iff.mp hquote
    exact List.cons_ne_nil _ _
  reads more beyond hmore := by
    obtain _ | more := more
    · cases hmore
    simp only [List.length_append, List.length_cons] at hmore
    have hused : Stops isSpace (used ++ (after ++ beyond)) := by
      rw [← List.append_nil used] at hstops
      exact Stops.of_append h.ne_nil hstops _
    have hvalue := h.reads more (after ++ beyond) (by omega) (.inr (hafter.stops beyond))
    have htext : label ++ (before.chars ++ ':' :: (gap.chars ++ (used ++ after))) ++ beyond =
        label ++ (before.chars ++ ':' :: (gap.chars ++ (used ++ (after ++ beyond)))) := by
      simp
    have hlabel : ((label ++ (before.chars ++
        ':' :: (gap.chars ++ (used ++ (after ++ beyond)))))).head? = some '"' := by
      obtain ⟨inside, rfl⟩ := List.head?_eq_some_iff.mp hquote
      rfl
    rw [htext, readParts_entry hlabel (hkey _) (skipSpace_gap before (stops_cons rfl))
      (by rwa [skipSpace_gap gap hused])]
    exact hafter.reads more beyond (by omega)

theorem fills_empty (keyed : Bool) (depth : Nat) (inside : Gap) :
    Fills (depth + 1) (openBracket keyed :: (inside.chars ++ [closeBracket keyed]))
      (ofParts keyed []) where
  ne_nil := List.cons_ne_nil _ _
  reads more beyond hmore _ := by
    obtain _ | more := more
    · cases hmore
    rw [List.cons_append, List.append_assoc, List.singleton_append, readValue_open,
      skipSpace_gap inside (stops_cons (isSpace_closeBracket keyed)), List.head?_cons, if_pos rfl]
    rfl

theorem FillsParts.container (h : FillsParts keyed depth used js) (hstops : Stops isSpace used)
    (hclose : used.head? ≠ some (closeBracket keyed)) (before : Gap) :
    Fills (depth + 1) (openBracket keyed :: (before.chars ++ used)) (ofParts keyed js) where
  ne_nil := List.cons_ne_nil _ _
  reads more beyond hmore _ := by
    obtain _ | more := more
    · cases hmore
    simp only [List.length_append, List.length_cons] at hmore
    obtain ⟨c, cs, rfl⟩ := List.exists_cons_of_ne_nil h.ne_nil
    have hused : Stops isSpace (c :: cs ++ beyond) := stops_cons (hstops c rfl)
    have hhead : (c :: cs ++ beyond).head? ≠ some (closeBracket keyed) := hclose
    have hparts := h.reads more beyond (by simp only [List.length_cons] at hmore ⊢; omega)
    rw [List.cons_append, List.append_assoc, readValue_open, skipSpace_gap before hused,
      if_neg hhead, hparts]
    rfl

theorem fills_string {s : String} (hquote : used.head? = some '"')
    (hread : ∀ beyond, readString (used ++ beyond) = .ok (s, beyond)) :
    Fills depth used (.string s) where
  ne_nil := by
    rintro rfl
    cases hquote
  reads more beyond hmore _ := by
    obtain ⟨inside, rfl⟩ := List.head?_eq_some_iff.mp hquote
    obtain _ | more := more
    · cases hmore
    exact readValue_quote more depth rfl (hread beyond)

theorem Written.fills (v : Written) (hdepth : v.depth = 0) : Fills depth v.chars v.json where
  ne_nil := by
    obtain ⟨c, cs, hcons, -⟩ := v.exists_chars_cons
    simp [hcons]
  reads more beyond hmore hbeyond := by
    rcases hbeyond with ⟨keyed, hopen⟩ | hbeyond
    · cases v with
      | empty | container => cases hdepth
      | null | text => cases keyed <;> cases hopen
      | bool b => cases keyed <;> cases b <;> cases hopen
      | number n =>
        obtain ⟨c, cs, hcons, hc⟩ := n.exists_text_cons
        rw [Written.chars, hcons] at hopen
        cases hopen
        cases keyed <;> simp [openBracket] at hc
    · exact v.readValue_chars more depth hmore (hdepth ▸ Nat.zero_le depth) hbeyond

end

/-- What is read as a value in so many steps is read of its own characters. -/
def ValueFills (fuel : Nat) : Prop :=
  ∀ {depth : Nat} {cs rest : List Char} {j : Json}, readValue fuel depth cs = .ok (j, rest) →
    ∃ used, cs = used ++ rest ∧ Fills depth used j

/-- What is read as parts in so many steps is read of its own characters. -/
def PartsFill (fuel : Nat) : Prop :=
  ∀ {keyed : Bool} {depth : Nat} {cs rest : List Char} {js : List (String × Json)},
    readParts keyed fuel depth cs = .ok (js, rest) →
    ∃ used, cs = used ++ rest ∧ FillsParts keyed depth used js

/-- A text after blanks that is read up to its rest begins with no blank. -/
theorem stops_of_skipSpace {cs used : List Char} (h : skipSpace cs = used ++ rest)
    (hne : used ≠ []) : Stops isSpace used := by
  have hstops := stops_skipSpace cs
  rw [h] at hstops
  rw [← List.append_nil used]
  exact Stops.of_append hne hstops []

theorem valueFills_succ {fuel : Nat} (hparts : PartsFill fuel) : ValueFills (fuel + 1) := by
  intro depth cs rest j h
  cases readValue_eq_ok.mp h with
  | @empty depth inside _ keyed closed =>
    obtain ⟨g, hg⟩ := exists_gap inside
    refine ⟨_, ?_, fills_empty keyed depth g⟩
    rw [closed] at hg
    simp [hg]
  | @container depth inside _ js keyed unclosed read =>
    obtain ⟨g, hg⟩ := exists_gap inside
    obtain ⟨used, hused, hfills⟩ := hparts read
    have hclose : used.head? ≠ some (closeBracket keyed) := fun hclose =>
      unclosed (by rw [hused, List.head?_append, hclose]; rfl)
    refine ⟨_, ?_, hfills.container (stops_of_skipSpace hused hfills.ne_nil) hclose g⟩
    rw [hused] at hg
    simp [hg]
  | string read =>
    obtain ⟨used, hused, hhead, hall⟩ := readString_extent rfl read
    exact ⟨used, hused, fills_string hhead hall⟩
  | scalar _ _ read =>
    obtain ⟨v, htext, rfl, hdepth, -⟩ := exists_scalar read
    exact ⟨v.chars, htext, v.fills hdepth⟩

theorem partsFill_succ {fuel : Nat} (hvalue : ValueFills fuel) (hparts : PartsFill fuel) :
    PartsFill (fuel + 1) := by
  intro keyed depth cs rest js h
  -- the first part ends where a bracket or a comma and further parts begin
  have hafter {part : String × Json} {after : List Char}
      (h : readAfter keyed fuel depth part (skipSpace after) = .ok (js, rest)) :
      ∃ used, after = used ++ rest ∧ FillsAfter keyed depth part used js := by
    obtain ⟨before, hbefore⟩ := exists_gap after
    rcases readAfter_eq_ok h with ⟨hclose, rfl⟩ | ⟨body, others, hcomma, rfl, hothers⟩
    · refine ⟨_, ?_, fillsAfter_close before part⟩
      rw [hclose] at hbefore
      simp [hbefore]
    · obtain ⟨gap, hgap⟩ := exists_gap body
      obtain ⟨used, hused, hfills⟩ := hparts hothers
      refine ⟨_, ?_, hfills.after_comma (stops_of_skipSpace hused hfills.ne_nil) before gap part⟩
      rw [hcomma, hgap, hused] at hbefore
      simp [hbefore]
  cases keyed with
  | false =>
    obtain ⟨value, after, hread, hrest⟩ := exists_item h
    obtain ⟨used, rfl, hfills⟩ := hvalue hread
    obtain ⟨behind, rfl, hends⟩ := hafter hrest
    exact ⟨used ++ behind, (List.append_assoc ..).symm, hfills.item hends⟩
  | true =>
    obtain ⟨key, afterKey, afterColon, value, after, hquote, hkey, hcolon, hread, hrest⟩ :=
      exists_entry h
    obtain ⟨label, rfl, hhead, hall⟩ := readString_extent hquote hkey
    obtain ⟨before, hbefore⟩ := exists_gap afterKey
    obtain ⟨gap, hgap⟩ := exists_gap afterColon
    obtain ⟨used, hused, hfills⟩ := hvalue hread
    obtain ⟨behind, rfl, hends⟩ := hafter hrest
    have hstops := stops_of_skipSpace hused hfills.ne_nil
    refine ⟨_, ?_, hfills.entry hstops hhead hall before gap hends⟩
    rw [hcolon, hgap, hused] at hbefore
    simp [hbefore]

theorem fills (fuel : Nat) : ValueFills fuel ∧ PartsFill fuel := by
  induction fuel with
  | zero =>
    refine ⟨fun h => (by cases h), fun {keyed} _ _ _ _ h => ?_⟩
    cases keyed <;> cases h
  | succ fuel ih => exact ⟨valueFills_succ ih.2, partsFill_succ ih.1 ih.2⟩

/-- A container that is read is read of the same characters before any text. -/
theorem readValue_extent {fuel depth : Nat} {cs : List Char} {j : Json} (hopens : Opens cs)
    (h : readValue fuel depth cs = .ok (j, rest)) :
    ∃ used, cs = used ++ rest ∧ Opens used ∧ ∀ more beyond, 2 * used.length ≤ more →
      readValue more depth (used ++ beyond) = .ok (j, beyond) := by
  obtain ⟨used, rfl, hfills⟩ := (fills fuel).1 h
  have hused : Opens used := by
    obtain ⟨keyed, hopen⟩ := hopens
    obtain ⟨c, cs, rfl⟩ := List.exists_cons_of_ne_nil hfills.ne_nil
    exact ⟨keyed, hopen⟩
  exact ⟨used, rfl, hused, fun more beyond hmore => hfills.reads more beyond hmore (.inl hused)⟩

end StructuredOutput.Json

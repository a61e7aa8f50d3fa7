import StructuredOutput.Proofs.Content.Fence
import StructuredOutput.Proofs.Content.Serialize
import StructuredOutput.Proofs.Stream.Escapes

/-!
What is extracted of a block that holds the text of a tree. The search for the end of the block
knows nothing of strings: a fence inside a string or a key ends it, too, and then nothing is
extracted, since what is cut off inside a string cannot be parsed.
-/

namespace StructuredOutput

open Json Repair Text

variable {cs ds : List Char} {ts us : List String} {s : Style} {level : Nat}

/-! ### Quoted texts -/

/-- Text that consists of quoted texts and of characters that quote and fence nothing. -/
inductive Quoting : List String → List Char → Prop
  | nil : Quoting [] []
  | plain {ts : List String} {cs : List Char} {c : Char}
      (hc : c ≠ '"' ∧ c ≠ '\\' ∧ c ≠ backtick) (rest : Quoting ts cs) : Quoting ts (c :: cs)
  | text {ts : List String} {cs : List Char} (t : String) (rest : Quoting ts cs) :
      Quoting (t :: ts) (stringText false t.toList ++ cs)

theorem Quoting.append (h : Quoting ts cs) (h' : Quoting us ds) :
    Quoting (ts ++ us) (cs ++ ds) := by
  induction h with
  | nil => exact h'
  | plain hc _ ih => exact .plain hc ih
  | text t _ ih =>
    rw [List.append_assoc]
    exact .text t ih

theorem quoting_plain (h : ∀ c ∈ cs, c ≠ '"' ∧ c ≠ '\\' ∧ c ≠ backtick) : Quoting [] cs := by
  induction cs with
  | nil => exact .nil
  | cons c cs ih =>
    obtain ⟨hc, hcs⟩ := List.forall_mem_cons.mp h
    exact .plain hc (ih hcs)

theorem quoting_gap (g : Gap) : Quoting [] g.chars := by
  apply quoting_plain
  intro c hc
  have hspace := g.blank c hc
  refine ⟨?_, ?_, ?_⟩ <;> (rintro rfl; cases hspace)

theorem quoting_text (t : String) : Quoting [t] (stringText false t.toList) := by
  have htext := Quoting.text t .nil
  rwa [List.append_nil] at htext

/-! ### Backticks in quoted texts -/

theorem Json.WritesChar.walk {p : List Char} {c : Char} (h : WritesChar p c) :
    Place.inside.walk p = some .inside := by
  cases h with
  | plain quotable => simp [Place.walk_cons, Place.step, quotable]
  | escape stands => simp [Place.walk_cons, Place.step, ne_of_escaped? stands]
  | unit digits =>
    simp only [hexUnit?, Option.bind_eq_bind, Option.bind_eq_some_iff] at digits
    obtain ⟨x, hx, y, hy, z, hz, w, hw, -⟩ := digits
    simp [Place.walk_cons, Place.step, hx, hy, hz, hw]

/-- A backtick is not escaped, nor is it part of an escape. -/
theorem Json.WritesChar.eq_of_backtick {p : List Char} {c : Char} (h : WritesChar p c)
    (hp : backtick ∈ p) : p = [backtick] ∧ c = backtick := by
  cases h with
  | plain => exact ⟨by rw [List.mem_singleton.mp hp], (List.mem_singleton.mp hp).symm⟩
  | escape stands =>
    simp only [List.mem_cons, List.not_mem_nil, or_false] at hp
    rcases hp with hp | rfl
    · exact absurd hp (by decide)
    · cases stands
  | unit digits =>
    simp only [hexUnit?, Option.bind_eq_bind, Option.bind_eq_some_iff] at digits
    obtain ⟨x, hx, y, hy, z, hz, w, hw, -⟩ := digits
    simp only [List.mem_cons, List.not_mem_nil, or_false] at hp
    rcases hp with hp | hp | rfl | rfl | rfl | rfl
    · exact absurd hp (by decide)
    · exact absurd hp (by decide)
    · cases hx
    · cases hy
    · cases hz
    · cases hw

theorem escapedChar_backtick : escapedChar false backtick = [backtick] := by decide

theorem backtick_not_mem_escapedChar {c : Char} (hc : c ≠ backtick) :
    backtick ∉ escapedChar false c := fun hmem =>
  hc ((writesChar_escapedChar c).eq_of_backtick hmem).2

theorem stringText_append (cs rest : List Char) :
    stringText false cs ++ rest = '"' :: (cs.flatMap (escapedChar false) ++ '"' :: rest) := by
  simp [stringText]

theorem walk_quote (p : List Char) : Place.outside.walk ('"' :: p) = Place.inside.walk p :=
  Place.walk_of_step rfl p

theorem walk_flatMap (cs rest : List Char) :
    Place.inside.walk (cs.flatMap (escapedChar false) ++ rest) = Place.inside.walk rest := by
  induction cs with
  | nil => rfl
  | cons c cs ih =>
    rw [List.flatMap_cons, List.append_assoc, Place.walk_append, (writesChar_escapedChar c).walk,
      Option.bind_some, ih]

theorem walk_stringText (cs rest : List Char) :
    Place.outside.walk (stringText false cs ++ rest) = Place.outside.walk rest := by
  rw [stringText_append, walk_quote, walk_flatMap]
  exact Place.walk_of_step rfl rest

/-- A backtick after the opening quotation mark of a string lies in it or behind it. -/
theorem walk_string_before_backtick {cs rest front behind : List Char}
    (h : cs.flatMap (escapedChar false) ++ '"' :: rest = front ++ backtick :: behind) :
    Place.inside.walk front = some .inside ∨
      ∃ more, front = cs.flatMap (escapedChar false) ++ '"' :: more ∧
        rest = more ++ backtick :: behind := by
  induction cs generalizing front with
  | nil =>
    obtain _ | ⟨c, more⟩ := front
    · cases h
    · cases h
      exact .inr ⟨more, rfl, rfl⟩
  | cons c cs ih =>
    rw [List.flatMap_cons, List.append_assoc] at h
    rcases List.append_eq_append_iff.mp h with ⟨more, rfl, hmore⟩ | ⟨_ | ⟨d, more⟩, hchar, hbehind⟩
    · rw [Place.walk_append, (writesChar_escapedChar c).walk, Option.bind_some]
      rcases ih hmore with hinside | ⟨more, rfl, rfl⟩
      · exact .inl hinside
      · exact .inr ⟨more, by simp, rfl⟩
    · rw [List.append_nil] at hchar
      rw [← hchar]
      exact .inl (writesChar_escapedChar c).walk
    · obtain rfl : backtick = d := (List.cons.inj hbehind).1
      have halone := ((writesChar_escapedChar c).eq_of_backtick (by simp [hchar])).1
      have hfront : front = [] := by
        have hlength := congrArg List.length (hchar.symm.trans halone)
        simp only [List.length_append, List.length_cons, List.length_nil] at hlength
        exact List.length_eq_zero_iff.mp (by omega)
      rw [hfront]
      exact .inl rfl

/-- Before any backtick of a quoting text one is inside a string. -/
theorem Quoting.walk_before_backtick (h : Quoting ts cs) {front behind : List Char}
    (hcs : cs = front ++ backtick :: behind) : Place.outside.walk front = some .inside := by
  induction h generalizing front with
  | nil => simp at hcs
  | @plain ts cs c hc rest ih =>
    obtain _ | ⟨d, front⟩ := front
    · exact absurd (List.cons.inj hcs).1 hc.2.2
    · obtain ⟨rfl, htail⟩ := List.cons.inj hcs
      have hstep : Place.outside.step c = some .outside := by
        rw [Place.step, if_neg hc.1, if_neg hc.2.1]
      rw [Place.walk_of_step hstep, ih htail]
  | text t rest ih =>
    rw [stringText_append] at hcs
    obtain _ | ⟨d, front⟩ := front
    · cases hcs
    obtain ⟨rfl, htail⟩ := List.cons.inj hcs
    rcases walk_string_before_backtick htail with hinside | ⟨more, rfl, hmore⟩
    · rw [walk_quote, hinside]
    · rw [← stringText_append, walk_stringText, ih hmore]

/-! ### Fences in quoted texts -/

theorem backticks_prefix_iff (n : Nat) (cs : List Char) :
    List.replicate n backtick <+: cs.flatMap (escapedChar false) ↔
      List.replicate n backtick <+: cs := by
  induction n generalizing cs with
  | zero => simp
  | succ n ih =>
    obtain _ | ⟨c, cs⟩ := cs
    · rfl
    rw [List.flatMap_cons, List.replicate_succ]
    by_cases hc : c = backtick
    · rw [hc, escapedChar_backtick, List.singleton_append, List.cons_prefix_cons,
        List.cons_prefix_cons, ih]
    · refine iff_of_false (fun h => ?_) fun h => hc (List.cons_prefix_cons.mp h).1.symm
      have hnot := backtick_not_mem_escapedChar hc
      cases hchar : escapedChar false c with
      | nil =>
        have hwalk := writesChar_escapedChar c
        rw [hchar] at hwalk
        cases hwalk
      | cons d ds =>
        rw [hchar] at h hnot
        exact hnot ((List.cons_prefix_cons.mp h).1 ▸ List.mem_cons_self)

theorem fence_infix_flatMap (cs : List Char) :
    fence <:+: cs.flatMap (escapedChar false) ↔ fence <:+: cs := by
  induction cs with
  | nil => rfl
  | cons c cs ih =>
    by_cases hc : c = backtick
    · have hbegins := backticks_prefix_iff 3 (c :: cs)
      rw [List.infix_cons_iff, ← ih, ← show _ ↔ fence <+: c :: cs from hbegins, List.flatMap_cons,
        hc, escapedChar_backtick, List.singleton_append, List.infix_cons_iff]
      rfl
    · rw [List.flatMap_cons, fence_infix_append (backtick_not_mem_escapedChar hc), ih]
      have hfront : backtick ∉ [c] := by simpa using Ne.symm hc
      exact (fence_infix_append hfront cs).symm

theorem fence_infix_stringText (cs rest : List Char) :
    fence <:+: stringText false cs ++ rest ↔ fence <:+: cs ∨ fence <:+: rest := by
  have hquote : backtick ∉ ['"'] := by decide
  rw [stringText_append, ← List.singleton_append, fence_infix_append hquote,
    infix_append_cons_iff (by decide), fence_infix_flatMap]

/-- A fence stands in a quoting text just if it stands in one of the texts that are quoted. -/
theorem Quoting.fence_infix_iff (h : Quoting ts cs) :
    fence <:+: cs ↔ ∃ t ∈ ts, fence <:+: t.toList := by
  induction h with
  | nil => exact iff_of_false (by decide) (by simp)
  | @plain ts cs c hc rest ih =>
    rw [← ih]
    have hfront : backtick ∉ [c] := by simpa using Ne.symm hc.2.2
    exact fence_infix_append hfront cs
  | text t rest ih => rw [fence_infix_stringText, ih, List.exists_mem_cons_iff]

/-! ### The text of a tree -/

namespace Content

mutual

/-- The strings and the keys of a tree. -/
def texts : Content → List String
  | null | bool _ | number _ => []
  | string t => [t]
  | array items => itemsTexts items
  | object entries => entriesTexts entries

def itemsTexts : List Content → List String
  | [] => []
  | c :: cs => texts c ++ itemsTexts cs

def entriesTexts : List (String × Content) → List String
  | [] => []
  | (key, c) :: es => key :: (texts c ++ entriesTexts es)

end

theorem itemsTexts_eq_flatMap (items : List Content) : itemsTexts items = items.flatMap texts := by
  induction items with
  | nil => rfl
  | cons c cs ih => rw [itemsTexts, ih, List.flatMap_cons]

theorem entriesTexts_eq_flatMap (entries : List (String × Content)) :
    entriesTexts entries = entries.flatMap fun e => e.1 :: texts e.2 := by
  induction entries with
  | nil => rfl
  | cons e es ih => rw [entriesTexts, ih, List.flatMap_cons, List.cons_append]

end Content

theorem quoting_intercalate {α : Type} {separator : List Char} (hseparator : Quoting [] separator)
    {xs : List α} {texts : α → List String} {written : α → List Char}
    (each : ∀ x ∈ xs, Quoting (texts x) (written x)) :
    Quoting (xs.flatMap texts) (List.intercalate separator (xs.map written)) := by
  induction xs with
  | nil => exact .nil
  | cons x xs ih =>
    obtain ⟨hx, hxs⟩ := List.forall_mem_cons.mp each
    obtain _ | ⟨y, xs⟩ := xs
    · simpa using hx
    · rw [List.flatMap_cons, List.map_cons, List.map_cons, List.intercalate_cons_cons,
        ← List.map_cons, List.append_assoc]
      exact hx.append (hseparator.append (ih hxs))

theorem quoting_brackets (keyed : Bool) :
    Quoting [] [openBracket keyed] ∧ Quoting [] [closeBracket keyed] := by
  cases keyed <;>
    exact ⟨quoting_plain (by simp [openBracket, backtick]),
      quoting_plain (by simp [closeBracket, backtick])⟩

theorem quoting_enclose {α : Type} (keyed : Bool) {xs : List α} {part : α → String × Json}
    {texts : α → List String}
    (each : ∀ x ∈ xs, Quoting (texts x) (partText s (level + 1) keyed (part x))) :
    Quoting (xs.flatMap texts) (s.enclose level (openBracket keyed) (closeBracket keyed)
      ((xs.map part).map (partText s (level + 1) keyed))) := by
  obtain ⟨hopen, hclose⟩ := quoting_brackets keyed
  obtain _ | ⟨x, xs⟩ := xs
  · exact hopen.append hclose
  have hparts : (x :: xs).map part ≠ [] := List.cons_ne_nil _ _
  obtain ⟨before, after, htext⟩ := exists_enclose s level keyed hparts
  have hseparator : Quoting [] (',' :: before.chars) := .plain (by decide) (quoting_gap before)
  have hinside := quoting_intercalate hseparator each
  rw [← Function.comp_def (partText s (level + 1) keyed) part, ← List.map_map] at hinside
  have hend := (quoting_gap after).append hclose
  have hwhole := hopen.append ((quoting_gap before).append (hinside.append hend))
  rw [htext]
  simpa using hwhole

/-- The text of a tree quotes the strings and the keys of the tree. -/
theorem quoting_text_toJson (hs : s.Plain) (c : Content) (level : Nat) :
    Quoting c.texts (Json.text s level c.toJson) := by
  induction c using Content.members_induction generalizing level with
  | null =>
    rw [Content.toJson, Json.text]
    exact quoting_plain (by simp [backtick])
  | bool b =>
    rw [Content.toJson]
    cases b <;> (rw [Json.text]; exact quoting_plain (by simp [backtick]))
  | number x =>
    obtain ⟨n, htext, -⟩ := Content.exists_numeral_of_number x hs level
    rw [Content.toJson, ← htext]
    refine quoting_plain fun c hc => ?_
    have hnumeral := n.isNumeral_of_mem hc
    exact ⟨ne_of_isNumeral hnumeral rfl, ne_of_isNumeral hnumeral rfl, ne_of_isNumeral hnumeral rfl⟩
  | string t =>
    rw [Content.toJson, Json.text, hs.asciiOnly]
    exact quoting_text t
  | array items ih =>
    have hparts : (Content.toItems items).map (fun j => ("", j)) =
        items.map fun c => ("", c.toJson) := by
      rw [Content.toItems_eq_map, List.map_map]
      rfl
    rw [Content.toJson, Json.text, itemTexts_eq, hparts, Content.texts,
      Content.itemsTexts_eq_flatMap]
    exact quoting_enclose false fun c hc => ih c hc (level + 1)
  | object entries ih =>
    rw [Content.toJson, Json.text, entryTexts_eq, Content.toEntries_eq_map,
      Content.texts, Content.entriesTexts_eq_flatMap]
    refine quoting_enclose true fun e he => ?_
    obtain ⟨gap, hcolon⟩ := hs.colon
    have hgap : Quoting [] (':' :: gap.chars) := .plain (by decide) (quoting_gap gap)
    have hkey := (quoting_text e.1).append (hgap.append (ih e he (level + 1)))
    rw [partText, if_pos rfl, hs.asciiOnly, hcolon, List.append_assoc]
    exact hkey

/-! ### Trimming -/

/-- A text that is outside of strings at its end is so with blanks around it, too. -/
theorem walk_of_trim (h : Place.outside.walk (trim cs) = some .outside) :
    Place.outside.walk cs = some .outside := by
  have hblanks : Plain ((trimLeft cs).reverse.takeWhile isBlank).reverse := by
    obtain ⟨hquote, hbackslash⟩ := plain_blanks (trimLeft cs).reverse
    exact ⟨by simpa using hquote, by simpa using hbackslash⟩
  have hsplit : trimLeft cs = trim cs ++ ((trimLeft cs).reverse.takeWhile isBlank).reverse := by
    rw [trim, trimRight, ← List.reverse_append, List.takeWhile_append_dropWhile,
      List.reverse_reverse]
  rw [← walk_trimLeft, hsplit]
  exact walk_append_plain h hblanks

/-- Trimming takes a line break behind a text away, and no more if the text has no blanks at its
ends. -/
theorem trim_line {last : Char} {front : List Char} (hstart : Stops isBlank (front ++ [last]))
    (hlast : isBlank last = false) : trim (front ++ [last] ++ ['\n']) = front ++ [last] := by
  have hleft : trimLeft (front ++ [last] ++ ['\n']) = front ++ [last] ++ ['\n'] := by
    obtain ⟨c, cs, hcons⟩ := List.exists_cons_of_ne_nil (show front ++ [last] ≠ [] by simp)
    rw [hcons] at hstart ⊢
    rw [trimLeft, List.cons_append, List.dropWhile_cons_of_neg (by simp [hstart c rfl])]
  have hbreak : isBlank '\n' = true := by decide
  rw [trim, hleft, trimRight, List.reverse_append, List.reverse_singleton,
    List.singleton_append, List.dropWhile_cons_of_pos hbreak, reverse_last hlast]
  simp

/-- No blank stands behind the text of a tree. -/
theorem exists_text_concat (hs : s.Plain) (c : Content) (level : Nat) :
    ∃ front last, Json.text s level c.toJson = front ++ [last] ∧ isBlank last = false := by
  have henclosed (keyed : Bool) (parts : List (List Char)) : ∃ front last,
      s.enclose level (openBracket keyed) (closeBracket keyed) parts = front ++ [last] ∧
        isBlank last = false := by
    unfold Style.enclose
    split
    · exact ⟨[openBracket keyed], _, rfl, (isBlank_bracket keyed).2⟩
    · exact ⟨_, _, rfl, (isBlank_bracket keyed).2⟩
  cases c with
  | null =>
    rw [Content.toJson, Json.text]
    exact ⟨"nul".toList, 'l', rfl, rfl⟩
  | bool b =>
    rw [Content.toJson]
    cases b with
    | false => exact ⟨"fals".toList, 'e', by rw [Json.text]; rfl, rfl⟩
    | true => exact ⟨"tru".toList, 'e', by rw [Json.text]; rfl, rfl⟩
  | number x =>
    obtain ⟨n, htext, -⟩ := Content.exists_numeral_of_number x hs level
    obtain ⟨c, cs, hcons, -⟩ := n.exists_text_cons
    have hne : n.text ≠ [] := by simp [hcons]
    rw [Content.toJson, ← htext]
    refine ⟨_, _, (List.dropLast_append_getLast hne).symm, ?_⟩
    rcases isNumeral_cases (n.isNumeral_of_mem (List.getLast_mem hne)) with
      hdigit | h | h | h | h | h
    · exact isBlank_of_isDigit hdigit
    all_goals
      rw [h]
      rfl
  | string t =>
    rw [Content.toJson, Json.text]
    exact ⟨_, '"', rfl, rfl⟩
  | array items =>
    rw [Content.toJson, Json.text]
    exact henclosed false _
  | object entries =>
    rw [Content.toJson, Json.text]
    exact henclosed true _

/-! ### Blocks -/

/-- A text with a payload between fences, the opener and the closing fence on lines of their own. -/
def fencedText (before payload after : List Char) : List Char :=
  before ++ (fence ++ ("json\n".toList ++ (payload ++ '\n' :: (fence ++ after))))

/-- What a fence cuts off of a quoting text is not parsed. -/
theorem Quoting.not_parse_cut (h : Quoting ts cs) {block more : List Char}
    (hcs : cs = block ++ (fence ++ more)) (c : Content) : Content.parse (trim block) ≠ .ok c := by
  intro hparse
  obtain ⟨j, hread, -⟩ := Content.parse_eq_ok.mp hparse
  obtain ⟨-, -, hwalk, -⟩ := exists_masked_document hread
  have hinside : Place.outside.walk block = some .inside := h.walk_before_backtick hcs
  rw [walk_of_trim hwalk] at hinside
  cases hinside

/-- A tree in a block is extracted just if no string and no key of it has a fence inside; otherwise
nothing is extracted. -/
theorem extract_fencedText_iff {c : Content} (hkeys : c.KeysDiffer)
    (hdepth : c.depth ≤ nestingLimit) (indent : Option Nat) {before : List Char}
    (hbefore : ∀ opener, IsOpener opener → ¬opener <:+: before) (after : List Char) :
    ((∃ d, Content.extract (fencedText before (c.serialize indent).toList after) = .ok d ∧
        d.same c = true) ↔ ∀ t ∈ c.texts, ¬fence <:+: t.toList) ∧
      ∀ d, Content.extract (fencedText before (c.serialize indent).toList after) = .ok d →
        d = c.positiveZeros := by
  have hs := plain_styleFor indent
  have htext : (c.serialize indent).toList = Json.text (styleFor indent) 0 c.toJson := by
    rw [Content.serialize, write, String.toList_ofList]
  have hquoting := quoting_text_toJson hs c 0
  rw [← htext] at hquoting
  obtain ⟨first, others, hfirst, hbegins⟩ :=
    (Content.rereads_toJson hs c hkeys 0 (Nat.le_refl c.depth)).begins
  rw [← htext] at hfirst
  have hblank := isBlank_of_beginsValue hbegins
  have hrest : Stops isBlank ((c.serialize indent).toList ++ '\n' :: (fence ++ after)) := by
    rw [hfirst]
    exact stops_cons hblank
  by_cases hfence : ∃ t ∈ c.texts, fence <:+: t.toList
  · obtain ⟨block, more, huntil, hcut⟩ :=
      exists_untilFence? (hquoting.fence_infix_iff.mpr hfence) ('\n' :: (fence ++ after))
    have hnot (d : Content) :
        Content.extract (fencedText before (c.serialize indent).toList after) ≠ .ok d := by
      rw [fencedText, extract_eq_parse_block hbefore hrest huntil]
      exact hquoting.not_parse_cut hcut d
    refine ⟨iff_of_false ?_ ?_, fun d hd => absurd hd (hnot d)⟩
    · rintro ⟨d, hd, -⟩
      exact hnot d hd
    · intro h
      obtain ⟨t, ht, hinfix⟩ := hfence
      exact h t ht hinfix
  · have hfree : ¬fence <:+: (c.serialize indent).toList :=
      fun h => hfence (hquoting.fence_infix_iff.mp h)
    have huntil := untilFence?_append (by decide : '\n' ≠ backtick) hfree after
    obtain ⟨front, last, hlast, hlastBlank⟩ := exists_text_concat hs c 0
    rw [← htext] at hlast
    have htrim : trim ((c.serialize indent).toList ++ ['\n']) = (c.serialize indent).toList := by
      have hstart : Stops isBlank (c.serialize indent).toList := by
        rw [hfirst]
        exact stops_cons hblank
      rw [hlast] at hstart ⊢
      exact trim_line hstart hlastBlank
    have hextract : Content.extract (fencedText before (c.serialize indent).toList after) =
        .ok c.positiveZeros := by
      rw [fencedText, extract_eq_parse_block hbefore hrest huntil, htrim,
        Content.parse_serialize hkeys hdepth indent]
    refine ⟨iff_of_true ⟨_, hextract, Content.same_positiveZeros c⟩ ?_, fun d hd => ?_⟩
    · exact fun t ht hinfix => hfence ⟨t, ht, hinfix⟩
    · rw [hextract] at hd
      exact (Except.ok.inj hd).symm

/-- Backticks in a string and in a key, but no three of them in a row. -/
def tickedNote : Content :=
  .object [("x ``y``", .array [.null, .bool true]), ("``", .string "a `b` c")]

theorem extract_fencedText_iff_tickedNote :
    (tickedNote.KeysDiffer ∧ tickedNote.depth ≤ nestingLimit ∧
      ∀ opener, IsOpener opener → ¬opener <:+: "So `it` is:\n".toList) ∧
    ((∃ d, Content.extract (fencedText "So `it` is:\n".toList
        (tickedNote.serialize (some 2)).toList " ```json\n[]```".toList) = .ok d ∧
        d.same tickedNote = true) ↔ ∀ t ∈ tickedNote.texts, ¬fence <:+: t.toList) := by
  have hkeys : tickedNote.KeysDiffer := by
    simp [tickedNote, Content.KeysDiffer, Content.ItemsDiffer, Content.EntriesDiffer, Entries.names]
  have hdepth : tickedNote.depth ≤ nestingLimit := by decide
  have hbefore : ∀ opener, IsOpener opener → ¬opener <:+: "So `it` is:\n".toList := by
    intro opener hopener hinfix
    obtain ⟨d, tail, rfl, -⟩ := hopener.exists_tail
    have hfence := (List.prefix_append fence (d :: tail)).isInfix.trans hinfix
    revert hfence
    decide +kernel
  exact ⟨⟨hkeys, hdepth, hbefore⟩, (extract_fencedText_iff hkeys hdepth (some 2) hbefore _).1⟩

/-- A string that holds a fence. -/
def fencedNote : Content := .object [("a", .string "```")]

theorem not_extract_fencedText :
    ¬∀ (c : Content) (indent : Option Nat) (before after : List Char), c.KeysDiffer →
      c.depth ≤ nestingLimit → (∀ opener, IsOpener opener → ¬opener <:+: before) →
      ∃ d, Content.extract (fencedText before (c.serialize indent).toList after) = .ok d ∧
        d.same c = true := by
  intro h
  have hkeys : fencedNote.KeysDiffer := by
    simp [fencedNote, Content.KeysDiffer, Content.EntriesDiffer, Entries.names]
  have hbefore : ∀ opener, IsOpener opener → ¬opener <:+: [] := by
    rintro opener ⟨word, blanks, rfl, -⟩ hinfix
    simp [fence_eq] at hinfix
  obtain ⟨d, hd, -⟩ := h fencedNote none [] [] hkeys (by decide) hbefore
  have herror : (Content.extract
      (fencedText [] (fencedNote.serialize none).toList [])).isOk = false := by decide +kernel
  rw [hd] at herror
  cases herror

end StructuredOutput

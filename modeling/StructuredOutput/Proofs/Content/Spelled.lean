import StructuredOutput.Proofs.Content.Serialize
import StructuredOutput.Proofs.Json.Parsing
import StructuredOutput.Proofs.Json.Unambiguous

/-!
The text of a tree repeats no key when the tree does not: without `\u` it is the text of a written
value, and a text is written in one way.
-/

namespace StructuredOutput

namespace Json

open Text

variable {s : Style} {level : Nat} {keyed : Bool} {rest : List Char}

/-- The text of a value is that of a written one without repeated keys, where neither the text nor
what follows has a `\u`. -/
def Spelled (s : Style) (level : Nat) (j : Json) : Prop :=
  ∀ rest, noUnicodeEscape false (text s level j ++ rest) = true →
    (∃ v : Written, v.chars = text s level j ∧ v.KeysDiffer) ∧ noUnicodeEscape false rest = true

/-! ### Scalars -/

theorem spelled_of_unquoted {j : Json} {v : Written} (htext : v.chars = text s level j)
    (hkeys : v.KeysDiffer) (hquote : '"' ∉ v.chars) : Spelled s level j := by
  intro rest hfree
  rw [← htext, noUnicodeEscape_append hquote] at hfree
  exact ⟨⟨v, htext, hkeys⟩, hfree⟩

theorem spelled_null : Spelled s level .null :=
  spelled_of_unquoted (v := .null) (by rw [text]; rfl) trivial (by decide)

theorem spelled_bool (b : Bool) : Spelled s level (.bool b) := by
  apply spelled_of_unquoted (v := .bool b)
  · cases b <;> (rw [text]; rfl)
  · trivial
  · cases b <;> decide

theorem spelled_numeral {j : Json} {n : Numeral} (htext : n.text = text s level j) :
    Spelled s level j :=
  spelled_of_unquoted (v := .number n) htext trivial n.quote_not_mem

/-- A printed string is written in pieces. -/
theorem exists_pieces_of_stringText (t : String)
    (hfree : noUnicodeEscape false (stringText false t.toList ++ rest) = true) :
    ∃ pieces, quotedText pieces = stringText false t.toList ∧ stringOf pieces = t ∧
      noUnicodeEscape false rest = true := by
  obtain ⟨pieces, htext, hstring, hrest⟩ :=
    exists_quotedText (readString_stringText t.toList rest) hfree
  refine ⟨pieces, ?_, ?_, hrest⟩
  · exact (List.append_cancel_right htext).symm
  · rw [hstring, String.ofList_toList]

theorem spelled_string (hs : s.Plain) (t : String) : Spelled s level (.string t) := by
  intro rest hfree
  rw [text, hs.asciiOnly] at hfree ⊢
  obtain ⟨pieces, htext, -, hrest⟩ := exists_pieces_of_stringText t hfree
  exact ⟨⟨.text pieces, htext, trivial⟩, hrest⟩

/-! ### Containers -/

/-- A printed part is written with a label. -/
theorem exists_label_of_partText (hs : s.Plain) (part : String × Json)
    (hfree : noUnicodeEscape false (partText s level keyed part ++ rest) = true) :
    ∃ label : Label keyed, label.text ++ text s level part.2 = partText s level keyed part ∧
      (keyed = true → label.name = part.1) ∧
        noUnicodeEscape false (text s level part.2 ++ rest) = true := by
  obtain ⟨name, j⟩ := part
  cases keyed with
  | false =>
    have hname (h : false = true) : (Label.none).name = name := Bool.noConfusion h
    exact ⟨.none, rfl, hname, hfree⟩
  | true =>
    obtain ⟨gap, hcolon⟩ := hs.colon
    have htext : partText s level true (name, j) =
        stringText false name.toList ++ ':' :: (gap.chars ++ text s level j) := by
      simp [partText, hs.asciiOnly, hcolon]
    rw [htext, List.append_assoc, List.cons_append, List.append_assoc] at hfree
    obtain ⟨pieces, hpieces, hname, hafter⟩ := exists_pieces_of_stringText name hfree
    have hvalue := noUnicodeEscape_tail (by decide) hafter
    rw [noUnicodeEscape_gap] at hvalue
    refine ⟨.key pieces .none gap, ?_, fun _ => hname, hvalue⟩
    rw [htext, ← hpieces]
    simp [Label.text, Gap.none]

/-- The printed parts of a container are written up to its closing bracket. -/
theorem exists_parts_of_texts (hs : s.Plain) {parts : List (String × Json)} (hne : parts ≠ [])
    (each : ∀ part ∈ parts, Spelled s level part.2) (gap after : Gap)
    (hfree : noUnicodeEscape false (List.intercalate (',' :: gap.chars)
      (parts.map (partText s level keyed)) ++ (after.chars ++ closeBracket keyed :: rest)) = true) :
    (∃ p : Parts keyed, p.chars = List.intercalate (',' :: gap.chars)
        (parts.map (partText s level keyed)) ++ (after.chars ++ [closeBracket keyed]) ∧
      (keyed = true → Entries.names p.json = Entries.names parts) ∧ p.KeysDiffer) ∧
        noUnicodeEscape false rest = true := by
  induction parts with
  | nil => exact absurd rfl hne
  | cons part parts ih =>
    have hpart := each part List.mem_cons_self
    cases parts with
    | nil =>
      simp only [List.map_cons, List.map_nil, List.intercalate_singleton] at hfree ⊢
      obtain ⟨label, hlabel, hname, hvalue⟩ := exists_label_of_partText hs part hfree
      obtain ⟨⟨v, hv, hkeys⟩, hafter⟩ := hpart _ hvalue
      rw [noUnicodeEscape_gap] at hafter
      refine ⟨⟨.last label v after, ?_, fun h => ?_, hkeys⟩,
        noUnicodeEscape_tail (closeBracket_ne_quote keyed) hafter⟩
      · rw [Parts.chars, hv, ← List.append_assoc, hlabel]
      · simp [Parts.json, hname h]
    | cons next parts =>
      rw [List.map_cons, List.map_cons, List.intercalate_cons_cons, ← List.map_cons] at hfree ⊢
      rw [List.append_assoc, List.append_assoc, List.cons_append] at hfree
      obtain ⟨label, hlabel, hname, hvalue⟩ := exists_label_of_partText hs part hfree
      obtain ⟨⟨v, hv, hkeys⟩, hafter⟩ := hpart _ hvalue
      have hothers := noUnicodeEscape_tail (by decide) hafter
      rw [noUnicodeEscape_gap] at hothers
      obtain ⟨⟨p, hp, hnames, hdiffer⟩, hrest⟩ := ih (List.cons_ne_nil _ _)
        (fun q hq => each q (List.mem_cons_of_mem _ hq)) hothers
      refine ⟨⟨.more label v .none gap p, ?_, fun h => ?_, hkeys, hdiffer⟩, hrest⟩
      · rw [Parts.chars, hv, hp, ← List.append_assoc, hlabel]
        simp [Gap.none]
      · rw [Parts.json]
        exact congrArg₂ List.cons (hname h) (hnames h)

theorem spelled_container (hs : s.Plain) (keyed : Bool) (parts : List (String × Json))
    (hkeys : keyed = true → (Entries.names parts).Nodup)
    (each : ∀ part ∈ parts, Spelled s (level + 1) part.2) {j : Json}
    (htext : text s level j = s.enclose level (openBracket keyed) (closeBracket keyed)
      (parts.map (partText s (level + 1) keyed))) : Spelled s level j := by
  intro rest hfree
  rw [htext] at hfree ⊢
  by_cases hne : parts = []
  · subst hne
    have hclose := noUnicodeEscape_tail (openBracket_ne_quote keyed) hfree
    exact ⟨⟨.empty keyed .none, rfl, trivial⟩,
      noUnicodeEscape_tail (closeBracket_ne_quote keyed) hclose⟩
  · obtain ⟨before, after, hinside⟩ := exists_enclose s level keyed hne
    rw [hinside] at hfree ⊢
    rw [List.cons_append, List.append_assoc, List.append_assoc, List.append_assoc] at hfree
    have hparts := noUnicodeEscape_tail (openBracket_ne_quote keyed) hfree
    rw [noUnicodeEscape_gap] at hparts
    obtain ⟨⟨p, hp, hnames, hdiffer⟩, hrest⟩ := exists_parts_of_texts hs hne each before after hparts
    refine ⟨⟨.container keyed before p, ?_, fun h => ?_, hdiffer⟩, hrest⟩
    · rw [Written.chars, hp]
      rfl
    · rw [hnames h]
      exact hkeys h

end Json

namespace Content

open Json

theorem spelled_toJson {s : Style} (hs : s.Plain) (c : Content) (hkeys : c.KeysDiffer)
    (level : Nat) : Spelled s level c.toJson := by
  induction c using members_induction generalizing level with
  | null => exact spelled_null
  | bool b => exact spelled_bool b
  | number x =>
    obtain ⟨n, htext, -⟩ := exists_numeral_of_number x hs level
    exact spelled_numeral htext
  | string t => exact spelled_string hs t
  | array items ih =>
    apply spelled_container hs false ((toItems items).map fun j => ("", j))
    · intro h
      cases h
    · rw [toItems_eq_map, List.map_map]
      refine List.forall_mem_map.mpr fun c hc => ?_
      exact ih c hc (itemsDiffer_iff.mp hkeys c hc) (level + 1)
    · rw [toJson, Json.text, itemTexts_eq]
      rfl
  | object entries ih =>
    apply spelled_container hs true (toEntries entries)
    · intro _
      rw [names_toEntries]
      exact hkeys.1
    · rw [toEntries_eq_map]
      refine List.forall_mem_map.mpr fun e he => ?_
      exact ih e he (entriesDiffer_iff.mp hkeys.2 e he) (level + 1)
    · rw [toJson, Json.text, entryTexts_eq]
      rfl

/-- No object in the text of a tree repeats a key when none in the tree does. -/
theorem keysDiffer_of_serialize {c : Content} (hkeys : c.KeysDiffer) {indent : Option Nat}
    (hfree : noUnicodeEscape false (c.serialize indent).toList = true) {d : Document}
    (hd : d.chars = (c.serialize indent).toList) : d.value.KeysDiffer := by
  have hwritten : (c.serialize indent).toList = Json.text (styleFor indent) 0 c.toJson := by
    rw [serialize, write, String.toList_ofList]
  rw [hwritten] at hfree hd
  rw [← List.append_nil (Json.text _ _ _)] at hfree
  obtain ⟨⟨v, hv, hdiffer⟩, -⟩ := spelled_toJson (plain_styleFor indent) c hkeys 0 [] hfree
  apply Document.keysDiffer_of_chars (d := ⟨.none, v, .none⟩) _ hdiffer
  rw [hd, ← hv]
  exact List.append_nil _

end Content

end StructuredOutput

import Mathlib
import StructuredOutput.Content.Parse
import StructuredOutput.Proofs.Content.Truncation
import StructuredOutput.Proofs.Json.Parsing
import StructuredOutput.Proofs.Json.Unambiguous
import StructuredOutput.Proofs.Stream.Closing

/-!
Repairing a text that ends anywhere inside a document yields the text of what remains of its value,
which reads as a truncation of the whole, the longer the text the less is cut off.
-/

namespace StructuredOutput.Repair

open Json Text

variable {cs : List Char} {keyed : Bool} {n : Nat}

/-! ### Trimming -/

theorem trim_gap (g : Gap) : trim g.chars = [] := by
  have hblank : ∀ c ∈ g.chars, isBlank c = true := fun c hc => isBlank_of_isSpace (g.blank c hc)
  rw [trim, trimLeft, List.dropWhile_eq_nil_iff.mpr hblank]
  rfl

/-- The kind of container that a value is. -/
def rootKind : Written → Option Bool
  | .empty keyed _ | .container keyed _ _ => some keyed
  | _ => none

theorem exists_root_chars {v : Written} (h : rootKind v = some keyed) :
    (∃ ds, v.chars = openBracket keyed :: ds) ∧ ∃ ds, v.chars = ds ++ [closeBracket keyed] := by
  cases v with
  | empty k inside =>
    cases h
    exact ⟨⟨_, rfl⟩, openBracket keyed :: inside.chars, rfl⟩
  | container k before parts =>
    cases h
    obtain ⟨ds, hds⟩ := exists_parts_concat parts rfl
    exact ⟨⟨_, rfl⟩, openBracket keyed :: (before.chars ++ ds), by simp [Written.chars, hds]⟩
  | null | bool | number | text => cases h

theorem isBlank_bracket (keyed : Bool) :
    isBlank (openBracket keyed) = false ∧ isBlank (closeBracket keyed) = false := by
  cases keyed <;> exact ⟨rfl, rfl⟩

/-- Trimming takes away the blanks around a container. -/
theorem trim_root {v : Written} (h : rootKind v = some keyed) (before after : Gap) :
    trim (before.chars ++ (v.chars ++ after.chars)) = v.chars := by
  obtain ⟨⟨ds, hopen⟩, es, hclose⟩ := exists_root_chars h
  have hbefore : ∀ c ∈ before.chars, isBlank c = true := fun c hc =>
    isBlank_of_isSpace (before.blank c hc)
  have hleft : trimLeft (before.chars ++ (v.chars ++ after.chars)) = v.chars ++ after.chars := by
    rw [trimLeft, List.dropWhile_append_of_pos hbefore, hopen, List.cons_append,
      List.dropWhile_cons_of_neg (by rw [(isBlank_bracket keyed).1]; exact Bool.false_ne_true)]
  rw [trim, hleft, trimRight, reverse_gap, hclose, reverse_last (isBlank_bracket keyed).2]
  simp

/-! ### Repairing -/

theorem repair_eq {o last : Opened} {os : List Opened} (hopened : (scan cs).opened = o :: os)
    (hlast : (o :: os).getLast? = some last) :
    repair cs =
      match trim (closing (scan cs) cs) with
      | [] => [openBracket last.isObject, closeBracket last.isObject]
      | result => result := by
  have hbrackets (ds : List Char) :
      (match ds with
        | [] => if last.isObject then ['\x7b', '\x7d'] else ['[', ']']
        | result => result) =
      match ds with
        | [] => [openBracket last.isObject, closeBracket last.isObject]
        | result => result := by
    cases ds with
    | nil => cases last.isObject <;> rfl
    | cons d ds => rfl
  rw [closing_eq hopened rfl]
  unfold repair
  simp only [hopened, hlast]
  by_cases hcomplete : isComplete o (closeString (scan cs) cs) = true
  · rw [if_pos hcomplete, if_pos hcomplete]
    exact hbrackets _
  · rw [if_neg hcomplete, if_neg hcomplete]
    exact hbrackets _

/-- What is repaired of a text in which a container is still open. -/
theorem repair_of_closes {s : Scan} {result : List Char} {o : Opened} (hs : scan cs = s)
    (h : Closes s cs [o] result) :
    repair cs =
      match trim result with
      | [] => [openBracket o.isObject, closeBracket o.isObject]
      | result => result := by
  subst hs
  obtain ⟨ts, hts⟩ := h.opened
  cases hopened : (scan cs).opened with
  | nil => simp [hopened, kinds] at hts
  | cons p ps =>
    have hlast : (p :: ps).getLast?.map Opened.isObject = some o.isObject := by
      rw [← List.getLast?_map, ← hopened]
      change (kinds (scan cs).opened).getLast? = _
      rw [← hts]
      simp [kinds]
    obtain ⟨last, hlast, hkind⟩ := Option.map_eq_some_iff.mp hlast
    rw [repair_eq hopened hlast, h.text, hkind]

/-- A text without open containers is only trimmed. -/
theorem repair_of_closed (h : scan cs = outside cs []) : repair cs = trim cs := by
  rw [repair, h]
  rfl

/-- What remains of the outermost container of a document of which `n` characters are known. -/
def remains (v : Written) (n : Nat) : Written :=
  (v.cut n).getD (.empty ((rootKind v).getD false) Gap.none)

theorem rootKind_remains (v : Written) (h : rootKind v = some keyed) (n : Nat) :
    rootKind (remains v n) = some keyed := by
  rw [remains, h]
  cases hcut : v.cut n with
  | none => rfl
  | some w =>
    cases v with
    | empty k inside =>
      cases (Option.ite_none_left_eq_some.mp hcut).2
      exact h
    | container k before parts =>
      obtain ⟨q, hq, rfl⟩ := Option.map_eq_some_iff.mp hcut
      exact h
    | null | bool | number | text => cases h

theorem scan_gap (g : Gap) (ds : List Char) :
    scan (g.chars ++ ds) = (outside g.chars []).steps ds := by
  change (outside [] []).steps (g.chars ++ ds) = _
  rw [Scan.steps_append, steps_gap]
  rfl

theorem remains_of_none {v : Written} (h : rootKind v = some keyed) (hcut : v.cut n = none) :
    (remains v n).chars = [openBracket keyed, closeBracket keyed] := by
  rw [remains, hcut, h]
  rfl

theorem remains_of_some {v w : Written} (hcut : v.cut n = some w) : remains v n = w := by
  rw [remains, hcut]
  rfl

/-- A container that is not complete is closed as what remains of it, or dropped. -/
theorem closes_root (cs : List Char) {v : Written} (h : rootKind v = some keyed) (hn : n + 1 < v.chars.length) :
    Closes ((outside cs []).steps (v.chars.take (n + 1))) (cs ++ v.chars.take (n + 1))
      [⟨keyed, cs.length, none, none⟩]
      (match v.cut (n + 1) with
        | some w => cs ++ w.chars
        | none => cs) := by
  have hretreat : retreat cs [] = cs := List.append_nil cs
  cases v with
  | empty k inside =>
    cases h
    have hlength : n ≤ inside.chars.length := by
      simp only [Written.chars, List.length_append, List.length_cons, List.length_nil] at hn
      omega
    have htake : (Written.empty keyed inside).chars.take (n + 1) =
        openBracket keyed :: (inside.take n).chars := by
      rw [Written.chars, List.cons_append, List.take_succ_cons,
        List.take_append_of_le_length hlength]
      rfl
    rw [Written.cut, if_pos hn, htake]
    exact (closes_openBracket cs [] keyed (inside.take n)).congr hretreat
  | container k before parts =>
    cases h
    have hlength : n < before.chars.length + parts.chars.length := by
      simp only [Written.chars, List.length_append, List.length_cons] at hn
      omega
    have htake : (Written.container keyed before parts).chars.take (n + 1) =
        openBracket keyed :: (before.chars ++ parts.chars).take n := rfl
    rw [htake, Written.cut, Nat.add_sub_cancel]
    refine (closes_container (closesParts parts) cs [] before hlength).congr ?_
    cases parts.cut (n - before.chars.length) with
    | none => exact hretreat
    | some q => exact congrArg (cs ++ ·) (List.append_nil _)
  | null | bool | number | text => cases h

/-- Repairing the beginning of a document yields the text of what remains of its value. -/
theorem repair_document (d : Document) (h : rootKind d.value = some keyed)
    (hn : d.before.chars.length < n) :
    repair (d.chars.take n) = (remains d.value (n - d.before.chars.length)).chars := by
  obtain ⟨before, v, after⟩ := d
  obtain ⟨m, rfl⟩ : ∃ m, n = before.chars.length + (m + 1) :=
    ⟨n - before.chars.length - 1, by dsimp only at hn; omega⟩
  dsimp only [Document.chars] at h hn ⊢
  rw [Nat.add_sub_cancel_left, List.take_length_add_append]
  by_cases hlt : m + 1 < v.chars.length
  · have hcloses := closes_root before.chars h hlt
    rw [List.take_append_of_le_length (Nat.le_of_lt hlt),
      repair_of_closes (scan_gap before _) hcloses]
    cases hcut : v.cut (m + 1) with
    | none =>
      rw [remains_of_none h hcut]
      dsimp only
      rw [trim_gap]
    | some w =>
      have hroot := rootKind_remains v h (m + 1)
      rw [remains_of_some hcut] at hroot ⊢
      have htrim := trim_root hroot before Gap.none
      obtain ⟨⟨ds, hds⟩, -⟩ := exists_root_chars hroot
      rw [show Gap.none.chars = [] from rfl, List.append_nil] at htrim
      dsimp only
      rw [htrim, hds]
  · have hle := Nat.not_lt.mp hlt
    have htake : (v.chars ++ after.chars).take (m + 1) =
        v.chars ++ (after.take (m + 1 - v.chars.length)).chars := by
      rw [List.take_append, List.take_of_length_le hle]
      rfl
    have hscan : scan (before.chars ++ (v.chars ++ (after.take (m + 1 - v.chars.length)).chars)) =
        outside (before.chars ++ (v.chars ++ (after.take (m + 1 - v.chars.length)).chars)) [] := by
      rw [scan_gap, Scan.steps_append, steps_written, steps_gap, List.append_assoc]
    have hcut : v.cut (m + 1) = some v := by
      rcases v.cut_of_le hle with hcut | ⟨x, rfl⟩
      · exact hcut
      · cases h
    rw [htake, repair_of_closed hscan, trim_root h, remains_of_some hcut]

/-! ### Truncations -/

open Content

/-- The content of a container is empty or that of its parts. -/
theorem exists_container_of_rootKind {v : Written} (h : rootKind v = some keyed) {c : Content}
    (hc : ofJson v.json = .ok c) : ∃ es, c = container keyed es := by
  have hparts {js : List (String × Json)} (hjs : ofJson (ofParts keyed js) = .ok c) :
      ∃ es, c = container keyed es := by
    cases keyed with
    | true =>
      obtain ⟨es, -, rfl⟩ := Outcome.map_eq_ok.mp hjs
      exact ⟨_, rfl⟩
    | false =>
      obtain ⟨cs, -, rfl⟩ := Outcome.map_eq_ok.mp hjs
      exact ⟨cs.map fun c => ("", c), by simp [container, Function.comp_def]⟩
  cases v with
  | empty k inside =>
    cases h
    exact hparts hc
  | container k before parts =>
    cases h
    exact hparts hc
  | null | bool | number | text => cases h

theorem truncation_empty (keyed : Bool) (es : List (String × Content)) :
    Truncation (container keyed []) (container keyed es) := by
  cases keyed with
  | true => exact .noEntries es
  | false => exact .noItems _

/-- What remains when less is known is a truncation of what remains when more, or all, is known. -/
theorem truncation_remains {v x : Written} (h : rootKind v = some keyed) (hkeys : v.KeysDiffer)
    (hx : x = v ∨ ∃ m, n ≤ m ∧ x = remains v m) {c : Content} (hc : ofJson x.json = .ok c) :
    ∃ b, ofJson (remains v n).json = .ok b ∧ Truncation b c := by
  have hroot : rootKind x = some keyed := by
    rcases hx with rfl | ⟨m, -, rfl⟩
    · exact h
    · exact rootKind_remains v h m
  cases hcut : v.cut n with
  | none =>
    obtain ⟨es, rfl⟩ := exists_container_of_rootKind hroot hc
    refine ⟨container keyed [], ?_, truncation_empty keyed es⟩
    rw [remains, hcut, h]
    cases keyed <;> rfl
  | some w =>
    rw [remains_of_some hcut]
    refine v.truncation_cut hkeys hcut (hx.imp id fun hlater => ?_) hc
    obtain ⟨m, hm, hx⟩ := hlater
    refine ⟨m, hm, ?_⟩
    obtain ⟨y, hy⟩ := Option.isSome_iff_exists.mp
      (v.cut_isSome hm (Option.isSome_iff_exists.mpr ⟨w, hcut⟩))
    rw [hx, remains_of_some hy, hy]

theorem depth_remains {v : Written} (h : rootKind v = some keyed) (n : Nat) :
    (remains v n).depth ≤ v.depth := by
  rw [remains]
  cases hcut : v.cut n with
  | some w => exact v.depth_cut hcut
  | none =>
    cases v with
    | empty => exact Nat.le_refl 1
    | container => exact Nat.le_add_left 1 _
    | null | bool | number | text => cases h

theorem parse_of_document {d : Document} {c : Content} (hdepth : d.value.depth ≤ nestingLimit)
    (hc : ofJson d.value.json = .ok c) : parse d.chars = .ok c := by
  rw [parse, d.read_chars hdepth, ofReading, hc]

theorem parse_of_written {w : Written} {c : Content} (hdepth : w.depth ≤ nestingLimit)
    (hc : ofJson w.json = .ok c) : parse w.chars = .ok c := by
  have hparse := parse_of_document (d := ⟨Gap.none, w, Gap.none⟩) hdepth hc
  rwa [Document.chars, show Gap.none.chars = [] from rfl, List.nil_append, List.append_nil]
    at hparse

theorem exists_document_of_parse {text : List Char} {c : Content} (h : parse text = .ok c)
    (hescape : noUnicodeEscape false text = true) :
    ∃ d : Document, d.chars = text ∧ ofJson d.value.json = .ok c ∧
      d.value.depth ≤ nestingLimit := by
  rw [parse] at h
  cases hread : read text with
  | error failure => simp [hread, ofReading] at h
  | ok j =>
    obtain ⟨d, hchars, rfl, hdepth⟩ := exists_document hread hescape
    refine ⟨d, hchars, ?_, hdepth⟩
    rw [hread, ofReading] at h
    cases hc : ofJson d.value.json <;> simp_all

theorem exists_rootKind {v : Written} {c : Content} (hc : ofJson v.json = .ok c)
    (h : c.kind = .array ∨ c.kind = .object) : ∃ keyed, rootKind v = some keyed := by
  cases v with
  | empty k inside => exact ⟨k, rfl⟩
  | container k before parts => exact ⟨k, rfl⟩
  | null => cases hc; simp [kind] at h
  | bool b => cases hc; simp [kind] at h
  | text pieces => cases hc; simp [kind] at h
  | number x => simp [kind_of_numeral hc] at h

end StructuredOutput.Repair

namespace StructuredOutput

open Repair

/-- Repair is a monotone truncation: of a text with a container at its root, written without `\u`
and without repeated keys, every beginning that has the container's bracket is repaired to a text
that reads as a truncation of the whole, and of what a longer beginning is repaired to. -/
theorem truncation_of_repair {text p₁ p₂ : List Char} {whole : Content}
    (hparse : Content.parse text = .ok whole)
    (hroot : whole.kind = .array ∨ whole.kind = .object)
    (hescape : Json.noUnicodeEscape false text = true)
    (hkeys : ∀ d : Json.Document, d.chars = text → d.value.KeysDiffer)
    (h₁ : p₁ <+: p₂) (h₂ : p₂ <+: text) (hopen : ∃ c ∈ p₁, c = '[' ∨ c = '\x7b') :
    ∃ c₁ c₂, Content.parse (repair p₁) = .ok c₁ ∧ Content.parse (repair p₂) = .ok c₂ ∧
      c₁.Truncation c₂ ∧ c₂.Truncation whole := by
  obtain ⟨d, rfl, hcontent, hdepth⟩ := exists_document_of_parse hparse hescape
  obtain ⟨keyed, hkind⟩ := exists_rootKind hcontent hroot
  have hdiffer := hkeys d rfl
  have hbefore : d.before.chars.length < p₁.length := by
    by_contra hle
    obtain ⟨c, hc, hbracket⟩ := hopen
    rw [List.prefix_iff_eq_take.mp (h₁.trans h₂), Json.Document.chars,
      List.take_append_of_le_length (Nat.not_lt.mp hle)] at hc
    have hspace := d.before.blank c (List.mem_of_mem_take hc)
    rcases hbracket with rfl | rfl <;> cases hspace
  have hrepair {p : List Char} (hp : p <+: d.chars) (hlength : d.before.chars.length < p.length) :
      repair p = (remains d.value (p.length - d.before.chars.length)).chars := by
    rw [← repair_document d hkind hlength, ← List.prefix_iff_eq_take.mp hp]
  have hlonger : d.before.chars.length < p₂.length := Nat.lt_of_lt_of_le hbefore h₁.length_le
  have hparsed {n : Nat} {c : Content} (hc : Content.ofJson (remains d.value n).json = .ok c) :
      Content.parse (remains d.value n).chars = .ok c :=
    parse_of_written (Nat.le_trans (depth_remains hkind n) hdepth) hc
  obtain ⟨c₂, hc₂, hwhole⟩ := truncation_remains (n := p₂.length - d.before.chars.length) hkind
    hdiffer (.inl rfl) hcontent
  obtain ⟨c₁, hc₁, hshorter⟩ := truncation_remains (n := p₁.length - d.before.chars.length) hkind
    hdiffer (.inr ⟨_, Nat.sub_le_sub_right h₁.length_le _, rfl⟩) hc₂
  refine ⟨c₁, c₂, ?_, ?_, hshorter, hwhole⟩
  · rw [hrepair (h₁.trans h₂) hbefore]
    exact hparsed hc₁
  · rw [hrepair h₂ hlonger]
    exact hparsed hc₂

/-- A document with a string that is cut off in the middle of an escape. -/
def sampleDocument : Json.Document where
  before := ⟨[' '], List.all_eq_true.mp rfl⟩
  value := .container true Json.Gap.none
    (.more (.key [.plain 'a' (by decide)] Json.Gap.none Json.Gap.none)
      (.container false Json.Gap.none
        (.last .none (.text [.plain 'x' (by decide), .escape 'n' '\n' rfl]) Json.Gap.none))
      Json.Gap.none Json.Gap.none
      (.last (.key [.plain 'b' (by decide)] Json.Gap.none Json.Gap.none) (.bool true)
        Json.Gap.none))
  after := Json.Gap.none

theorem sampleDocument_keysDiffer : sampleDocument.value.KeysDiffer := by
  refine ⟨fun _ => ?_, ⟨fun h => absurd h Bool.false_ne_true, trivial⟩, trivial⟩
  decide

/-- The text of the sample document. -/
def sampleText : List Char := " \x7b\"a\":[\"x\\n\"],\"b\":true\x7d".toList

theorem chars_sampleDocument : sampleDocument.chars = sampleText := by
  decide +kernel

theorem truncation_of_repair_sample :
    ∃ c₁ c₂, Content.parse (repair (sampleText.take 10)) = .ok c₁ ∧
      Content.parse (repair (sampleText.take 20)) = .ok c₂ ∧ c₁.Truncation c₂ ∧
      c₂.Truncation (.object [("a", .array [.string "x\n"]), ("b", .bool true)]) := by
  have hparse : Content.parse sampleText =
      .ok (.object [("a", .array [.string "x\n"]), ("b", .bool true)]) := by cbv
  refine truncation_of_repair hparse (.inr rfl) (by decide +kernel) (fun d hd => ?_)
    (List.take_prefix_take_left (by decide)) (List.take_prefix 20 _)
    ⟨'\x7b', by decide +kernel, .inr rfl⟩
  exact Json.Document.keysDiffer_of_chars (chars_sampleDocument.trans hd.symm)
    sampleDocument_keysDiffer

end StructuredOutput

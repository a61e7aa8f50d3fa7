import StructuredOutput.Proofs.Stream.Escapes

/-!
Repair of any text whatever. What is repaired ends outside of strings with every container closed,
and such a text is only trimmed, so that repairing it again changes nothing. A text that can be read
is closed in the same way.
-/

namespace StructuredOutput.Repair

open Json Text

variable {cs ds : List Char} {os : List Opened} {bound depth : Nat}

/-! ### Levels -/

/-- A text ends outside of strings, with the given number of containers open. -/
structure Level (cs : List Char) (depth : Nat) : Prop where
  inString : (scan cs).inString = false
  opened : (scan cs).opened.length = depth

theorem level_of_scan (h : scan cs = outside cs os) : Level cs os.length := by
  constructor <;> rw [h] <;> rfl

/-- A backslash begins an escape in a string only, where no escape has begun before it. -/
theorem escaping_step {s : Scan} (hs : s.escaping = true → s.inString = true) {c : Char}
    (h : (s.step c).escaping = true) :
    s.inString = true ∧ s.escaping = false ∧ (s.step c).inString = true := by
  have hout (hout : ¬s.inString = true) : s.escaping ≠ true := fun h => hout (hs h)
  unfold Scan.step at h ⊢
  split at h
  · next hstring =>
    rw [if_pos hstring]
    split at h
    · exact absurd h Bool.false_ne_true
    · next hplain =>
      have hplain : s.escaping = false := by simpa using hplain
      rw [if_neg (by simp [hplain])]
      split at h
      · next hbackslash => exact ⟨hstring, hplain, by rw [if_pos hbackslash]; exact hstring⟩
      split at h <;> exact absurd h (by simp [hplain])
  · next hstring => split at h <;> exact absurd h (hout hstring)

theorem inString_of_escaping (cs : List Char) :
    (scan cs).escaping = true → (scan cs).inString = true := by
  induction cs using List.reverseRecOn with
  | nil => exact id
  | append_singleton cs c ih =>
    rw [scan_concat]
    exact fun h => (escaping_step ih h).2.2

theorem Level.scan_eq (h : Level cs depth) : scan cs = outside cs (scan cs).opened := by
  have hplain : (scan cs).escaping = false := by
    rw [← Bool.not_eq_true]
    intro hescaping
    exact Bool.false_ne_true (h.inString.symm.trans (inString_of_escaping cs hescaping))
  have hlength := length_scan cs
  have hstring := h.inString
  cases hscan : scan cs
  simp only [hscan] at hplain hlength hstring
  simp only [outside, hplain, hlength, hstring]

theorem Level.passed (h : Level cs depth) {c : Char} (hc : isPassed c = true) :
    Level (cs ++ [c]) depth := by
  have hscan := scan_concat cs c
  rw [h.scan_eq, step_passed hc] at hscan
  exact h.opened ▸ level_of_scan hscan

theorem Level.closeBracket (h : Level cs (depth + 1)) (keyed : Bool) :
    Level (cs ++ [closeBracket keyed]) depth := by
  obtain ⟨o, os, hos⟩ := List.exists_cons_of_length_eq_add_one h.opened
  have hdepth : os.length = depth := by simpa [hos] using h.opened
  have hscan := scan_concat cs (Json.closeBracket keyed)
  rw [h.scan_eq, hos, step_closeBracket] at hscan
  exact hdepth ▸ level_of_scan hscan

theorem Level.closers (h : Level cs os.length) : Level (cs ++ closers os) 0 := by
  induction os generalizing cs with
  | nil => rwa [Repair.closers, List.map_nil, List.append_nil]
  | cons o os ih =>
    rw [closers_cons, List.append_cons]
    exact ih (h.closeBracket o.isObject)

/-- Closing the last string leaves the open containers as they are. -/
theorem level_closeString (cs : List Char) :
    Level (closeString (scan cs) cs) (scan cs).opened.length := by
  have hquote {front : List Char} (hstring : (scan front).inString = true)
      (hplain : (scan front).escaping = false) :
      Level (front ++ ['"']) (scan front).opened.length := by
    constructor <;> rw [scan_concat]
    · simp [Scan.step, hstring, hplain]
    · rw [opened_step hstring]
  unfold closeString
  cases hstring : (scan cs).inString with
  | false => exact ⟨hstring, rfl⟩
  | true =>
    rw [if_pos rfl]
    cases hescaping : (scan cs).escaping with
    | false =>
      rw [if_neg Bool.false_ne_true]
      exact hquote hstring hescaping
    | true =>
      rw [if_pos rfl]
      rcases List.eq_nil_or_concat cs with rfl | ⟨front, c, rfl⟩
      · cases hstring
      · rw [List.concat_eq_append, scan_concat] at hescaping hstring ⊢
        obtain ⟨hfront, hplain, -⟩ := escaping_step (inString_of_escaping front) hescaping
        rw [List.dropLast_concat, opened_step hfront]
        exact hquote hfront hplain

/-! ### Marks -/

/-- The marks of open containers, the innermost first, lie before a bound, and what stands before
each of them is at the level of its container. -/
def Nested (cs : List Char) : (bound : Nat) → List Opened → Prop
  | _, [] => True
  | bound, o :: os =>
    (o.start < bound ∧ Level (cs.take o.start) os.length) ∧
      (∀ i, o.comma = some i → i < bound ∧ Level (cs.take i) (os.length + 1)) ∧
        Nested cs o.start os

theorem Nested.mono (h : Nested cs bound os) (hbound : bound ≤ cs.length) {bound' : Nat}
    (hle : bound ≤ bound') (ds : List Char) : Nested (cs ++ ds) bound' os := by
  induction os generalizing bound bound' with
  | nil => trivial
  | cons o os ih =>
    obtain ⟨⟨hstart, hlevel⟩, hcomma, hrest⟩ := h
    have hkept {i n : Nat} (hi : i < bound) (h : Level (cs.take i) n) :
        i < bound' ∧ Level ((cs ++ ds).take i) n := by
      rw [List.take_append_of_le_length (by omega)]
      exact ⟨by omega, h⟩
    exact ⟨hkept hstart hlevel, fun i hi => hkept (hcomma i hi).1 (hcomma i hi).2,
      ih hrest (by omega) (Nat.le_refl _)⟩

theorem nested_step (h : Nested cs cs.length (scan cs).opened) (c : Char) :
    Nested (cs ++ [c]) (cs ++ [c]).length ((scan cs).step c).opened := by
  have hlonger : cs.length ≤ (cs ++ [c]).length := by simp
  have hkept := h.mono (Nat.le_refl _) hlonger [c]
  cases hstring : (scan cs).inString with
  | true => rwa [opened_step hstring]
  | false =>
    have hlevel : Level cs (scan cs).opened.length := ⟨hstring, rfl⟩
    have hhere : (scan cs).length < (cs ++ [c]).length ∧
        Level ((cs ++ [c]).take (scan cs).length) (scan cs).opened.length := by
      rw [length_scan, List.take_left]
      exact ⟨by simp, hlevel⟩
    have hopen (isObject : Bool) : Nested (cs ++ [c]) (cs ++ [c]).length
        (⟨isObject, (scan cs).length, none, none⟩ :: (scan cs).opened) := by
      refine ⟨hhere, (fun i hi => by cases hi), ?_⟩
      rw [length_scan]
      exact h.mono (Nat.le_refl _) (Nat.le_refl _) [c]
    have htail : Nested (cs ++ [c]) (cs ++ [c]).length (scan cs).opened.tail := by
      cases hopened : (scan cs).opened with
      | nil => trivial
      | cons o os =>
        rw [hopened] at h
        have hstart := Nat.le_of_lt h.1.1
        exact h.2.2.mono hstart (Nat.le_trans hstart hlonger) [c]
    unfold Scan.step
    rw [if_neg (by simp [hstring])]
    split
    · exact hkept
    · exact hopen true
    · exact hopen false
    · exact htail
    · exact htail
    · cases hopened : (scan cs).opened with
      | nil => trivial
      | cons o os =>
        rw [hopened] at hkept hhere
        refine ⟨hkept.1, fun i hi => ?_, hkept.2.2⟩
        cases hi
        exact hhere
    · cases hopened : (scan cs).opened with
      | nil => trivial
      | cons o os =>
        rw [hopened] at hkept
        exact hkept
    · exact hkept

theorem nested_scan (cs : List Char) : Nested cs cs.length (scan cs).opened := by
  induction cs using List.reverseRecOn with
  | nil => trivial
  | append_singleton cs c ih =>
    rw [scan_concat]
    exact nested_step ih c

/-- What is cut back to a mark is at the level of the containers that remain. -/
theorem level_cutBack {text : List Char} {o : Opened} (h : Nested cs bound (o :: os))
    (htext : ∀ i < bound, text.take i = cs.take i) :
    Level (cutBack text (o :: os)).1 (cutBack text (o :: os)).2.length := by
  induction os generalizing text bound o with
  | nil =>
    obtain ⟨⟨hstart, hlevel⟩, hcomma, -⟩ := h
    rw [cutBack]
    cases hi : o.comma with
    | some i =>
      dsimp only
      rw [htext i (hcomma i hi).1]
      exact (hcomma i hi).2
    | none =>
      dsimp only [cutBack]
      rw [htext o.start hstart]
      exact hlevel
  | cons p os ih =>
    obtain ⟨⟨hstart, hlevel⟩, hcomma, hrest⟩ := h
    rw [cutBack]
    cases hi : o.comma with
    | some i =>
      dsimp only
      rw [htext i (hcomma i hi).1]
      exact (hcomma i hi).2
    | none =>
      apply ih hrest
      intro i hlt
      rw [List.take_take, Nat.min_eq_left (Nat.le_of_lt hlt), htext i (Nat.lt_trans hlt hstart)]

theorem level_closing (cs : List Char) : Level (closing (scan cs) cs) 0 := by
  have hclosed := level_closeString cs
  have hnested := nested_scan cs
  cases hopened : (scan cs).opened with
  | nil =>
    rw [closing, hopened]
    rwa [hopened] at hclosed
  | cons o os =>
    rw [hopened] at hclosed hnested
    rw [closing_eq hopened rfl]
    split
    · exact hclosed.closers
    · exact (level_cutBack hnested fun i hi => take_closeString hi (scan cs)).closers

/-! ### Trimming -/

theorem isPassed_of_isBlank {c : Char} (h : isBlank c = true) : isPassed c = true := by
  rw [isPassed, Bool.not_eq_true', List.contains_eq_mem, decide_eq_false_iff_not]
  intro hc
  simp only [List.mem_cons, List.not_mem_nil, or_false] at hc
  rcases hc with rfl | rfl | rfl | rfl | rfl | rfl | rfl <;> cases h

/-- Two scans differ at most in the places that they remember. -/
structure Alike (s t : Scan) : Prop where
  inString : s.inString = t.inString
  escaping : s.escaping = t.escaping
  opened : s.opened.length = t.opened.length

theorem length_changeInner (os : List Opened) (f : Opened → Opened) :
    (changeInner os f).length = os.length := by
  cases os <;> rfl

theorem Alike.step {s t : Scan} (h : Alike s t) (c : Char) : Alike (s.step c) (t.step c) := by
  obtain ⟨n, inString, escaping, os⟩ := s
  obtain ⟨m, inString', escaping', os'⟩ := t
  obtain ⟨rfl, rfl, hopened⟩ := h
  have hinner (f g : Opened → Opened) : (changeInner os f).length = (changeInner os' g).length := by
    rw [length_changeInner, length_changeInner]
    exact hopened
  have houter : os.tail.length = os'.tail.length := by
    rw [List.length_tail, List.length_tail]
    exact congrArg (· - 1) hopened
  have hnew (o o' : Opened) : (o :: os).length = (o' :: os').length := congrArg (· + 1) hopened
  unfold Scan.step
  split
  · split
    · exact ⟨rfl, rfl, hopened⟩
    split
    · exact ⟨rfl, rfl, hopened⟩
    split <;> exact ⟨rfl, rfl, hopened⟩
  · split
    · exact ⟨rfl, rfl, hopened⟩
    · exact ⟨rfl, rfl, hnew _ _⟩
    · exact ⟨rfl, rfl, hnew _ _⟩
    · exact ⟨rfl, rfl, houter⟩
    · exact ⟨rfl, rfl, houter⟩
    · exact ⟨rfl, rfl, hinner _ _⟩
    · exact ⟨rfl, rfl, hinner _ _⟩
    · exact ⟨rfl, rfl, hopened⟩

theorem Alike.steps {s t : Scan} (h : Alike s t) (cs : List Char) :
    Alike (s.steps cs) (t.steps cs) := by
  induction cs generalizing s t with
  | nil => exact h
  | cons c cs ih => exact ih (h.step c)

/-- Blanks before a text do not change how it is scanned. -/
theorem alike_trimLeft (cs : List Char) : Alike (scan (trimLeft cs)) (scan cs) := by
  induction cs with
  | nil => exact ⟨rfl, rfl, rfl⟩
  | cons c cs ih =>
    by_cases hc : isBlank c = true
    · have hstart : Alike (outside [] []) ((outside [] []).step c) := by
        rw [step_passed (isPassed_of_isBlank hc)]
        exact ⟨rfl, rfl, rfl⟩
      have hscan := hstart.steps cs
      rw [trimLeft, List.dropWhile_cons_of_pos hc]
      exact ⟨ih.inString.trans hscan.inString, ih.escaping.trans hscan.escaping,
        ih.opened.trans hscan.opened⟩
    · rw [trimLeft, List.dropWhile_cons_of_neg hc]
      exact ⟨rfl, rfl, rfl⟩

theorem Level.of_blank {c : Char} (hc : isBlank c = true) (h : Level (cs ++ [c]) depth) :
    Level cs depth := by
  have hpassed := isPassed_of_isBlank hc
  cases hstring : (scan cs).inString with
  | false =>
    have hlevel : Level cs (scan cs).opened.length := ⟨hstring, rfl⟩
    exact (hlevel.passed hpassed).opened.symm.trans h.opened ▸ hlevel
  | true =>
    -- a blank does not end a string
    have hquote : c ≠ '"' := by
      rintro rfl
      cases hpassed
    have hend := h.inString
    rw [scan_concat] at hend
    unfold Scan.step at hend
    rw [if_pos hstring] at hend
    split at hend
    · exact absurd hstring (by simpa using hend)
    split at hend
    · exact absurd hstring (by simpa using hend)
    exact absurd hstring (by simpa using hend)

theorem Level.trim (h : Level cs 0) : Level (trim cs) 0 := by
  have hleft : Level (trimLeft cs) 0 :=
    ⟨(alike_trimLeft cs).inString.trans h.inString, (alike_trimLeft cs).opened.trans h.opened⟩
  rw [Text.trim]
  generalize trimLeft cs = ds at hleft
  induction ds using List.reverseRecOn with
  | nil => exact hleft
  | append_singleton ds c ih =>
    by_cases hc : isBlank c = true
    · have hblank : trimRight (ds ++ [c]) = trimRight ds := by
        rw [trimRight, List.reverse_append, List.reverse_singleton, List.singleton_append,
          List.dropWhile_cons_of_pos hc, trimRight]
      rw [hblank]
      exact ih (hleft.of_blank hc)
    · rw [trimRight, reverse_last (by simpa using hc), List.reverse_cons, List.reverse_reverse]
      exact hleft

/-! ### What is repaired -/

theorem level_repair (cs : List Char) : Level (repair cs) 0 := by
  rcases repair_cases cs with hcs | ⟨-, keyed, hcs⟩
  · rw [hcs]
    exact (level_closing cs).trim
  · rw [hcs]
    cases keyed <;> exact ⟨rfl, rfl⟩

theorem trimLeft_trimRight (h : trimLeft cs = cs) : trimLeft (trimRight cs) = trimRight cs := by
  obtain ⟨ds, hds⟩ := trimRight_begins cs
  rw [trimLeft, List.dropWhile_eq_self_iff] at h ⊢
  intro hlength
  have hfirst := h (by rw [← hds, List.length_append]; exact Nat.add_pos_left hlength _)
  rwa [List.getElem_of_eq hds.symm, List.getElem_append_left hlength] at hfirst

theorem trim_trim (cs : List Char) : trim (trim cs) = trim cs := by
  have hleft : trimLeft (trim cs) = trim cs :=
    trimLeft_trimRight (List.dropWhile_idempotent isBlank cs)
  rw [trim, hleft, trim, trimRight, trimRight, List.reverse_reverse, List.dropWhile_idempotent]

theorem trim_repair (cs : List Char) : trim (repair cs) = repair cs := by
  rcases repair_cases cs with hcs | ⟨-, keyed, hcs⟩
  · rw [hcs, trim_trim]
  · rw [hcs]
    cases keyed <;> rfl

theorem repair_of_level (h : Level cs 0) : repair cs = trim cs := by
  have hscan := h.scan_eq
  rw [List.length_eq_zero_iff.mp h.opened] at hscan
  exact repair_of_closed hscan

/-- A text that can be read is closed. -/
theorem level_of_parse {c : Content} (h : Content.parse cs = .ok c) : Level cs 0 := by
  obtain ⟨j, hj, -⟩ := Content.parse_eq_ok.mp h
  obtain ⟨d, hmasked, -⟩ := exists_masked_document hj
  have hscan : scan cs = outside d.chars [] := by
    rw [← scan_masked, hmasked, Document.chars, scan_gap, Scan.steps_append, steps_written, steps_gap,
      List.append_assoc]
  constructor <;> rw [hscan] <;> rfl

end StructuredOutput.Repair

namespace StructuredOutput

open Repair

/-- Repairing what is repaired changes nothing, and a text that can be read is only trimmed. -/
theorem repair_idempotent (cs : List Char) :
    repair (repair cs) = repair cs ∧
      ∀ c, Content.parse cs = .ok c → repair cs = Text.trim cs :=
  ⟨(repair_of_level (level_repair cs)).trans (trim_repair cs),
    fun _ hparse => repair_of_level (level_of_parse hparse)⟩

/-- An escaped code unit in an array, between blanks. -/
def paddedText : List Char := '\n' :: accentText ++ [' ']

theorem repair_idempotent_paddedText :
    Content.parse paddedText = .ok (.array [.string "é"]) ∧ repair paddedText = Text.trim paddedText ∧
      repair (repair paddedText) = repair paddedText := by
  have hparse : Content.parse paddedText = .ok (.array [.string "é"]) := by cbv
  obtain ⟨htwice, hread⟩ := repair_idempotent paddedText
  exact ⟨hparse, hread _ hparse, htwice⟩

-- text that is no JSON: a stray bracket, a string that is not closed, and commas anywhere
example : repair "]a,\x7b\"b\":[1,\"c\\".toList = "]a,\x7b\"b\":[1,\"c\"]\x7d".toList := by
  decide +kernel

end StructuredOutput

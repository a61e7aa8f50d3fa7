import StructuredOutput.Content
import StructuredOutput.Proofs.Entries
import StructuredOutput.Proofs.Json.Cut
import StructuredOutput.Proofs.Json.Escapes

/-!
A text that is masked as the text of a document is read, if no digits of its `\u` are missing. What
is read is content if the numbers of the document are finite: which keys are the same cannot be seen
in the masked text, so every number counts, also those of entries that are replaced.
-/

namespace StructuredOutput.Json

open Place Text

/-! ### Strings that are masked -/

/-- Where a digit is owed, there is one. -/
theorem exists_digit {n : Nat} {cs more : List Char} {pieces : List Piece}
    (hmasked : masked false cs = innerText pieces ++ '"' :: more)
    (hwalk : ((owing n).walk cs).isSome = true) :
    ∃ c cs' pieces', cs = c :: cs' ∧ (hexDigit? c).isSome = true ∧
      masked false cs' = innerText pieces' ++ '"' :: more ∧
        ((if n = 0 then inside else owing (n - 1)).walk cs').isSome = true := by
  rcases cs with _ | ⟨c, cs⟩
  · cases pieces with
    | nil => cases hmasked
    | cons p ps => cases p <;> cases hmasked
  have hdigit : (hexDigit? c).isSome = true := by
    by_contra hno
    simp [walk_cons, step, hno] at hwalk
  obtain ⟨hquote, hbackslash, -⟩ := plain_of_hexDigit hdigit
  rw [masked_cons_of_ne hbackslash] at hmasked
  have hnext : (owing n).step c = some (if n = 0 then inside else owing (n - 1)) := by
    cases n <;> simp [step, hdigit]
  rw [walk_of_step hnext] at hwalk
  cases pieces with
  | nil => exact absurd (List.cons.inj hmasked).1 hquote
  | cons p ps =>
    cases p with
    | plain d quotable =>
      obtain ⟨rfl, hps⟩ := List.cons.inj hmasked
      exact ⟨c, cs, ps, rfl, hdigit, hps, hwalk⟩
    | escape letter d stands => exact absurd (List.cons.inj hmasked).1 hbackslash

/-- Where four digits are owed, a code unit is read. -/
theorem exists_unit {cs more : List Char} {pieces : List Piece}
    (hmasked : masked false cs = innerText pieces ++ '"' :: more)
    (hwalk : ((owing 3).walk cs).isSome = true) :
    ∃ n after pieces', unicodeUnit? cs = some (n, after) ∧ after.length < cs.length ∧
      masked false after = innerText pieces' ++ '"' :: more ∧
        (inside.walk after).isSome = true := by
  obtain ⟨a, cs₁, ps₁, rfl, ha, hmasked, hwalk⟩ := exists_digit hmasked hwalk
  obtain ⟨b, cs₂, ps₂, rfl, hb, hmasked, hwalk⟩ := exists_digit hmasked hwalk
  obtain ⟨c, cs₃, ps₃, rfl, hc, hmasked, hwalk⟩ := exists_digit hmasked hwalk
  obtain ⟨d, after, ps₄, rfl, hd, hmasked, hwalk⟩ := exists_digit hmasked hwalk
  have hafter : after ≠ [] := by
    rintro rfl
    have hlength := congrArg List.length hmasked
    simp [masked] at hlength
  obtain ⟨n, hn⟩ := unicodeUnit?_of_digits hafter (a := a) (b := b) (c := c) (d := d)
    (by simp [ha, hb, hc, hd])
  refine ⟨n, after, ps₄, hn, ?_, hmasked, hwalk⟩
  simp only [List.length_cons]
  omega

/-- After an escape, what is masked as pieces goes on with pieces. -/
theorem masked_after_escape {e : Char} {cs more : List Char} {pieces : List Piece}
    (h : masked false ('\\' :: e :: cs) = innerText pieces ++ '"' :: more) :
    ∃ pieces', masked false cs = innerText pieces' ++ '"' :: more := by
  rw [masked_escape] at h
  cases pieces with
  | nil => exact absurd (List.cons.inj h).1 (by decide)
  | cons p ps =>
    cases p with
    | plain c quotable => exact absurd (List.cons.inj h).1.symm quotable.2.1
    | escape letter c stands => exact ⟨ps, (List.cons.inj (List.cons.inj h).2).2⟩

/-- After a character that is taken, what is masked as pieces goes on with pieces. -/
theorem Takes.exists_after {cs after more : List Char} {c : Char} {pieces : List Piece}
    (h : Takes cs c after) (hmasked : masked false cs = innerText pieces ++ '"' :: more)
    (hwalk : (inside.walk cs).isSome = true) :
    ∃ pieces', masked false after = innerText pieces' ++ '"' :: more ∧
      (inside.walk after).isSome = true ∧ after.length < cs.length := by
  cases h with
  | plain quotable =>
    obtain ⟨hquote, hbackslash, -⟩ := quotable
    rw [masked_cons_of_ne hbackslash] at hmasked
    have hstep : inside.step c = some inside := by simp [step, hquote, hbackslash]
    rw [walk_of_step hstep] at hwalk
    cases pieces with
    | nil => exact absurd (List.cons.inj hmasked).1 hquote
    | cons p ps =>
      cases p with
      | plain d => exact ⟨ps, (List.cons.inj hmasked).2, hwalk, Nat.lt_succ_self _⟩
      | escape => exact absurd (List.cons.inj hmasked).1 hbackslash
  | @escape letter _ stands _ =>
    obtain ⟨ps, hps⟩ := masked_after_escape hmasked
    have hnext : inside.walk ('\\' :: letter :: after) = inside.walk after := by
      simp [walk_cons, step, ne_of_escaped? stands]
    rw [hnext] at hwalk
    exact ⟨ps, hps, hwalk, Nat.lt_succ_of_lt (Nat.lt_succ_self _)⟩
  | unit hunit =>
    obtain ⟨ps, hps⟩ := masked_after_escape hmasked
    obtain ⟨n, after, ps', hunit', hshorter, hafter, hwalk⟩ := exists_unit hps hwalk
    cases hunit.symm.trans hunit'
    exact ⟨ps', hafter, hwalk, Nat.lt_succ_of_lt (Nat.lt_succ_of_lt hshorter)⟩
  | pair hunit hsecond =>
    obtain ⟨ps, hps⟩ := masked_after_escape hmasked
    obtain ⟨n, between, ps', hunit', hshorter, hbetween, hwalk⟩ := exists_unit hps hwalk
    cases hunit.symm.trans hunit'
    obtain ⟨qs, hqs⟩ := masked_after_escape hbetween
    obtain ⟨m, after, qs', hsecond', hshorter', hafter, hwalk⟩ := exists_unit hqs hwalk
    cases hsecond.symm.trans hsecond'
    refine ⟨qs', hafter, hwalk, ?_⟩
    simp only [List.length_cons] at hshorter ⊢
    omega

/-- Where a text is masked as a piece, a character is taken, if no digits are missing. -/
theorem exists_takes (start : List Char) (fuel : Nat) {cs more : List Char} {p : Piece}
    {pieces : List Piece} (hmasked : masked false cs = innerText (p :: pieces) ++ '"' :: more)
    (hwalk : (inside.walk cs).isSome = true) :
    ∃ c after, Takes cs c after ∧ stringBody start (fuel + 1) cs =
      stringBody.prepend c (stringBody start fuel after) := by
  cases p with
  | plain c quotable =>
    obtain ⟨rest, rfl, -⟩ := exists_of_masked_cons hmasked
    exact ⟨c, rest, .plain quotable rest, stringBody_plain start fuel quotable rest⟩
  | escape letter d stands =>
    obtain ⟨rest, rfl, hrest⟩ := exists_of_masked_cons hmasked
    rcases rest with _ | ⟨e, rest⟩
    · cases hrest
    by_cases hu : e = 'u'
    · subst hu
      obtain ⟨ps, hps⟩ := masked_after_escape hmasked
      obtain ⟨n, after, ps', hunit, -, hafter, hwalk⟩ := exists_unit hps hwalk
      obtain ⟨c, beyond, htakes, hread⟩ := exists_takes_unit start fuel hunit fun second heq => by
        subst heq
        obtain ⟨qs, hqs⟩ := masked_after_escape hafter
        obtain ⟨m, beyond, -, hsecond, -⟩ := exists_unit hqs hwalk
        exact ⟨(m, beyond), hsecond⟩
      exact ⟨c, beyond, htakes, hread⟩
    · rw [masked_escape, if_neg hu] at hmasked
      obtain rfl : e = letter := (List.cons.inj (List.cons.inj hmasked).2).1
      exact ⟨d, rest, .escape stands rest, stringBody_escape start fuel stands rest⟩

/-- A string that is masked as pieces up to its end is read, if no digits are missing. -/
theorem exists_stringBody (start : List Char) (fuel : Nat) {cs more : List Char}
    {pieces : List Piece} (hmasked : masked false cs = innerText pieces ++ '"' :: more)
    (hwalk : (inside.walk cs).isSome = true) (hfuel : cs.length < fuel) :
    ∃ chars rest, stringBody start fuel cs = .ok (chars, rest) ∧ masked false rest = more := by
  induction fuel generalizing cs pieces with
  | zero => cases hfuel
  | succ fuel ih =>
    cases pieces with
    | nil =>
      obtain ⟨rest, rfl, hrest⟩ := exists_of_masked_cons hmasked
      exact ⟨[], rest, stringBody_quote start fuel rest, by simpa using hrest⟩
    | cons p ps =>
      obtain ⟨c, after, htakes, hread⟩ := exists_takes start fuel hmasked hwalk
      obtain ⟨ps', hafter, hwalk, hshorter⟩ := htakes.exists_after hmasked hwalk
      obtain ⟨chars, rest, hbody, hrest⟩ := ih hafter hwalk (by omega)
      exact ⟨c :: chars, rest, by rw [hread, hbody]; rfl, hrest⟩

theorem exists_readString {cs more : List Char} {pieces : List Piece}
    (hmasked : masked false cs = quotedText pieces ++ more)
    (hwalk : (outside.walk cs).isSome = true) :
    ∃ s rest, readString cs = .ok (s, rest) ∧ masked false rest = more ∧
      (outside.walk rest).isSome = true := by
  obtain ⟨inner, rfl, hinner⟩ := exists_of_masked_cons hmasked
  have hwalk : (inside.walk inner).isSome = true := hwalk
  have hpieces : masked false inner = innerText pieces ++ '"' :: more := by
    rw [decide_eq_false (by decide)] at hinner
    simpa using hinner
  obtain ⟨chars, rest, hread, hrest⟩ :=
    exists_stringBody ('"' :: inner) (('"' :: inner).length + 1) hpieces hwalk
      (by simp only [List.length_cons]; omega)
  refine ⟨String.ofList chars, rest, ?_, hrest, ?_⟩
  · rw [readString, List.tail_cons, hread]
    rfl
  · rw [← (exists_masked_pieces _ hread).2]
    exact hwalk

/-! ### Values that are masked -/

mutual

/-- The numbers that are written in a value. -/
def Written.numerals : Written → List Numeral
  | .number n => [n]
  | .null | .bool _ | .text _ | .empty _ _ => []
  | .container _ _ parts => parts.numerals

def Parts.numerals {keyed : Bool} : Parts keyed → List Numeral
  | .last _ value _ => value.numerals
  | .more _ value _ _ rest => value.numerals ++ rest.numerals

end

/-- Whether JSON data is content, as all of it is whose numbers are finite. -/
def IsContent (j : Json) : Prop := ∃ c, Content.ofJson j = .ok c

/-- The numbers of a value are finite. -/
def Written.Finite (v : Written) : Prop := ∀ n ∈ v.numerals, IsContent n.json

def Parts.Finite {keyed : Bool} (p : Parts keyed) : Prop := ∀ n ∈ p.numerals, IsContent n.json

mutual

/-- What remains of a value has no other numbers. -/
theorem Written.numerals_cut (v : Written) {n : Nat} {w : Written} (h : v.cut n = some w) :
    w.numerals ⊆ v.numerals := by
  cases v with
  | number x => cases h
  | null | bool | text | empty =>
    cases (Option.ite_none_left_eq_some.mp h).2
    exact List.nil_subset _
  | container keyed before parts =>
    obtain ⟨q, hq, rfl⟩ := Option.map_eq_some_iff.mp h
    exact parts.numerals_cut hq
termination_by sizeOf v

theorem Parts.numerals_cut {keyed : Bool} (p : Parts keyed) {n : Nat} {q : Parts keyed}
    (h : p.cut n = some q) : q.numerals ⊆ p.numerals := by
  cases p with
  | last label v after =>
    rcases Parts.cut_last_eq h with ⟨-, rfl⟩ | ⟨-, w, gap, hw, rfl⟩
    · exact List.Subset.refl _
    · exact v.numerals_cut hw
  | more label v after before rest =>
    rcases Parts.cut_more_eq rfl h with ⟨-, r, hr, rfl⟩ | ⟨-, -, rfl⟩ | ⟨-, w, gap, hw, rfl⟩
    · intro x hx
      rcases List.mem_append.mp hx with hx | hx
      · exact List.mem_append_left _ hx
      · exact List.mem_append_right _ (rest.numerals_cut hr hx)
    · exact List.subset_append_left _ _
    · exact List.Subset.trans (v.numerals_cut hw) (List.subset_append_left _ _)
termination_by sizeOf p

end

theorem isContent_items {js : List Json} (h : ∀ j ∈ js, IsContent j) : IsContent (.array js) := by
  have hitems : ∃ cs, Content.ofItems js = .ok cs := by
    induction js with
    | nil => exact ⟨[], rfl⟩
    | cons j js ih =>
      obtain ⟨c, hc⟩ := h j List.mem_cons_self
      obtain ⟨cs, hcs⟩ := ih fun k hk => h k (List.mem_cons_of_mem j hk)
      exact ⟨c :: cs, by rw [Content.ofItems, hc, hcs]; rfl⟩
  obtain ⟨cs, hcs⟩ := hitems
  exact ⟨.array cs, by rw [Content.ofJson, hcs]; rfl⟩

theorem isContent_entries {es : List (String × Json)} (h : ∀ e ∈ es, IsContent e.2) :
    IsContent (.object es) := by
  have hentries : ∃ cs, Content.ofJsonEntries es = .ok cs := by
    induction es with
    | nil => exact ⟨[], rfl⟩
    | cons e es ih =>
      obtain ⟨key, j⟩ := e
      obtain ⟨c, hc⟩ := h _ List.mem_cons_self
      obtain ⟨cs, hcs⟩ := ih fun k hk => h k (List.mem_cons_of_mem _ hk)
      exact ⟨(key, c) :: cs, by rw [Content.ofJsonEntries, hc, hcs]; rfl⟩
  obtain ⟨cs, hcs⟩ := hentries
  exact ⟨Content.ofEntries cs, by rw [Content.ofJson, hcs]; rfl⟩

theorem isContent_ofParts {keyed : Bool} {js : List (String × Json)}
    (h : ∀ e ∈ js, IsContent e.2) : IsContent (ofParts keyed js) := by
  cases keyed with
  | true =>
    apply isContent_entries
    intro e he
    have hnil : (Entries.names ([] : List (String × Json))).Nodup := List.nodup_nil
    rcases (Entries.putAll_spec hnil js).2 e he with hmem | hmem
    · cases hmem
    · exact h e hmem
  | false =>
    apply isContent_items
    intro j hj
    obtain ⟨e, he, rfl⟩ := List.mem_map.mp hj
    exact h e he

/-- Parts that are masked with a label are read from the value after the label on. -/
theorem exists_readParts_label {keyed : Bool} {label : Label keyed} {cs more : List Char}
    (hmasked : masked false cs = label.text ++ more) (hwalk : (outside.walk cs).isSome = true)
    (hmore : keyed = true → Stops isSpace more) :
    ∃ name body, masked false body = more ∧ (outside.walk body).isSome = true ∧
      ∀ {fuel depth : Nat} {value : Json} {after : List Char},
        readValue fuel depth body = .ok (value, after) →
          readParts keyed (fuel + 1) depth cs =
            readAfter keyed fuel depth (name, value) (skipSpace after) := by
  cases label with
  | none => exact ⟨"", cs, hmasked, hwalk, fun hvalue => readParts_item hvalue⟩
  | key pieces before gap =>
    have htext : masked false cs =
        quotedText pieces ++ (before.chars ++ ([':'] ++ (gap.chars ++ more))) := by
      rw [hmasked]
      simp [Label.text]
    obtain ⟨key, afterKey, hkey, hafterKey, hwalk⟩ := exists_readString htext hwalk
    obtain ⟨rest₁, rfl, hrest₁⟩ := exists_of_masked_plain (.gap before) hafterKey
    obtain ⟨rest₂, rfl, hrest₂⟩ := exists_of_masked_plain .colon hrest₁
    obtain ⟨body, rfl, hbody⟩ := exists_of_masked_plain (.gap gap) hrest₂
    rw [(Plain.gap before).walk, Plain.colon.walk, (Plain.gap gap).walk] at hwalk
    have hstops : Stops isSpace body := (hmore rfl).of_masked hbody
    have hcolon : skipSpace (before.chars ++ ([':'] ++ (gap.chars ++ body))) =
        ':' :: (gap.chars ++ body) := skipSpace_gap before (stops_cons rfl)
    refine ⟨key, body, hbody, hwalk, fun hvalue => ?_⟩
    apply readParts_entry _ hkey hcolon
    · rwa [skipSpace_gap gap hstops]
    · rw [head?_of_masked htext]
      rfl

mutual

/-- A value is read from a text that is masked as its text, if no digits are missing. -/
theorem Written.exists_readValue (v : Written) (fuel depth : Nat) {cs more : List Char}
    (hmasked : masked false cs = v.chars ++ more) (hwalk : (outside.walk cs).isSome = true)
    (hfuel : 2 * v.chars.length ≤ fuel) (hdepth : v.depth ≤ depth)
    (hmore : Stops continuesNumber more) :
    ∃ j rest, readValue fuel depth cs = .ok (j, rest) ∧ masked false rest = more ∧
      (outside.walk rest).isSome = true ∧ (v.Finite → IsContent j) := by
  obtain _ | fuel := fuel
  · obtain ⟨c, cs, hcons, -⟩ := v.exists_chars_cons
    rw [hcons] at hfuel
    cases hfuel
  -- words and numbers are not changed by masking
  have hplain (hv : Plain v.chars) (hread : ∀ rest, Stops continuesNumber rest →
      readValue (fuel + 1) depth (v.chars ++ rest) = .ok (v.json, rest))
      (hjson : v.Finite → IsContent v.json) :
      ∃ j rest, readValue (fuel + 1) depth cs = .ok (j, rest) ∧ masked false rest = more ∧
        (outside.walk rest).isSome = true ∧ (v.Finite → IsContent j) := by
    obtain ⟨rest, rfl, hrest⟩ := exists_of_masked_plain hv hmasked
    rw [hv.walk] at hwalk
    exact ⟨_, rest, hread rest (hmore.of_masked hrest), hrest, hwalk, hjson⟩
  have hvalue (rest : List Char) (hrest : Stops continuesNumber rest) :=
    v.readValue_chars (fuel + 1) depth hfuel hdepth hrest
  cases v with
  | null => exact hplain (by decide) hvalue fun _ => ⟨_, rfl⟩
  | bool b => exact hplain (by cases b <;> decide) hvalue fun _ => ⟨_, rfl⟩
  | number n =>
    exact hplain (.numeral n) hvalue fun hfinite => hfinite n (List.mem_singleton.mpr rfl)
  | text pieces =>
    obtain ⟨s, rest, hread, hrest, hwalk⟩ := exists_readString hmasked hwalk
    have hquote : cs.head? = some '"' := head?_of_masked hmasked
    exact ⟨.string s, rest, readValue_quote fuel depth hquote hread, hrest, hwalk,
      fun _ => ⟨_, rfl⟩⟩
  | empty keyed inside =>
    have hchars : Plain (Written.empty keyed inside).chars := by
      have htokens := ((Plain.openBracket keyed).append (.gap inside)).append (.closeBracket keyed)
      simpa [Written.chars] using htokens
    apply hplain hchars hvalue
    intro _
    exact isContent_ofParts fun e he => by cases he
  | container keyed before parts =>
    obtain _ | depth := depth
    · cases hdepth
    have htext : masked false cs =
        [openBracket keyed] ++ (before.chars ++ (parts.chars ++ more)) := by
      rw [hmasked]
      simp [Written.chars]
    have hlength : (Written.container keyed before parts).chars.length =
        before.chars.length + parts.chars.length + 1 := by
      simp [Written.chars]
    obtain ⟨rest₁, rfl, hrest⟩ := exists_of_masked_plain (.openBracket keyed) htext
    obtain ⟨body, rfl, hbody⟩ := exists_of_masked_plain (.gap before) hrest
    rw [(Plain.openBracket keyed).walk, (Plain.gap before).walk] at hwalk
    obtain ⟨js, rest, hread, hafter, hwalk, hjs⟩ := parts.exists_readParts fuel depth hbody hwalk
      (by omega) (Nat.le_of_succ_le_succ hdepth)
    have hstops : Stops isSpace body := (parts.stops_chars more).of_masked hbody
    have hclose : body.head? ≠ some (closeBracket keyed) := by
      obtain ⟨c, cs, hcons, hc⟩ := parts.exists_chars_cons
      rw [head?_of_masked hbody, hcons]
      simpa using ne_closeBracket_of_beginsValue hc keyed
    refine ⟨ofParts keyed js, rest, ?_, hafter, hwalk, fun hfinite => ?_⟩
    · rw [List.singleton_append, readValue_open, skipSpace_gap before hstops, if_neg hclose, hread]
      rfl
    · exact isContent_ofParts (hjs hfinite)
termination_by sizeOf v

theorem Parts.exists_readParts {keyed : Bool} (parts : Parts keyed) (fuel depth : Nat)
    {cs more : List Char} (hmasked : masked false cs = parts.chars ++ more)
    (hwalk : (outside.walk cs).isSome = true) (hfuel : 2 * parts.chars.length + 1 ≤ fuel)
    (hdepth : parts.depth ≤ depth) :
    ∃ js rest, readParts keyed fuel depth cs = .ok (js, rest) ∧ masked false rest = more ∧
      (outside.walk rest).isSome = true ∧ (parts.Finite → ∀ e ∈ js, IsContent e.2) := by
  obtain _ | fuel := fuel
  · cases hfuel
  cases parts with
  | last label value after =>
    have htext : masked false cs =
        label.text ++ (value.chars ++ (after.chars ++ ([closeBracket keyed] ++ more))) := by
      rw [hmasked]
      simp [Parts.chars]
    have hlength : value.chars.length + 1 ≤ (Parts.last label value after).chars.length := by
      simp only [Parts.chars, List.length_append, List.length_cons, List.length_nil]
      omega
    obtain ⟨name, body, hbody, hwalk, hlabel⟩ := exists_readParts_label htext hwalk fun _ =>
      value.stops_chars
    obtain ⟨j, tail, hread, htail, hwalk, hj⟩ := value.exists_readValue fuel depth hbody hwalk
      (by omega) hdepth (stops_gap after (stops_closeBracket keyed more))
    obtain ⟨rest₁, rfl, hrest₁⟩ := exists_of_masked_plain (.gap after) htail
    obtain ⟨rest, rfl, hrest⟩ := exists_of_masked_plain (.closeBracket keyed) hrest₁
    rw [(Plain.gap after).walk, (Plain.closeBracket keyed).walk] at hwalk
    refine ⟨[(name, j)], rest, ?_, hrest, hwalk, fun hfinite e he => ?_⟩
    · rw [hlabel hread, List.singleton_append,
        skipSpace_gap after (stops_cons (isSpace_closeBracket keyed)), readAfter_closeBracket]
    · rw [List.mem_singleton.mp he]
      exact hj hfinite
  | more label value after before others =>
    have htext : masked false cs = label.text ++ (value.chars ++ (after.chars ++
        ([','] ++ (before.chars ++ (others.chars ++ more))))) := by
      rw [hmasked]
      simp [Parts.chars]
    have hlength : value.chars.length + others.chars.length + 1 ≤
        (Parts.more label value after before others).chars.length := by
      simp only [Parts.chars, List.length_append, List.length_cons]
      omega
    have hcomma : Stops continuesNumber ([','] ++ (before.chars ++ (others.chars ++ more))) :=
      stops_cons rfl
    obtain ⟨name, body, hbody, hwalk, hlabel⟩ := exists_readParts_label htext hwalk fun _ =>
      value.stops_chars
    obtain ⟨j, tail, hread, htail, hwalk, hj⟩ := value.exists_readValue fuel depth hbody hwalk
      (by omega) (Nat.le_trans (Nat.le_max_left _ _) hdepth) (stops_gap after hcomma)
    obtain ⟨rest₁, rfl, hrest₁⟩ := exists_of_masked_plain (.gap after) htail
    obtain ⟨rest₂, rfl, hrest₂⟩ := exists_of_masked_plain .comma hrest₁
    obtain ⟨rest₃, rfl, hrest₃⟩ := exists_of_masked_plain (.gap before) hrest₂
    rw [(Plain.gap after).walk, Plain.comma.walk, (Plain.gap before).walk] at hwalk
    obtain ⟨js, rest, hothers, hrest, hwalk, hjs⟩ := others.exists_readParts fuel depth hrest₃ hwalk
      (by omega) (Nat.le_trans (Nat.le_max_right _ _) hdepth)
    have hstops : Stops isSpace rest₃ := (others.stops_chars more).of_masked hrest₃
    refine ⟨(name, j) :: js, rest, ?_, hrest, hwalk, fun hfinite e he => ?_⟩
    · rw [hlabel hread, List.singleton_append, skipSpace_gap after (stops_cons rfl),
        readAfter_comma, skipSpace_gap before hstops, hothers]
      rfl
    · rcases List.mem_cons.mp he with rfl | he
      · exact hj fun n hn => hfinite n (List.mem_append_left _ hn)
      · exact hjs (fun n hn => hfinite n (List.mem_append_right _ hn)) e he
termination_by sizeOf parts

end

/-- A text that is masked as the text of a document is read, if no digits are missing, and its data
is content if the numbers of the document are finite. -/
theorem exists_read_of_masked {d : Document} {cs : List Char} (hmasked : masked false cs = d.chars)
    (hwalk : (outside.walk cs).isSome = true) (hdepth : d.value.depth ≤ nestingLimit) :
    ∃ j, read cs = .ok j ∧ (d.value.Finite → IsContent j) := by
  have hmark : cs.head? ≠ some (Char.ofNat 0xfeff) := by
    intro hhead
    rw [head?_of_masked hmasked] at hhead
    rcases d.head?_chars hhead with hc | hc <;> cases hc
  have hnumber : Stops continuesNumber d.after.chars := stops_gap_end d.after
  obtain ⟨body, rfl, hbody⟩ := exists_of_masked_plain (.gap d.before) hmasked
  have hstops : Stops isSpace body := d.value.stops_chars.of_masked hbody
  have hlength : d.value.chars.length ≤ body.length := by
    have heq := congrArg List.length hbody
    rw [length_masked, List.length_append] at heq
    omega
  rw [(Plain.gap d.before).walk] at hwalk
  obtain ⟨j, rest, hread, hrest, -, hj⟩ := d.value.exists_readValue (fuelFor body) nestingLimit
    hbody hwalk (by unfold fuelFor; omega) hdepth hnumber
  obtain ⟨more, rfl, hmore⟩ : ∃ more, rest = d.after.chars ++ more ∧ masked false more = [] :=
    exists_of_masked_plain (.gap d.after) (by rwa [List.append_nil])
  have hend : more = [] := by
    rw [← List.length_eq_zero_iff, ← length_masked false, hmore]
    rfl
  refine ⟨j, ?_, hj⟩
  rw [read, if_neg hmark, readWhole, skipSpace_gap d.before hstops, readPrefix, hread, hend]
  dsimp only
  rw [skipSpace_gap d.after (stops_nil isSpace)]

end StructuredOutput.Json

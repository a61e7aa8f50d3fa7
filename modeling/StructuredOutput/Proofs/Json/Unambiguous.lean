import StructuredOutput.Proofs.Json.Reading

/-!
A text is written in one way: whether an object repeats a key depends on the text alone.
-/

namespace StructuredOutput.Json


theorem Gap.append_inj {g h : Gap} {cs ds : List Char} (hcs : Stops isSpace cs)
    (hds : Stops isSpace ds) (heq : g.chars ++ cs = h.chars ++ ds) :
    g.chars = h.chars ∧ cs = ds := by
  have htake := congrArg (List.takeWhile isSpace) heq
  rw [takeWhile_append g.blank hcs, takeWhile_append h.blank hds] at htake
  exact ⟨htake, List.append_cancel_left (htake ▸ heq)⟩

theorem Label.append_inj {keyed : Bool} {l m : Label keyed} {cs ds : List Char}
    (hcs : Stops isSpace cs) (hds : Stops isSpace ds) (heq : l.text ++ cs = m.text ++ ds) :
    cs = ds := by
  cases l with
  | none =>
    cases m with
    | none => exact heq
  | key pieces before after =>
    cases m with
    | key pieces' before' after' =>
      have hl : (Label.key pieces before after).text ++ cs =
          quotedText pieces ++ (before.chars ++ ':' :: (after.chars ++ cs)) := by simp [Label.text]
      have hm : (Label.key pieces' before' after').text ++ ds =
          quotedText pieces' ++ (before'.chars ++ ':' :: (after'.chars ++ ds)) := by
        simp [Label.text]
      rw [hl, hm] at heq
      have hread := congrArg readString heq
      rw [readString_quotedText, readString_quotedText] at hread
      obtain ⟨-, hrest⟩ := Prod.mk.inj (Except.ok.inj hread)
      have hcolon := (Gap.append_inj (stops_cons rfl) (stops_cons rfl) hrest).2
      exact (Gap.append_inj hcs hds (List.cons.inj hcolon).2).2

theorem Written.append_inj {v w : Written} {cs ds : List Char} (hcs : Stops continuesNumber cs)
    (hds : Stops continuesNumber ds) (heq : v.chars ++ cs = w.chars ++ ds) :
    v.chars = w.chars ∧ cs = ds := by
  have hv := v.readValue_chars _ _ (Nat.le_max_left (2 * v.chars.length) (2 * w.chars.length))
    (Nat.le_max_left v.depth w.depth) hcs
  have hw := w.readValue_chars _ _ (Nat.le_max_right (2 * v.chars.length) (2 * w.chars.length))
    (Nat.le_max_right v.depth w.depth) hds
  rw [heq, hw] at hv
  obtain ⟨-, rfl⟩ := Prod.mk.inj (Except.ok.inj hv)
  exact ⟨List.append_cancel_right heq, rfl⟩

theorem Parts.json_inj {keyed : Bool} {p q : Parts keyed} (heq : p.chars = q.chars) :
    p.json = q.json := by
  have hp := p.readParts_chars _ _ [] (Nat.le_refl _) (Nat.le_max_left p.depth q.depth)
  have hq := q.readParts_chars _ _ [] (Nat.le_refl _) (Nat.le_max_right p.depth q.depth)
  rw [heq, hq] at hp
  exact ((Prod.mk.inj (Except.ok.inj hp)).1).symm

theorem openBracket_inj {k l : Bool} (h : openBracket k = openBracket l) : k = l := by
  cases k <;> cases l <;> first | rfl | cases h

/-- What is written like a container with parts is one, with parts that are written alike. -/
theorem Written.exists_container {v : Written} {keyed : Bool} {before : Gap} {q : Parts keyed}
    (heq : v.chars = (Written.container keyed before q).chars) :
    ∃ gap p, v = .container keyed gap p ∧ p.chars = q.chars := by
  have hfirst {c : Char} {cs : List Char} (hc : v.chars = c :: cs) : c = openBracket keyed :=
    (List.cons.inj (hc.symm.trans heq)).1
  cases v with
  | null => cases keyed <;> cases hfirst rfl
  | bool b => cases b <;> cases keyed <;> cases hfirst rfl
  | number n =>
    obtain ⟨c, cs, hcons, hc⟩ := n.exists_text_cons
    have hbracket := hfirst hcons
    subst hbracket
    rcases hc with hc | hc <;> cases keyed <;> cases hc
  | text pieces => cases keyed <;> cases hfirst rfl
  | empty k inside =>
    obtain rfl := openBracket_inj (hfirst rfl)
    obtain ⟨c, cs, hcons, hc⟩ := q.exists_chars_cons
    have hstops := q.stops_chars []
    rw [List.append_nil] at hstops
    have hclose := (Gap.append_inj (stops_cons (isSpace_closeBracket k)) hstops
      (List.cons.inj heq).2).2
    rw [hcons] at hclose
    exact absurd (List.cons.inj hclose).1.symm (ne_closeBracket_of_beginsValue hc k)
  | container k gap p =>
    obtain rfl := openBracket_inj (hfirst rfl)
    have hp := p.stops_chars []
    have hq := q.stops_chars []
    rw [List.append_nil] at hp hq
    exact ⟨gap, p, rfl, (Gap.append_inj hp hq (List.cons.inj heq).2).2⟩

theorem ne_comma_closeBracket (keyed : Bool) : ',' ≠ closeBracket keyed := by
  cases keyed <;> decide

mutual

/-- Whether keys are repeated depends on the text alone. -/
theorem Written.keysDiffer_of_chars (w : Written) {v : Written} (heq : v.chars = w.chars)
    (hv : v.KeysDiffer) : w.KeysDiffer := by
  match w with
  | .null | .bool _ | .number _ | .text _ | .empty _ _ => trivial
  | .container keyed before q =>
    obtain ⟨gap, p, rfl, hp⟩ := Written.exists_container heq
    exact ⟨Parts.json_inj hp ▸ hv.1, q.keysDiffer_of_chars hp hv.2⟩

theorem Parts.keysDiffer_of_chars {keyed : Bool} (q : Parts keyed) {p : Parts keyed}
    (heq : p.chars = q.chars) (hp : p.KeysDiffer) : q.KeysDiffer := by
  match q with
  | .last label w after =>
    cases p with
    | last label' v after' =>
      have hvalue := Label.append_inj v.stops_chars w.stops_chars heq
      have hclose := stops_closeBracket keyed []
      exact w.keysDiffer_of_chars
        (Written.append_inj (stops_gap after' hclose) (stops_gap after hclose) hvalue).1 hp
    | more label' v after' before' rest' =>
      have hvalue := Label.append_inj v.stops_chars w.stops_chars heq
      have hafter := (Written.append_inj (stops_gap after' (stops_cons rfl))
        (stops_gap after (stops_closeBracket keyed [])) hvalue).2
      have hcomma := (Gap.append_inj (stops_cons rfl) (stops_cons (isSpace_closeBracket keyed))
        hafter).2
      exact absurd (List.cons.inj hcomma).1 (ne_comma_closeBracket keyed)
  | .more label w after before rest =>
    cases p with
    | last label' v after' =>
      have hvalue := Label.append_inj v.stops_chars w.stops_chars heq
      have hafter := (Written.append_inj (stops_gap after' (stops_closeBracket keyed []))
        (stops_gap after (stops_cons rfl)) hvalue).2
      have hcomma := (Gap.append_inj (stops_cons (isSpace_closeBracket keyed)) (stops_cons rfl)
        hafter).2
      exact absurd (List.cons.inj hcomma).1.symm (ne_comma_closeBracket keyed)
    | more label' v after' before' rest' =>
      have hvalue := Label.append_inj v.stops_chars w.stops_chars heq
      obtain ⟨hchars, hafter⟩ := Written.append_inj (stops_gap after' (stops_cons rfl))
        (stops_gap after (stops_cons rfl)) hvalue
      have hcomma := (Gap.append_inj (stops_cons rfl) (stops_cons rfl) hafter).2
      have hrest := rest.stops_chars []
      have hrest' := rest'.stops_chars []
      rw [List.append_nil] at hrest hrest'
      exact ⟨w.keysDiffer_of_chars hchars hp.1,
        rest.keysDiffer_of_chars (Gap.append_inj hrest' hrest (List.cons.inj hcomma).2).2 hp.2⟩

end

theorem Document.keysDiffer_of_chars {d e : Document} (heq : d.chars = e.chars)
    (hd : d.value.KeysDiffer) : e.value.KeysDiffer := by
  have hvalue := (Gap.append_inj d.value.stops_chars e.value.stops_chars heq).2
  exact e.value.keysDiffer_of_chars
    (Written.append_inj (stops_gap_end d.after) (stops_gap_end e.after) hvalue).1 hd

end StructuredOutput.Json

import StructuredOutput.Proofs.Json.Reading
import StructuredOutput.Stream.Repair

/-!
What the scan of a written value leaves behind: complete values only make the scanned text longer,
labels and commas are noted in the innermost container.
-/

namespace StructuredOutput.Repair

open Json

/-- Reads more characters. -/
def Scan.steps (s : Scan) (ds : List Char) : Scan := ds.foldl Scan.step s

theorem Scan.steps_append (s : Scan) (ds es : List Char) :
    s.steps (ds ++ es) = (s.steps ds).steps es :=
  List.foldl_append

theorem Scan.steps_cons (s : Scan) (c : Char) (ds : List Char) :
    s.steps (c :: ds) = (s.step c).steps ds := rfl

/-- The scan after a text that ends outside of strings. -/
def outside (cs : List Char) (opened : List Opened) : Scan := ⟨cs.length, false, false, opened⟩

/-- The scan after a text that ends inside a string. -/
def inside (cs : List Char) (opened : List Opened) : Scan := ⟨cs.length, true, false, opened⟩

variable {cs : List Char} {os : List Opened} {keyed : Bool}

/-! ### Characters outside of strings -/

/-- Whether the scan passes over a character outside of strings. -/
def isPassed (c : Char) : Bool := !(['"', '\x7b', '[', '\x7d', ']', ',', ':'].contains c)

theorem step_passed {c : Char} (h : isPassed c = true) :
    (outside cs os).step c = outside (cs ++ [c]) os := by
  have hall : ∀ d ∈ ['"', '\x7b', '[', '\x7d', ']', ',', ':'], c ≠ d := by
    rintro d hd rfl
    rw [isPassed, List.contains_iff_mem.mpr hd] at h
    cases h
  unfold Scan.step
  split
  · next hstring => cases hstring
  · split <;> first
      | exact absurd rfl (hall _ (by decide))
      | simp [outside]

theorem steps_passed {ds : List Char} (h : ∀ c ∈ ds, isPassed c = true) :
    (outside cs os).steps ds = outside (cs ++ ds) os := by
  induction ds generalizing cs with
  | nil => rw [List.append_nil]; rfl
  | cons c ds ih =>
    rw [Scan.steps_cons, step_passed (h c List.mem_cons_self),
      ih fun d hd => h d (List.mem_cons_of_mem c hd), List.append_cons cs c ds]

theorem step_quote : (outside cs os).step '"' = inside (cs ++ ['"']) os := by
  simp [outside, inside, Scan.step]

theorem step_openBracket (keyed : Bool) :
    (outside cs os).step (openBracket keyed) =
      outside (cs ++ [openBracket keyed]) (⟨keyed, cs.length, none, none⟩ :: os) := by
  cases keyed <;> simp [outside, openBracket, Scan.step]

theorem step_closeBracket (keyed : Bool) (o : Opened) :
    (outside cs (o :: os)).step (closeBracket keyed) = outside (cs ++ [closeBracket keyed]) os := by
  cases keyed <;> simp [outside, closeBracket, Scan.step]

theorem step_comma (o : Opened) :
    (outside cs (o :: os)).step ',' =
      outside (cs ++ [',']) ({ o with comma := some cs.length } :: os) := by
  simp [outside, Scan.step, changeInner]

theorem step_colon (o : Opened) :
    (outside cs (o :: os)).step ':' =
      outside (cs ++ [':']) ({ o with colon := some cs.length } :: os) := by
  simp [outside, Scan.step, changeInner]

theorem isPassed_of_isSpace {c : Char} (h : isSpace c = true) : isPassed c = true := by
  simp only [isSpace, Bool.or_eq_true, decide_eq_true_eq] at h
  rcases h with ((rfl | rfl) | rfl) | rfl <;> rfl

theorem isPassed_of_isDigit {c : Char} (h : c.isDigit = true) : isPassed c = true := by
  rw [isPassed, Bool.not_eq_true', List.contains_eq_mem, decide_eq_false_iff_not]
  intro hc
  simp only [List.mem_cons, List.not_mem_nil, or_false] at hc
  rcases hc with rfl | rfl | rfl | rfl | rfl | rfl | rfl <;> cases h

theorem isPassed_of_isNumeral {c : Char} (h : isNumeral c = true) : isPassed c = true := by
  rcases isNumeral_cases h with h | rfl | rfl | rfl | rfl | rfl
  · exact isPassed_of_isDigit h
  all_goals rfl

theorem steps_gap (g : Gap) : (outside cs os).steps g.chars = outside (cs ++ g.chars) os :=
  steps_passed fun c hc => isPassed_of_isSpace (g.blank c hc)

/-! ### Characters of a string -/

theorem steps_piece (p : Piece) : (inside cs os).steps p.text = inside (cs ++ p.text) os := by
  cases p with
  | plain c quotable => simp [Piece.text, Scan.steps, inside, Scan.step, quotable]
  | escape letter c stands => simp [Piece.text, Scan.steps, inside, Scan.step]

theorem steps_innerText (pieces : List Piece) :
    (inside cs os).steps (innerText pieces) = inside (cs ++ innerText pieces) os := by
  induction pieces generalizing cs with
  | nil => simp [innerText, Scan.steps]
  | cons p ps ih =>
    have htext : innerText (p :: ps) = p.text ++ innerText ps := rfl
    rw [htext, Scan.steps_append, steps_piece, ih, List.append_assoc]

theorem step_endQuote : (inside cs os).step '"' = outside (cs ++ ['"']) os := by
  simp [outside, inside, Scan.step]

theorem steps_quotedText (pieces : List Piece) :
    (outside cs os).steps (quotedText pieces) = outside (cs ++ quotedText pieces) os := by
  rw [quotedText, List.cons_append, Scan.steps_cons, step_quote, Scan.steps_append,
    steps_innerText, Scan.steps_cons, step_endQuote]
  simp [Scan.steps]

/-! ### Labels and values -/

/-- A container in which the colon of a label has been noted. -/
def noteLabel (cs : List Char) (o : Opened) : Label keyed → Opened
  | .none => o
  | .key pieces before _ =>
    { o with colon := some (cs.length + (quotedText pieces).length + before.chars.length) }

theorem steps_label (o : Opened) (label : Label keyed) :
    (outside cs (o :: os)).steps label.text =
      outside (cs ++ label.text) (noteLabel cs o label :: os) := by
  cases label with
  | none => simp [Label.text, Scan.steps, noteLabel]
  | key pieces before after =>
    rw [Label.text, List.append_assoc, Scan.steps_append, steps_quotedText, Scan.steps_append,
      steps_gap, Scan.steps_cons, step_colon, steps_gap]
    simp [noteLabel, Nat.add_assoc]

mutual

/-- A complete value leaves the open containers as they are. -/
theorem steps_written (v : Written) (cs : List Char) (os : List Opened) :
    (outside cs os).steps v.chars = outside (cs ++ v.chars) os := by
  cases v with
  | null => exact steps_passed (List.all_eq_true.mp rfl)
  | bool b => cases b <;> exact steps_passed (List.all_eq_true.mp rfl)
  | number n => exact steps_passed fun c hc => isPassed_of_isNumeral (n.isNumeral_of_mem hc)
  | text pieces => exact steps_quotedText pieces
  | empty keyed inside =>
    rw [Written.chars, List.cons_append, Scan.steps_cons, step_openBracket, Scan.steps_append,
      steps_gap, Scan.steps_cons, step_closeBracket]
    simp [Scan.steps]
  | container keyed before parts =>
    have hparts (ds : List Char) (o : Opened) := steps_parts parts ds o os
    rw [Written.chars, List.cons_append, Scan.steps_cons, step_openBracket, Scan.steps_append,
      steps_gap, hparts]
    simp

/-- The parts of a container close it. -/
theorem steps_parts {keyed : Bool} (p : Parts keyed) (cs : List Char) (o : Opened)
    (os : List Opened) :
    (outside cs (o :: os)).steps p.chars = outside (cs ++ p.chars) os := by
  match p with
  | .last label v after =>
    have hvalue := steps_written v (cs ++ label.text) (noteLabel cs o label :: os)
    rw [Parts.chars, Scan.steps_append, steps_label, Scan.steps_append, hvalue,
      Scan.steps_append, steps_gap, Scan.steps_cons, step_closeBracket]
    simp [Scan.steps]
  | .more label v after before rest =>
    have hvalue := steps_written v (cs ++ label.text) (noteLabel cs o label :: os)
    have hrest (ds : List Char) (o : Opened) := steps_parts rest ds o os
    rw [Parts.chars, Scan.steps_append, steps_label, Scan.steps_append, hvalue,
      Scan.steps_append, steps_gap, Scan.steps_cons, step_comma, Scan.steps_append, steps_gap,
      hrest]
    simp

end

end StructuredOutput.Repair

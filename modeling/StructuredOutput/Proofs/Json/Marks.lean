import StructuredOutput.Proofs.Json.Literals
import StructuredOutput.Proofs.Json.Reading

/-!
What a text has besides words, blanks and plain characters: brackets, number literals and escapes by
code. A scan from the front finds these marks; within strings it looks for escapes only.
-/

namespace StructuredOutput.Json

open Text

inductive Mark where
  | opens
  | closes
  | number (literal : List Char)
  /-- An escape by the code of a UTF-16 unit. -/
  | unit (code : Nat)

/-- Where in a text a scan is. -/
inductive Spot where
  | outside
  /-- After the given characters of a number literal. -/
  | number (read : List Char)
  | inside
  /-- After a backslash in a string. -/
  | escaped
  /-- Before so many more digits of an escape by code, the code so far being given. -/
  | unit (left code : Nat)

namespace Spot

/-- What a character outside of strings and number literals begins. -/
def start (c : Char) : List Mark × Spot :=
  if c = '"' then ([], inside)
  else if c = '[' ∨ c = '\x7b' then ([.opens], outside)
  else if c = ']' ∨ c = '\x7d' then ([.closes], outside)
  else if c = '-' ∨ c.isDigit then ([], number [c])
  else ([], outside)

/-- The marks that a character completes, and the spot after it. -/
def next : Spot → Char → List Mark × Spot
  | outside, c => start c
  | number read, c =>
    if isNumeral c then ([], number (read ++ [c]))
    else (.number read :: (start c).1, (start c).2)
  | inside, c => if c = '"' then ([], outside) else if c = '\\' then ([], escaped) else ([], inside)
  | escaped, c => if c = 'u' then ([], unit 3 0) else ([], inside)
  | unit left code, c =>
    let code := code * 16 + (hexDigit? c).getD 0
    match left with
    | 0 => ([.unit code], inside)
    | left + 1 => ([], unit left code)

/-- The marks that the end of a text completes. -/
def finish : Spot → List Mark
  | number read => [.number read]
  | _ => []

end Spot

/-- The marks of a text from a spot on. -/
def marksFrom : Spot → List Char → List Mark
  | spot, [] => spot.finish
  | spot, c :: cs => (spot.next c).1 ++ marksFrom (spot.next c).2 cs

/-- The marks of a text. -/
def marks (cs : List Char) : List Mark := marksFrom .outside cs

/-- Whether brackets are nested no deeper than `spare` levels. -/
def nests : (spare : Nat) → List Mark → Bool
  | _, [] => true
  | 0, .opens :: _ => false
  | spare + 1, .opens :: ms => nests spare ms
  | spare, .closes :: ms => nests (spare + 1) ms
  | spare, .number _ :: ms | spare, .unit _ :: ms => nests spare ms

/-- Marks that keep no text from being read: number literals round to finite doubles, no escape is
one of a surrogate, and brackets are nested no deeper than `spare` levels. -/
structure Readable (spare : Nat) (ms : List Mark) : Prop where
  finite : ∀ l, .number l ∈ ms → ∃ x, nearest? l = some (.finite x)
  scalar : ∀ n, .unit n ∈ ms → isHighSurrogate n = false ∧ isLowSurrogate n = false
  nests : nests spare ms = true

/-! ### Readable marks -/

namespace Readable

variable {spare : Nat} {ms : List Mark}

theorem tail {m : Mark} {next : Nat} (h : Readable spare (m :: ms))
    (hnests : Json.nests next ms = true) : Readable next ms :=
  ⟨fun l hl => h.finite l (List.mem_cons_of_mem m hl),
    fun n hn => h.scalar n (List.mem_cons_of_mem m hn), hnests⟩

theorem opens (h : Readable spare (.opens :: ms)) :
    ∃ inner, spare = inner + 1 ∧ Readable inner ms := by
  obtain _ | inner := spare
  · cases h.nests
  · exact ⟨inner, rfl, h.tail h.nests⟩

theorem closes (h : Readable spare (.closes :: ms)) : Readable (spare + 1) ms :=
  h.tail (by simpa [Json.nests] using h.nests)

theorem number {l : List Char} (h : Readable spare (.number l :: ms)) :
    (∃ x, nearest? l = some (.finite x)) ∧ Readable spare ms :=
  ⟨h.finite l List.mem_cons_self, h.tail (by simpa [Json.nests] using h.nests)⟩

theorem unit {n : Nat} (h : Readable spare (.unit n :: ms)) :
    (isHighSurrogate n = false ∧ isLowSurrogate n = false) ∧ Readable spare ms :=
  ⟨h.scalar n List.mem_cons_self, h.tail (by simpa [Json.nests] using h.nests)⟩

end Readable

/-! ### Scanning -/

variable {cs rest : List Char}

theorem marks_open (keyed : Bool) (cs : List Char) :
    marks (openBracket keyed :: cs) = .opens :: marks cs := by
  cases keyed <;> rfl

theorem marks_close (keyed : Bool) (cs : List Char) :
    marks (closeBracket keyed :: cs) = .closes :: marks cs := by
  cases keyed <;> rfl

theorem marks_colon (cs : List Char) : marks (':' :: cs) = marks cs := rfl

theorem marks_comma (cs : List Char) : marks (',' :: cs) = marks cs := rfl

theorem marks_quote (cs : List Char) : marks ('"' :: cs) = marksFrom .inside cs := rfl

/-- Whether a character outside of strings is passed over. -/
def isIdle (c : Char) : Bool :=
  !(['"', '[', '\x7b', ']', '\x7d', '-'].contains c || c.isDigit)

theorem marks_idle (hcs : ∀ c ∈ cs, isIdle c = true) (rest : List Char) :
    marks (cs ++ rest) = marks rest := by
  induction cs with
  | nil => rfl
  | cons c cs ih =>
    obtain ⟨hc, hcs⟩ := List.forall_mem_cons.mp hcs
    have hstart : Spot.start c = ([], .outside) := by
      simp [isIdle] at hc
      simp [Spot.start, hc]
    change (Spot.start c).1 ++ marksFrom (Spot.start c).2 (cs ++ rest) = marks rest
    rw [hstart]
    exact ih hcs

theorem marksFrom_number (read : List Char) (hcs : ∀ c ∈ cs, isNumeral c = true)
    (hrest : Stops isNumeral rest) :
    marksFrom (.number read) (cs ++ rest) = .number (read ++ cs) :: marks rest := by
  induction cs generalizing read with
  | nil =>
    cases rest with
    | nil => simp [marksFrom, marks, Spot.finish]
    | cons c rest =>
      have hc : isNumeral c = false := hrest c rfl
      simp [marksFrom, marks, Spot.next, hc]
  | cons c cs ih =>
    obtain ⟨hc, hcs⟩ := List.forall_mem_cons.mp hcs
    rw [List.cons_append, marksFrom, Spot.next, if_pos hc, List.nil_append, ih _ hcs,
      List.append_assoc, List.singleton_append]

theorem marks_literal (l : Literal) (hrest : Stops isNumeral rest) :
    marks (l.text ++ rest) = .number l.text :: marks rest := by
  obtain ⟨c, cs, htext, hc⟩ := l.exists_text_cons
  have hnumeral : ∀ d ∈ c :: cs, isNumeral d = true := fun d hd => l.isNumeral_of_mem (htext ▸ hd)
  have hne (d : Char) (hd : isNumeral d = false) : c ≠ d :=
    ne_of_isNumeral (hnumeral c List.mem_cons_self) hd
  have hstart : Spot.start c = ([], .number [c]) := by
    simp [Spot.start, hne '"' rfl, hne '[' rfl, hne '\x7b' rfl, hne ']' rfl, hne '\x7d' rfl, hc]
  rw [htext]
  change (Spot.start c).1 ++ marksFrom (Spot.start c).2 (cs ++ rest) = _
  rw [hstart, List.nil_append, marksFrom_number [c] (List.forall_mem_cons.mp hnumeral).2 hrest,
    List.singleton_append]

theorem marksFrom_plain {c : Char} (hc : c ≠ '"' ∧ c ≠ '\\') (cs : List Char) :
    marksFrom .inside (c :: cs) = marksFrom .inside cs := by
  simp [marksFrom, Spot.next, hc]

theorem marksFrom_escape {letter : Char} (hletter : letter ≠ 'u') (cs : List Char) :
    marksFrom .inside ('\\' :: letter :: cs) = marksFrom .inside cs := by
  simp [marksFrom, Spot.next, hletter]

theorem marksFrom_unit {a b c d : Char} {n : Nat} (h : hexUnit? a b c d = some n)
    (cs : List Char) :
    marksFrom .inside ('\\' :: 'u' :: a :: b :: c :: d :: cs) = .unit n :: marksFrom .inside cs := by
  simp only [hexUnit?, Option.bind_eq_bind, Option.bind_eq_some_iff] at h
  obtain ⟨i, hi, j, hj, k, hk, l, hl, hn⟩ := h
  cases hn
  simp [marksFrom, Spot.next, hi, hj, hk, hl]

theorem Readable.of_char {spare : Nat} {p : List Char} {c : Char} (h : WritesChar p c)
    (hread : Readable spare (marksFrom .inside (p ++ rest))) :
    Readable spare (marksFrom .inside rest) := by
  cases h with
  | plain quotable => exact marksFrom_plain ⟨quotable.1, quotable.2.1⟩ rest ▸ hread
  | escape stands => exact marksFrom_escape (ne_of_escaped? stands) rest ▸ hread
  | unit digits => exact (marksFrom_unit digits rest ▸ hread).unit.2

/-- What follows a string is readable. -/
theorem Readable.of_spelled {spare : Nat} {parts : List (List Char)} {chars : List Char}
    (h : List.Forall₂ WritesChar parts chars)
    (hread : Readable spare (marks ('"' :: (parts.flatten ++ '"' :: rest)))) :
    Readable spare (marks rest) := by
  rw [marks_quote] at hread
  induction h with
  | nil => exact hread
  | cons hfirst _ ih =>
    rw [List.flatten_cons, List.append_assoc] at hread
    exact ih (hread.of_char hfirst)

end StructuredOutput.Json

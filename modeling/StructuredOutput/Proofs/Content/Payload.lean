import Mathlib.Data.Nat.Find
import Mathlib.Order.Bounds.Defs
import StructuredOutput.Proofs.Content.Fence
import StructuredOutput.Proofs.Content.Truncation
import StructuredOutput.Proofs.Json.Extent
import StructuredOutput.Proofs.Json.Printed

/-!
What is extracted of a text without a block. The search tries each object or array that begins
somewhere; it succeeds at the first place where one can be parsed, since a value that is read ends
at the same place and is the same value whatever follows it.
-/

namespace StructuredOutput

open Json Text

variable {text cs : List Char} {i : Nat} {c : Content}

/-- The characters of a text from one place to another. -/
def slice (text : List Char) (first last : Nat) : List Char := (text.take last).drop first

/-- Whether an object or an array that can be parsed begins at a place of a text. -/
def PayloadFrom (text : List Char) (i : Nat) : Prop :=
  (text[i]? = some '\x7b' ∨ text[i]? = some '[') ∧ ∃ j c, Content.parse (slice text i j) = .ok c

/-! ### Values at the front of a text -/

theorem opens_iff : Opens cs ↔ cs.head? = some '\x7b' ∨ cs.head? = some '[' := by
  constructor
  · rintro ⟨_ | _, h⟩
    · exact .inr h
    · exact .inl h
  · rintro (h | h)
    · exact ⟨true, h⟩
    · exact ⟨false, h⟩

theorem Json.Opens.of_prefix {used : List Char} (h : Opens cs) (hbegins : used <+: cs)
    (hne : used ≠ []) : Opens used := by
  obtain ⟨keyed, hopen⟩ := h
  obtain ⟨rest, rfl⟩ := hbegins
  obtain ⟨d, ds, rfl⟩ := List.exists_cons_of_ne_nil hne
  exact ⟨keyed, hopen⟩

theorem read_of_opens (h : Opens cs) :
    Json.read cs = readWhole cs ∧ skipSpace cs = cs := by
  obtain ⟨keyed, hopen⟩ := h
  obtain ⟨rest, rfl⟩ := List.head?_eq_some_iff.mp hopen
  have hmark : (openBracket keyed :: rest).head? ≠ some (Char.ofNat 0xfeff) := by
    cases keyed <;> simp [openBracket]
  have hspace : isSpace (openBracket keyed) = false := by cases keyed <;> rfl
  exact ⟨if_neg hmark, skipSpace_of_stops (stops_cons hspace)⟩

/-- A text that begins with a bracket is parsed if a container is read of it and blanks follow. -/
theorem parse_eq_ok_of_opens (h : Opens cs) : Content.parse cs = .ok c ↔
    ∃ j rest, readPrefix cs = .ok (j, rest) ∧ skipSpace rest = [] ∧ Content.ofJson j = .ok c := by
  obtain ⟨hread, hskip⟩ := read_of_opens h
  have hwhole (j : Json) : readWhole cs = .ok j ↔
      ∃ rest, readPrefix cs = .ok (j, rest) ∧ skipSpace rest = [] := by
    rw [readWhole, hskip]
    cases readPrefix cs with
    | error e => simp
    | ok found =>
      obtain ⟨value, after⟩ := found
      cases hafter : skipSpace after with
      | nil => simp [hafter]
      | cons d ds => simp [hafter]
  rw [Content.parse_eq_ok, hread]
  simp only [hwhole]
  constructor
  · rintro ⟨j, ⟨rest, hvalue, hend⟩, hc⟩
    exact ⟨j, rest, hvalue, hend, hc⟩
  · rintro ⟨j, rest, hvalue, hend, hc⟩
    exact ⟨j, ⟨rest, hvalue, hend⟩, hc⟩

theorem payloadAt?_iff_readPrefix :
    payloadAt? cs = some c ↔
      ∃ j rest, readPrefix cs = .ok (j, rest) ∧ Content.ofJson j = .ok c := by
  rw [payloadAt?]
  cases readPrefix cs with
  | error e => simp
  | ok found => cases hc : Content.ofJson found.1 <;> simp [hc, Prod.ext_iff]

/-- A container is read of a text as of any text with the same characters in front. -/
theorem exists_used {j : Json} {rest : List Char} (hopens : Opens cs)
    (h : readPrefix cs = .ok (j, rest)) :
    ∃ used, cs = used ++ rest ∧ Opens used ∧
      ∀ beyond, readPrefix (used ++ beyond) = .ok (j, beyond) := by
  obtain ⟨used, rfl, hused, hreads⟩ := readValue_extent hopens h
  refine ⟨used, rfl, hused, fun beyond => hreads _ beyond ?_⟩
  rw [fuelFor, List.length_append]
  omega

/-- Content is read from the front of a text if a beginning of the text can be parsed. -/
theorem payloadAt?_eq_some (hopens : Opens cs) :
    payloadAt? cs = some c ↔ ∃ used, used <+: cs ∧ Content.parse used = .ok c := by
  rw [payloadAt?_iff_readPrefix]
  constructor
  · rintro ⟨j, rest, hread, hc⟩
    obtain ⟨used, rfl, hused, hreads⟩ := exists_used hopens hread
    have hfull := hreads []
    rw [List.append_nil] at hfull
    exact ⟨used, List.prefix_append used rest,
      (parse_eq_ok_of_opens hused).mpr ⟨j, [], hfull, rfl, hc⟩⟩
  · rintro ⟨used, hbegins, hparse⟩
    have hne : used ≠ [] := by
      rintro rfl
      cases hparse
    have hused := hopens.of_prefix hbegins hne
    obtain ⟨more, rfl⟩ := hbegins
    obtain ⟨j, rest, hread, -, hc⟩ := (parse_eq_ok_of_opens hused).mp hparse
    obtain ⟨front, rfl, -, hreads⟩ := exists_used hused hread
    refine ⟨j, rest ++ more, ?_, hc⟩
    rw [List.append_assoc, hreads]

/-! ### Places -/

theorem slice_prefix (text : List Char) (i j : Nat) : slice text i j <+: text.drop i := by
  rw [slice, List.drop_take]
  exact List.take_prefix _ _

theorem exists_slice {used : List Char} (h : used <+: text.drop i) :
    ∃ j, slice text i j = used := by
  refine ⟨i + used.length, ?_⟩
  rw [slice, List.drop_take, Nat.add_sub_cancel_left]
  exact (List.prefix_iff_eq_take.mp h).symm

theorem opens_drop : Opens (text.drop i) ↔ text[i]? = some '\x7b' ∨ text[i]? = some '[' := by
  rw [opens_iff, List.head?_drop]

/-- Whatever can be parsed from a place on is the content read there. -/
theorem exists_slice_parse (hopens : Opens (text.drop i)) :
    (∃ j, Content.parse (slice text i j) = .ok c) ↔ payloadAt? (text.drop i) = some c := by
  rw [payloadAt?_eq_some hopens]
  constructor
  · rintro ⟨j, hparse⟩
    exact ⟨_, slice_prefix text i j, hparse⟩
  · rintro ⟨used, hbegins, hparse⟩
    obtain ⟨j, rfl⟩ := exists_slice hbegins
    exact ⟨j, hparse⟩

theorem payloadFrom_iff :
    PayloadFrom text i ↔ Opens (text.drop i) ∧ ∃ c, payloadAt? (text.drop i) = some c := by
  rw [PayloadFrom, ← opens_drop]
  refine and_congr_right fun hopens => ?_
  rw [exists_comm]
  exact exists_congr fun c => exists_slice_parse hopens

theorem payloadFrom_zero : PayloadFrom cs 0 ↔ Opens cs ∧ ∃ c, payloadAt? cs = some c := by
  rw [payloadFrom_iff, List.drop_zero]

theorem payloadFrom_succ {d : Char} : PayloadFrom (d :: cs) (i + 1) ↔ PayloadFrom cs i := by
  rw [payloadFrom_iff, payloadFrom_iff, List.drop_succ_cons]

/-! ### The search -/

theorem firstPayload?_cons_of_some {d : Char} (hopens : Opens (d :: cs))
    (h : payloadAt? (d :: cs) = some c) : firstPayload? (d :: cs) = some c := by
  have hbracket : d = '\x7b' ∨ d = '[' := by simpa using opens_iff.mp hopens
  rw [firstPayload?, if_pos hbracket, h]

theorem firstPayload?_cons_of_not {d : Char} (h : ¬PayloadFrom (d :: cs) 0) :
    firstPayload? (d :: cs) = firstPayload? cs := by
  rw [firstPayload?]
  split
  · next hbracket =>
    have hopens : Opens (d :: cs) := opens_iff.mpr (by simpa using hbracket)
    cases hfound : payloadAt? (d :: cs) with
    | none => rfl
    | some c => exact absurd (payloadFrom_zero.mpr ⟨hopens, c, hfound⟩) h
  · rfl

/-- The search finds what is read at the first place where anything can be parsed. -/
theorem firstPayload?_eq_some (h : IsLeast {k | PayloadFrom text k} i) :
    firstPayload? text = payloadAt? (text.drop i) := by
  induction text generalizing i with
  | nil =>
    obtain ⟨⟨_, h⟩, -⟩ := payloadFrom_iff.mp h.1
    simp at h
  | cons d cs ih =>
    by_cases hfirst : PayloadFrom (d :: cs) 0
    · obtain rfl : i = 0 := Nat.le_zero.mp (h.2 hfirst)
      obtain ⟨hopens, c, hc⟩ := payloadFrom_zero.mp hfirst
      rw [firstPayload?_cons_of_some hopens hc, List.drop_zero, hc]
    · obtain _ | i := i
      · exact absurd h.1 hfirst
      rw [firstPayload?_cons_of_not hfirst, List.drop_succ_cons]
      refine ih ⟨payloadFrom_succ.mp h.1, fun k hk => ?_⟩
      exact Nat.le_of_succ_le_succ (h.2 (payloadFrom_succ.mpr hk))

theorem firstPayload?_eq_none (h : ∀ i, ¬PayloadFrom text i) : firstPayload? text = none := by
  induction text with
  | nil => rfl
  | cons d cs ih =>
    rw [firstPayload?_cons_of_not (h 0)]
    exact ih fun i hi => h (i + 1) (payloadFrom_succ.mpr hi)

theorem extract_eq_firstPayload? (hblock : ¬Fenced text)
    (hwhole : ∀ c, Content.parse (trim text) ≠ .ok c) :
    Content.extract text =
      match firstPayload? text with
      | some c => .ok c
      | none => .error .noPayload := by
  rw [Content.extract, firstBlock?_eq_none.mpr hblock]
  dsimp only
  split
  · next c hc => exact absurd hc (hwhole c)
  · rfl

/-- Of a text that has no block and is no payload as a whole, the first payload is extracted. It
begins at the least place where an object or an array begins that can be parsed; wherever else it
could end, it is the same content. Where there is no such place, nothing is extracted. -/
theorem extract_first_payload (hblock : ¬Fenced text)
    (hwhole : ∀ c, Content.parse (trim text) ≠ .ok c) :
    ((∃ i, PayloadFrom text i) → ∃ i c, IsLeast {k | PayloadFrom text k} i ∧
        Content.extract text = .ok c ∧ (∃ j, Content.parse (slice text i j) = .ok c) ∧
        ∀ j d, Content.parse (slice text i j) = .ok d → d = c) ∧
      ((∀ i, ¬PayloadFrom text i) → Content.extract text = .error .noPayload) := by
  rw [extract_eq_firstPayload? hblock hwhole]
  constructor
  · intro hsome
    classical
    have hleast : IsLeast {k | PayloadFrom text k} (Nat.find hsome) :=
      ⟨Nat.find_spec hsome, fun k hk => Nat.find_min' hsome hk⟩
    obtain ⟨hopens, c, hc⟩ := payloadFrom_iff.mp hleast.1
    refine ⟨Nat.find hsome, c, hleast, ?_, (exists_slice_parse hopens).mpr hc, fun j d hd => ?_⟩
    · rw [firstPayload?_eq_some hleast, hc]
    · have hread := (exists_slice_parse hopens).mp ⟨j, hd⟩
      rw [hc] at hread
      exact (Option.some.inj hread).symm
  · intro hnone
    rw [firstPayload?_eq_none hnone]

/-- Prose with a list that JSON does not know of before the payload and another payload after
it. -/
def proseText : List Char := "not [NaN] but [1, 2] or [3]".toList

theorem extract_first_payload_proseText :
    (¬Fenced proseText ∧ ∀ c, Content.parse (trim proseText) ≠ .ok c) ∧
      ∃ i c, IsLeast {k | PayloadFrom proseText k} i ∧ Content.extract proseText = .ok c ∧
        (∃ j, Content.parse (slice proseText i j) = .ok c) ∧
        ∀ j d, Content.parse (slice proseText i j) = .ok d → d = c := by
  have hblock : ¬Fenced proseText := firstBlock?_eq_none.mp (by decide +kernel)
  have hwhole : ∀ c, Content.parse (trim proseText) ≠ .ok c := by
    intro c h
    have herror : (Content.parse (trim proseText)).isOk = false := by decide +kernel
    rw [h] at herror
    cases herror
  have hsome : PayloadFrom proseText 14 := by
    refine ⟨.inr (by decide +kernel), 20, ?_⟩
    have hok : (Content.parse (slice proseText 14 20)).isOk = true := by decide +kernel
    cases hparse : Content.parse (slice proseText 14 20) with
    | error e =>
      rw [hparse] at hok
      cases hok
    | ok c => exact ⟨c, rfl⟩
  exact ⟨⟨hblock, hwhole⟩, (extract_first_payload hblock hwhole).1 ⟨14, hsome⟩⟩

end StructuredOutput

import Mathlib.Data.List.Infix
import StructuredOutput.Proofs.Stream.Merge
import StructuredOutput.Stream.Reconstructor

/-!
Runs of a stream: what an event leaves as it was, and what it makes of the value that is known.
-/

namespace StructuredOutput

/-- Whether nothing can follow in a stream is decided by its state. -/
abbrev Reconstructor.IsOpen (r : Reconstructor) : Prop := r.state.isTerminal = false

namespace Reconstructor

variable {ds : Declarations} {r : Reconstructor}

/-- The stream after events, whatever feeding them led to. -/
def run (ds : Declarations) (r : Reconstructor) (events : List StreamEvent) : Reconstructor :=
  events.foldl (fun r event => (r.feed ds event).next) r

@[simp] theorem run_nil : r.run ds [] = r := rfl

theorem run_concat (events : List StreamEvent) (event : StreamEvent) :
    r.run ds (events ++ [event]) = ((r.run ds events).feed ds event).next := by
  simp [run]

/-- What every event keeps is kept by a run. -/
theorem run_invariant {P : Reconstructor → Prop}
    (hstep : ∀ s event, P s → P (s.feed ds event).next) (hr : P r) (events : List StreamEvent) :
    P (r.run ds events) := by
  induction events generalizing r with
  | nil => exact hr
  | cons event events ih => exact ih (hstep r event hr)

/-- A run up to one more event. -/
theorem run_take_succ {events : List StreamEvent} {n : Nat} (h : n < events.length) :
    r.run ds (events.take (n + 1)) = ((r.run ds (events.take n)).feed ds events[n]).next := by
  rw [List.take_succ_eq_append_getElem h, run_concat]

/-- One more of the pieces of a text makes a longer beginning of it. -/
theorem flatten_take_succ {chunks : List (List Char)} {n : Nat} (hn : n < chunks.length) :
    (chunks.take (n + 1)).flatten = (chunks.take n).flatten ++ chunks[n] ∧
      (chunks.take n).flatten ++ chunks[n] <+: chunks.flatten := by
  have hflatten : (chunks.take (n + 1)).flatten = (chunks.take n).flatten ++ chunks[n] := by
    rw [List.take_succ_eq_append_getElem hn, List.flatten_append, List.flatten_singleton]
  refine ⟨hflatten, ?_⟩
  rw [← hflatten]
  exact (List.take_prefix _ _).flatten

/-- What every further piece of a text keeps is so after some of its pieces. -/
theorem run_deltas {P : List Char → Reconstructor → Prop} {chunks : List (List Char)}
    (hstep : ∀ told chunk s, P told s → told ++ chunk <+: chunks.flatten →
      P (told ++ chunk) (s.feed ds (.delta chunk)).next)
    (hr : P [] r) {n : Nat} (hn : n ≤ chunks.length) :
    P (chunks.take n).flatten (r.run ds ((chunks.map .delta).take n)) := by
  induction n with
  | zero => exact hr
  | succ n ih =>
    have hlast : n < (chunks.map StreamEvent.delta).length := by
      rwa [List.length_map]
    obtain ⟨hflatten, hbeginning⟩ := flatten_take_succ hn
    rw [run_take_succ hlast, List.getElem_map, hflatten]
    exact hstep _ _ _ (ih (Nat.le_of_succ_le hn)) hbeginning

/-! ### Starting -/

theorem start_eq_ok {t : TypeExpr} {settings : StreamSettings}
    (h : start ds t settings = .ok r) :
    (∃ shape, ds.shapeOf t = .ok shape) ∧
      r = ⟨t, t.label ds, settings, [], .empty, .empty, .unknown, .null⟩ := by
  unfold start at h
  cases hshape : ds.shapeOf t with
  | error fault => simp [hshape, Except.map] at h
  | ok shape =>
    rw [hshape] at h
    cases h
    exact ⟨⟨shape, rfl⟩, rfl⟩

/-! ### Content -/

/-- What a stream may become by content: it learns something or nothing, and goes on. -/
structure Continues (r next : Reconstructor) : Prop where
  type : next.type = r.type
  settings : next.settings = r.settings
  buffer : next.buffer = r.buffer
  isOpen : r.IsOpen → next.IsOpen

theorem Continues.refl (r : Reconstructor) : Continues r r := ⟨rfl, rfl, rfl, id⟩

theorem ingest_continues (ds : Declarations) (r : Reconstructor) (c : Content) :
    Continues r (r.ingest ds c).next := by
  unfold ingest
  split
  · exact .refl r
  · split
    · exact .refl r
    · exact ⟨rfl, rfl, rfl, fun _ => rfl⟩

/-- Content adds what it tells. -/
theorem ingest_eq {c : Content} {observed : Value} (h : snapshot ds c r.type = .ok observed) :
    (∃ seen, (r.ingest ds c).outcome = .ok seen) ∧
      (r.ingest ds c).next.known = Snapshot.merge r.known observed := by
  unfold ingest
  rw [h]
  dsimp only
  split
  · next hunknown =>
    cases observed <;> try cases hunknown
    exact ⟨⟨none, rfl⟩, (Snapshot.merge_unknown _).symm⟩
  · exact ⟨⟨_, rfl⟩, rfl⟩

theorem ingest_known (ds : Declarations) (r : Reconstructor) (c : Content) :
    (r.ingest ds c).next.known = r.known ∨ ∃ observed, snapshot ds c r.type = .ok observed ∧
      (r.ingest ds c).next.known = Snapshot.merge r.known observed := by
  cases h : snapshot ds c r.type with
  | ok observed => exact .inr ⟨observed, rfl, (ingest_eq h).2⟩
  | error fault =>
    left
    unfold ingest
    rw [h]

/-! ### Text -/

/-- Text that cannot be read tells nothing, and other text tells what its content tells. -/
theorem ingestText_cases (ds : Declarations) (r : Reconstructor) :
    (∃ notices, r.ingestText ds = ⟨.ok none, r, notices⟩) ∨
      ∃ c, Content.parse r.legible = .ok c ∧ r.ingestText ds = r.ingest ds c := by
  unfold ingestText
  dsimp only
  split
  · exact .inl ⟨_, rfl⟩
  · cases h : Content.parse r.legible with
    | error fault => exact .inl ⟨_, rfl⟩
    | ok c => exact .inr ⟨c, rfl, rfl⟩

theorem ingestText_of_blank (h : Text.trim r.legible = []) :
    r.ingestText ds = ⟨.ok none, r, []⟩ := by
  unfold ingestText
  dsimp only
  rw [if_pos (by rw [h]; rfl)]

theorem ingestText_of_parse (htext : Text.trim r.legible ≠ []) {c : Content}
    (h : Content.parse r.legible = .ok c) : r.ingestText ds = r.ingest ds c := by
  unfold ingestText
  dsimp only
  rw [if_neg (by simpa using htext), h]

theorem ingestText_continues (ds : Declarations) (r : Reconstructor) :
    Continues r (r.ingestText ds).next := by
  rcases ingestText_cases ds r with ⟨notices, h⟩ | ⟨c, -, h⟩ <;> rw [h]
  · exact .refl r
  · exact ingest_continues ds r c

theorem ingestText_known :
    (r.ingestText ds).next.known = r.known ∨ ∃ c observed, snapshot ds c r.type = .ok observed ∧
      (r.ingestText ds).next.known = Snapshot.merge r.known observed := by
  rcases ingestText_cases ds r with ⟨notices, h⟩ | ⟨c, -, h⟩ <;> rw [h]
  · exact .inl rfl
  · exact (ingest_known _ _ c).imp id fun hknown => ⟨c, hknown⟩

/-! ### The end -/

/-- Completion fails, or it adds what the content of the text tells, with the value. -/
theorem complete_cases (ds : Declarations) (r : Reconstructor) (text : Option (List Char)) :
    ((r.complete ds text).next = r ∨ (r.complete ds text).next = r.enter .failed) ∨
      ∃ c observed v, Content.parse (text.getD r.buffer) = .ok c ∧ decode ds c r.type = .ok v ∧
        snapshot ds c r.type = .ok observed ∧ (r.complete ds text).next =
          { r with known := Snapshot.merge r.known observed, value := v }.enter .complete := by
  unfold complete
  cases Content.parse (text.getD r.buffer) with
  | error fault => exact .inl (.inr rfl)
  | ok c =>
    dsimp only
    split
    · exact .inl (.inr rfl)
    · exact .inl (.inr rfl)
    · exact .inl (.inl rfl)
    · exact .inl (.inr rfl)
    · next v hdecode =>
      cases h : snapshot ds c r.type with
      | error fault => exact .inl (.inl rfl)
      | ok observed => exact .inr ⟨c, observed, v, rfl, hdecode, h, rfl⟩

/-- A text that decodes completes a stream. -/
theorem complete_of_decode (text : Option (List Char)) {c : Content} {v observed : Value}
    (hparse : Content.parse (text.getD r.buffer) = .ok c) (hdecode : decode ds c r.type = .ok v)
    (hobserved : snapshot ds c r.type = .ok observed) :
    ∃ next notices, r.complete ds text = ⟨.ok (some next.view), next, notices⟩ ∧
      next.state = .complete ∧ next.known = Snapshot.merge r.known observed ∧
        next.result ds = .ok v := by
  unfold complete
  simp only [hparse, hdecode, hobserved]
  exact ⟨_, _, rfl, rfl, rfl, rfl⟩

/-! ### Events -/

theorem feed_delta (hopen : r.IsOpen) (text : List Char) :
    r.feed ds (.delta text) = { r with buffer := r.buffer ++ text }.ingestText ds := by
  rw [feed, if_neg (ne_true_of_eq_false hopen)]

/-- A piece after which the repaired text can be read adds what its content tells. -/
theorem feed_delta_of_parse (hopen : r.IsOpen) (hrepairs : r.settings.repairPartial = true)
    {text closed : List Char} (hclosed : Repair.repair (r.buffer ++ text) = closed)
    (htrim : Text.trim closed ≠ []) {c : Content} (hparse : Content.parse closed = .ok c)
    {observed : Value} (hobserved : snapshot ds c r.type = .ok observed) :
    (∃ seen, (r.feed ds (.delta text)).outcome = .ok seen) ∧
      Continues { r with buffer := r.buffer ++ text } (r.feed ds (.delta text)).next ∧
        (r.feed ds (.delta text)).next.known = Snapshot.merge r.known observed := by
  have hlegible : { r with buffer := r.buffer ++ text }.legible = closed :=
    (if_pos hrepairs).trans hclosed
  rw [← hlegible] at htrim hparse
  rw [feed_delta hopen, ingestText_of_parse htrim hparse]
  obtain ⟨houtcome, hknown⟩ := ingest_eq (r := { r with buffer := r.buffer ++ text }) hobserved
  exact ⟨houtcome, ingest_continues ds _ c, hknown⟩

theorem feed_completed (hopen : r.IsOpen) (text : Option (List Char)) :
    r.feed ds (.completed text) = r.complete ds text := by
  rw [feed, if_neg (ne_true_of_eq_false hopen)]

/-- An event leaves what is known, or adds what some content tells. -/
theorem feed_known (event : StreamEvent) :
    (r.feed ds event).next.known = r.known ∨ ∃ c observed, snapshot ds c r.type = .ok observed ∧
      (r.feed ds event).next.known = Snapshot.merge r.known observed := by
  unfold feed
  split
  · exact .inl rfl
  · cases event with
    | fragment text => exact ingestText_known (r := { r with buffer := text })
    | delta text => exact ingestText_known (r := { r with buffer := r.buffer ++ text })
    | native c => exact (ingest_known _ _ c).imp id fun hknown => ⟨c, hknown⟩
    | completed text =>
      dsimp only
      rcases complete_cases ds r text with (h | h) | ⟨c, observed, v, -, -, hobserved, h⟩ <;> rw [h]
      · exact .inl rfl
      · exact .inl rfl
      · exact .inr ⟨c, observed, hobserved, rfl⟩
    | failed error => exact .inl rfl
    | cancelled => exact .inl rfl
    | other kind => exact .inl rfl

theorem feed_type (event : StreamEvent) : (r.feed ds event).next.type = r.type := by
  unfold feed
  split
  · rfl
  · cases event with
    | fragment text => exact (ingestText_continues ds _).type
    | delta text => exact (ingestText_continues ds _).type
    | native c => exact (ingest_continues ds r c).type
    | completed text =>
      dsimp only
      rcases complete_cases ds r text with (h | h) | ⟨c, observed, v, -, -, -, h⟩ <;> rw [h] <;> rfl
    | failed error => rfl
    | cancelled => rfl
    | other kind => rfl

theorem run_type (events : List StreamEvent) : (r.run ds events).type = r.type :=
  run_invariant (P := fun s => s.type = r.type) (fun _ event h => (feed_type event).trans h) rfl
    events

end Reconstructor

end StructuredOutput

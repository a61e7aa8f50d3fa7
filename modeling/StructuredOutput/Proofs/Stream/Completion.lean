import StructuredOutput.Proofs.Codec.FromText
import StructuredOutput.Proofs.Codec.RoundTrip
import StructuredOutput.Proofs.Stream.Observed
import StructuredOutput.Proofs.Stream.Run

/-!
Completion of a stream comes to the same as decoding the text that its events come to. Nothing else
that was observed on the way, no snapshot and no repair, has a part in it.
-/

namespace StructuredOutput

variable {ds : Declarations} {r : Reconstructor}

/-! ### The text of a stream -/

namespace StreamEvent

/-- The text that an event puts in place of all text before it. -/
def wholeText? : StreamEvent → Option (List Char)
  | fragment text => some text
  | _ => none

/-- The text that an event appends. -/
def addedText : StreamEvent → List Char
  | delta text => text
  | _ => []

/-- The text that events come to: the last one that replaces all others, and what is appended after
it. -/
def textOf (events : List StreamEvent) : List Char :=
  (events.reverse.findSome? wholeText?).getD [] ++
    (events.reverse.takeWhile (·.wholeText?.isNone)).reverse.flatMap addedText

/-- Events that tell something without ending the stream. -/
inductive IsPartial : StreamEvent → Prop
  | fragment (text : List Char) : IsPartial (.fragment text)
  | delta (text : List Char) : IsPartial (.delta text)
  | native (c : Content) : IsPartial (.native c)

theorem textOf_concat (events : List StreamEvent) (event : StreamEvent) :
    textOf (events ++ [event]) =
      (event.wholeText?).getD (textOf events ++ event.addedText) := by
  cases h : event.wholeText? with
  | some text => simp [textOf, h]
  | none => simp [textOf, h]

end StreamEvent

namespace Reconstructor

open StreamEvent

/-! ### Before the end -/

/-- The type of a stream has a shape, and the records that it reaches have fields. -/
def Resolved (ds : Declarations) (t : TypeExpr) : Prop :=
  ∃ shape, ds.shapeOf t = .ok shape ∧ Resolves ds shape

theorem ingest_outcome (hresolved : Resolved ds r.type) (c : Content) :
    ∃ seen, (r.ingest ds c).outcome = .ok seen := by
  obtain ⟨shape, hshape, hresolves⟩ := hresolved
  obtain ⟨observed, hobserved⟩ := exists_snapshot hshape hresolves c
  exact (ingest_eq hobserved).1

theorem ingestText_outcome (hresolved : Resolved ds r.type) :
    ∃ seen, (r.ingestText ds).outcome = .ok seen := by
  rcases ingestText_cases ds r with ⟨notices, h⟩ | ⟨c, -, h⟩ <;> rw [h]
  · exact ⟨none, rfl⟩
  · exact ingest_outcome hresolved c

/-- An event that does not end an open stream is no error and changes the text as it says. -/
theorem feed_partial {event : StreamEvent} (hevent : event.IsPartial) (hopen : r.IsOpen)
    (hresolved : Resolved ds r.type) :
    (∃ seen, (r.feed ds event).outcome = .ok seen) ∧ (r.feed ds event).next.IsOpen ∧
      (r.feed ds event).next.buffer =
        (event.wholeText?).getD (r.buffer ++ event.addedText) := by
  unfold feed
  rw [if_neg (ne_true_of_eq_false hopen)]
  cases hevent with
  | fragment text =>
    have hcontinues := ingestText_continues ds { r with buffer := text }
    exact ⟨ingestText_outcome hresolved, hcontinues.isOpen hopen, hcontinues.buffer⟩
  | delta text =>
    have hcontinues := ingestText_continues ds { r with buffer := r.buffer ++ text }
    exact ⟨ingestText_outcome hresolved, hcontinues.isOpen hopen, hcontinues.buffer⟩
  | native c =>
    have hcontinues := ingest_continues ds r c
    refine ⟨ingest_outcome hresolved c, hcontinues.isOpen hopen, ?_⟩
    rw [hcontinues.buffer]
    exact (List.append_nil _).symm

/-- Events that do not end a stream leave it open, with the text that they come to. -/
theorem run_partial {events : List StreamEvent} (hevents : ∀ event ∈ events, event.IsPartial)
    (hopen : r.IsOpen) (hempty : r.buffer = []) (hresolved : Resolved ds r.type) :
    (r.run ds events).IsOpen ∧ (r.run ds events).buffer = textOf events := by
  induction events using List.reverseRecOn with
  | nil => exact ⟨hopen, hempty⟩
  | append_singleton events event ih =>
    obtain ⟨hstill, hbuffer⟩ := ih fun e he => hevents e (List.mem_append_left _ he)
    have hlast : event.IsPartial := hevents event (List.mem_append_right _ List.mem_cons_self)
    rw [run_concat, textOf_concat, ← hbuffer]
    exact (feed_partial hlast hstill (by rwa [run_type])).2

/-! ### The end -/

/-- What a stream reports of a text that holds no value: that it is incomplete if the text cannot be
read or lacks a property, and else the fault itself. -/
inductive Reports : TextError → StreamError → Prop
  | unreadable (fault : ParseFault) (missing : List String) :
    Reports (.unreadable fault) (.incomplete ⟨.invalidJson, missing⟩)
  | missing (m : MissingProperty) (missing : List String) :
    Reports (.undecoded (.missing m)) (.incomplete ⟨.missingProperty m.name, missing⟩)
  | other {e : DecodeError} (h : ∀ m, e ≠ .missing m) : Reports (.undecoded e) (.decode e)

/-- Completion of an open stream yields the value of its text, or reports why there is none. -/
theorem complete_spec {shape : Shape} (hshape : ds.shapeOf r.type = .ok shape)
    (hresolves : Resolves ds shape) (text : Option (List Char)) :
    (∀ v, decodeText ds (text.getD r.buffer) r.type = .ok v →
      (r.complete ds text).next.state = .complete ∧ (r.complete ds text).next.value = v ∧
        (r.complete ds text).outcome = .ok (some (r.complete ds text).next.view)) ∧
      ∀ e, decodeText ds (text.getD r.buffer) r.type = .error e →
        (r.complete ds text).next.state = .failed ∧
          ∃ reported, (r.complete ds text).outcome = .error reported ∧ Reports e reported := by
  unfold decodeText complete
  cases Content.parse (text.getD r.buffer) with
  | error fault =>
    refine ⟨fun v h => (by cases h), fun e h => ?_⟩
    cases h
    exact ⟨rfl, _, rfl, .unreadable fault _⟩
  | ok c =>
    dsimp only
    cases hdecode : decode ds c r.type with
    | ok v =>
      obtain ⟨observed, hobserved⟩ := exists_snapshot hshape hresolves c
      refine ⟨fun w h => ?_, fun e h => (by cases h)⟩
      cases h
      rw [hobserved]
      exact ⟨rfl, rfl, rfl⟩
    | error e =>
      refine ⟨fun v h => (by cases h), fun e' h => ?_⟩
      cases h
      have hcontent := hdecode
      rw [decode_eq hshape] at hcontent
      cases e with
      | missing m => exact ⟨rfl, _, rfl, .missing m _⟩
      | mismatch cause => exact ⟨rfl, _, rfl, .other fun m => by simp⟩
      | unknown cause => exact ⟨rfl, _, rfl, .other fun m => by simp⟩
      | type fault => exact absurd rfl (Decoding.isOfContent_value c hresolves hcontent fault)

end Reconstructor

open Reconstructor StreamEvent

/-- However a stream was told, it completes with the value that decoding its text yields, or it fails
as decoding fails; a failed stream has no result. -/
theorem completion_eq_decodeText {t : TypeExpr} {shape : Shape} {settings : StreamSettings}
    {events : List StreamEvent} (hstart : Reconstructor.start ds t settings = .ok r)
    (hshape : ds.shapeOf t = .ok shape) (hresolves : Resolves ds shape)
    (hevents : ∀ event ∈ events, event.IsPartial) (final : Option (List Char)) :
    (∀ n (hn : n < events.length),
      ∃ seen, ((r.run ds (events.take n)).feed ds events[n]).outcome = .ok seen) ∧
    let text := final.getD (textOf events)
    let fed := (r.run ds events).feed ds (.completed final)
    (fed.next.state = .complete ↔ ∃ v, decodeText ds text t = .ok v) ∧
    (∀ v, decodeText ds text t = .ok v →
      fed.outcome = .ok (some fed.next.view) ∧ fed.next.view.value = v ∧
        fed.next.result ds = .ok v) ∧
    ∀ e, decodeText ds text t = .error e →
      fed.next.state = .failed ∧ (∃ reported, fed.outcome = .error reported ∧ Reports e reported) ∧
        ∃ incomplete, fed.next.result ds = .error incomplete := by
  obtain ⟨-, hr⟩ := start_eq_ok hstart
  have hopen : r.IsOpen := by rw [hr]; rfl
  have hempty : r.buffer = [] := by rw [hr]
  have htype : r.type = t := by rw [hr]
  have hresolved (n : Nat) : Resolved ds (r.run ds (events.take n)).type := by
    rw [run_type, htype]
    exact ⟨shape, hshape, hresolves⟩
  refine ⟨fun n hn => ?_, ?_⟩
  · have htaken : ∀ event ∈ events.take n, event.IsPartial := fun e he =>
      hevents e (List.mem_of_mem_take he)
    have hbefore := run_partial htaken hopen hempty (hresolved 0)
    exact (feed_partial (hevents _ (List.getElem_mem hn)) hbefore.1 (hresolved n)).1
  · obtain ⟨hstill, hbuffer⟩ := run_partial hevents hopen hempty (hresolved 0)
    have hspec := complete_spec (r := r.run ds events) (by rwa [run_type, htype]) hresolves final
    rw [hbuffer, run_type, htype] at hspec
    dsimp only
    rw [feed_completed hstill]
    obtain ⟨hvalue, herror⟩ := hspec
    refine ⟨⟨fun hcomplete => ?_, fun ⟨v, hv⟩ => (hvalue v hv).1⟩, fun v hv => ?_, fun e he => ?_⟩
    · cases h : decodeText ds (final.getD (textOf events)) t with
      | ok v => exact ⟨v, rfl⟩
      | error e =>
        rw [(herror e h).1] at hcomplete
        cases hcomplete
    · obtain ⟨hstate, hresult, houtcome⟩ := hvalue v hv
      exact ⟨houtcome, hresult, by rw [result, if_pos hstate, hresult]⟩
    · obtain ⟨hstate, hreports⟩ := herror e he
      exact ⟨hstate, hreports, _, by rw [result, if_neg (by rw [hstate]; decide)]⟩

/-! ### A fork that is told twice -/

namespace Forest

def three : Double := ⟨false, 3 * unitsPerOne, by decide +kernel, by decide +kernel⟩

theorem ofInt_three : Floating.ofInt 3 = .finite three := by decide +kernel

theorem toInt?_three : three.toInt? = some 3 := by decide +kernel

/-- A fork with a leaf in front and nothing behind. -/
def bareFork : Content :=
  .object [("value", .object [("type", .string "leaf"), ("size", .number three)]),
    ("behind", .null)]

def bareForkText : List Char :=
  "\x7b\"value\":\x7b\"type\":\"leaf\",\"size\":3\x7d,\"behind\":null\x7d".toList

theorem parse_bareForkText : Content.parse bareForkText = .ok bareFork := by
  have hread : Json.read bareForkText = .ok (.object
      [("value", .object [("type", .string "leaf"), ("size", .integer 3)]), ("behind", .null)]) := by
    cbv
  rw [Content.parse, hread]
  simp [Content.ofReading, Content.ofJson, Content.ofJsonEntries, Content.ofInteger, ofInt_three,
    Content.ofFinite, Except.map, bind, Except.bind, Content.ofEntries, Entries.ofList,
    Entries.putAll, Entries.put, bareFork]

theorem decode_bareFork :
    decode forest bareFork (.named "Fork") = .ok (forkValue (leafValue 3) .null) := by
  rw [decode_eq shapeOf_fork]
  simp [bareFork, Decoding.value, fork, Shape.core, fieldShapes_fork, Except.mapError, forkFields,
    bind, Except.bind, pure, Except.pure, Decoding.field, tree, fieldShapes_leaf, leafFields,
    Decoding.caseOf, Entries.get?, discriminatorKey, Content.asString, caseFor?, integer,
    Content.isNull, Content.kind, Shape.isOptional, Decoding.leaf, decodePrimitive,
    Content.asNumber, toInt?_three, List.mapM_cons]
  cbv

/-- Events that contradict each other until the text is told again and completed. -/
def toldTwice : List StreamEvent :=
  [.delta "\x7b\"behind\":".toList, .native (.array []), .fragment (bareForkText.take 12),
    .native bareFork, .delta (bareForkText.drop 12)]

theorem isPartial_toldTwice : ∀ event ∈ toldTwice, event.IsPartial := by
  intro event h
  simp only [toldTwice, List.mem_cons, List.not_mem_nil, or_false] at h
  rcases h with rfl | rfl | rfl | rfl | rfl <;> constructor

theorem textOf_toldTwice : textOf toldTwice = bareForkText := by
  simp [textOf, toldTwice, wholeText?, addedText, List.findSome?]

end Forest

open Forest in
theorem completion_eq_decodeText_forest :
    ∃ r, Reconstructor.start forest (.named "Fork") ⟨true⟩ = .ok r ∧
      forest.shapeOf (.named "Fork") = .ok fork ∧ Resolves forest fork ∧
        (∀ event ∈ toldTwice, event.IsPartial) ∧
          ((r.run forest toldTwice).feed forest (.completed none)).next.result forest =
            .ok (forkValue (leafValue 3) .null) := by
  have hstart : Reconstructor.start forest (.named "Fork") ⟨true⟩ =
      .ok ⟨.named "Fork", "Fork", ⟨true⟩, [], .empty, .empty, .unknown, .null⟩ := by cbv
  have hvalue : decodeText forest (textOf toldTwice) (.named "Fork") =
      .ok (forkValue (leafValue 3) .null) :=
    decodeText_eq_ok.mpr ⟨bareFork, textOf_toldTwice ▸ parse_bareForkText, decode_bareFork⟩
  have hcompletion :=
    completion_eq_decodeText hstart shapeOf_fork resolves isPartial_toldTwice none
  exact ⟨_, hstart, shapeOf_fork, resolves, isPartial_toldTwice,
    (hcompletion.2.2.1 _ hvalue).2.2⟩

end StructuredOutput

import StructuredOutput.Proofs.Stream.Completion
import StructuredOutput.Proofs.Stream.Memory
import StructuredOutput.Proofs.Stream.Order

/-!
The stages of a stream. One relation says all that an event can do to a stream that has not ended;
from it follows what a stage says of the other parts of a stream, and that nothing follows the end.
-/

namespace StructuredOutput

variable {ds : Declarations} {r : Reconstructor}

open StreamEvent

/-! ### Content that decodes tells something -/

namespace Snapshot

theorem ne_unknown_of_leafValue {shape : Shape} {c : Content} {v : Value}
    (h : Decoding.LeafValue ds shape c v) : leaf ds shape c ≠ .unknown := by
  cases h with
  | text | bool | real => simp [leaf, primitive]
  | integer whole => simp [leaf, primitive, whole]
  | literal option => simp [leaf, option]
  | member declared => simp [leaf, declared, EnumDecl.memberValue]

/-- Content that decodes to a value of a shape tells something about it. -/
theorem ne_unknown_of_decode {c : Content} {shape : Shape} {path : Path} {v observed : Value}
    (hdecode : Decoding.value ds c shape path = .ok v)
    (hobserved : value ds c shape = .ok observed) : observed ≠ .unknown := by
  cases Decoding.gives_of_value hdecode with
  | null optional =>
    rw [value_of_isScalar rfl, optional] at hobserved
    cases hobserved
    simp
  | leaf holds =>
    cases tells_of_value hobserved with
    | null => simp
    | leaf => exact ne_unknown_of_leafValue holds
    | items | noItems | noInstance | slots => cases holds.isScalar
  | items core =>
    cases tells_of_value hobserved with
    | leaf scalar => cases scalar
    | noItems other => exact absurd core (other _ _ _)
    | items => simp
  | made belongs =>
    cases tells_of_value hobserved with
    | leaf scalar => cases scalar
    | noInstance stranger => cases stranger.symm.trans belongs
    | slots => simp

end Snapshot

/-! ### What an event does -/

namespace StreamEvent

/-- Events that may be errors: the end of a stream, good or bad. -/
inductive MayFail : StreamEvent → Prop
  | completed (text : Option (List Char)) : MayFail (.completed text)
  | failed (error : AdapterError) : MayFail (.failed error)

end StreamEvent

namespace Reconstructor

/-- What an event can do to a stream that has not ended. -/
inductive Turn (r : Reconstructor) : StreamEvent → Fed → Prop
  /-- Nothing is learned, though the text may be another one. -/
  | pass {event : StreamEvent} (goesOn : event.IsPartial ∨ ∃ kind, event = .other kind)
      (buffer : List Char) (notices : List Notice) :
      Turn r event ⟨.ok none, { r with buffer }, notices⟩
  | learn {event : StreamEvent} (goesOn : event.IsPartial) (buffer : List Char) {known : Value}
      (something : known ≠ .unknown) (notices : List Notice) :
      Turn r event ⟨.ok (some ({ r with buffer, known }.enter .partly).view),
        { r with buffer, known }.enter .partly, notices⟩
  | complete (text : Option (List Char)) {known : Value} (something : known ≠ .unknown)
      (value : Value) (notices : List Notice) :
      Turn r (.completed text) ⟨.ok (some ({ r with known, value }.enter .complete).view),
        { r with known, value }.enter .complete, notices⟩
  | fail {event : StreamEvent} (mayFail : event.MayFail) (error : StreamError)
      (notices : List Notice) : Turn r event ⟨.error error, r.enter .failed, notices⟩
  | cancel (notices : List Notice) :
      Turn r .cancelled ⟨.ok none, r.enter .cancelled, notices⟩

theorem merge_ne_unknown {previous current : Value} (h : current ≠ .unknown) :
    Snapshot.merge previous current ≠ .unknown := by
  by_cases hpaired : Value.Paired previous current
  · cases current <;> cases previous <;> simp_all [Value.Paired, Snapshot.merge]
  · rw [Snapshot.merge_of_unpaired hpaired h]
    exact h

theorem ingest_turn (hresolved : Resolved ds r.type) {event : StreamEvent}
    (hevent : event.IsPartial) (buffer : List Char) (c : Content) :
    Turn r event ({ r with buffer }.ingest ds c) := by
  obtain ⟨shape, hshape, hresolves⟩ := hresolved
  obtain ⟨observed, hobserved⟩ := exists_snapshot hshape hresolves c
  unfold ingest
  dsimp only
  rw [hobserved]
  dsimp only
  split
  · exact .pass (.inl hevent) buffer _
  · next hknown =>
    have hsomething : observed ≠ .unknown :=
      Value.isUnknown_eq_false.mp (Bool.eq_false_of_not_eq_true hknown)
    exact .learn hevent buffer (merge_ne_unknown hsomething) _

theorem ingestText_turn (hresolved : Resolved ds r.type) {event : StreamEvent}
    (hevent : event.IsPartial) (buffer : List Char) :
    Turn r event ({ r with buffer }.ingestText ds) := by
  rcases ingestText_cases ds { r with buffer } with ⟨notices, h⟩ | ⟨c, -, h⟩ <;> rw [h]
  · exact .pass (.inl hevent) buffer notices
  · exact ingest_turn hresolved hevent buffer c

theorem complete_turn (hresolved : Resolved ds r.type) (text : Option (List Char)) :
    Turn r (.completed text) (r.complete ds text) := by
  obtain ⟨shape, hshape, hresolves⟩ := hresolved
  unfold complete
  split
  · exact .fail (.completed text) _ _
  · next c _ =>
    split
    · exact .fail (.completed text) _ _
    · exact .fail (.completed text) _ _
    · next fault _ hdecode =>
      rw [decode_eq hshape] at hdecode
      exact absurd rfl (Decoding.isOfContent_value c hresolves hdecode fault)
    · exact .fail (.completed text) _ _
    · next v hdecode =>
      obtain ⟨observed, hobserved⟩ := exists_snapshot hshape hresolves c
      rw [hobserved]
      rw [decode_eq hshape] at hdecode
      have hvalue : Snapshot.value ds c shape = .ok observed := by
        simpa [snapshot, hshape] using hobserved
      have hsomething := Snapshot.ne_unknown_of_decode hdecode hvalue
      exact .complete text (merge_ne_unknown hsomething) v _

/-- Every event does one of these things to a stream that has not ended. -/
theorem feed_turn (hopen : r.IsOpen) (hresolved : Resolved ds r.type) (event : StreamEvent) :
    Turn r event (r.feed ds event) := by
  unfold feed
  rw [if_neg (ne_true_of_eq_false hopen)]
  cases event with
  | fragment text => exact ingestText_turn hresolved (.fragment text) text
  | delta text => exact ingestText_turn hresolved (.delta text) (r.buffer ++ text)
  | native c => exact ingest_turn hresolved (.native c) r.buffer c
  | completed text => exact complete_turn hresolved text
  | failed error => exact .fail (.failed error) _ _
  | cancelled => exact .cancel _
  | other kind => exact .pass (.inr ⟨kind, rfl⟩) r.buffer _

/-- After the end of a stream an event does nothing. -/
theorem feed_of_ended (hended : r.state.isTerminal = true) (event : StreamEvent) :
    (r.feed ds event).outcome = .ok none ∧ (r.feed ds event).next = r := by
  unfold feed
  rw [if_pos hended]
  exact ⟨rfl, rfl⟩

/-- A reconstructor that has ended stays as it is. -/
theorem run_of_ended (hended : r.state.isTerminal = true) (events : List StreamEvent) :
    r.run ds events = r := by
  apply run_invariant (P := fun s => s = r) _ rfl
  rintro s event rfl
  exact (feed_of_ended hended event).2

/-! ### What a turn changes -/

section Turn

variable {event : StreamEvent} {fed : Fed}

/-- Only completion changes the value. -/
theorem Turn.complete_of_value_ne (h : Turn r event fed) (hvalue : fed.next.value ≠ r.value) :
    fed.next.state = .complete := by
  cases h with
  | pass | learn | fail | cancel => exact absurd rfl hvalue
  | complete => rfl

/-- Only completion leads to the complete state, and it tells something. -/
theorem Turn.of_complete (h : Turn r event fed) (hopen : r.IsOpen)
    (hcomplete : fed.next.state = .complete) :
    (∃ text, event = .completed text) ∧ fed.next.known ≠ .unknown := by
  cases h with
  | pass =>
    have hstate : r.state = .complete := hcomplete
    rw [IsOpen, hstate] at hopen
    cases hopen
  | learn | fail | cancel => cases hcomplete
  | complete text something => exact ⟨⟨text, rfl⟩, something⟩

/-- A turn that is an error is a failure, and changes no more than the state. -/
theorem Turn.of_error (h : Turn r event fed) {e : StreamError} (herror : fed.outcome = .error e) :
    event.MayFail ∧ fed.next = r.enter .failed := by
  cases h with
  | pass | learn | complete | cancel => cases herror
  | fail mayFail => exact ⟨mayFail, rfl⟩

/-- A turn that ends a stream without a value keeps what was seen. -/
theorem Turn.view_of_ended (h : Turn r event fed) (hopen : r.IsOpen)
    (hended : fed.next.state = .failed ∨ fed.next.state = .cancelled) :
    fed.next.view = r.view := by
  cases h with
  | pass =>
    have hstate : r.state = .failed ∨ r.state = .cancelled := hended
    rw [IsOpen] at hopen
    rcases hstate with hstate | hstate <;> rw [hstate] at hopen <;> cases hopen
  | learn | complete => rcases hended with hended | hended <;> cases hended
  | fail | cancel => rfl

end Turn

/-! ### What a stage says -/

/-- What the stage of a stream says of its other parts. -/
structure Staged (r : Reconstructor) : Prop where
  visible : r.IsOpen → r.visible = r.state
  empty : r.IsOpen → (r.state = .empty ↔ r.known = .unknown)
  valueless : r.state ≠ .complete → r.value = .null
  complete : r.state = .complete → r.known ≠ .unknown

theorem Turn.staged {event : StreamEvent} {fed : Fed} (h : Turn r event fed) (hopen : r.IsOpen)
    (hr : Staged r) : Staged fed.next := by
  have hvalue : r.value = .null := by
    apply hr.valueless
    intro hcomplete
    rw [IsOpen, hcomplete] at hopen
    cases hopen
  cases h with
  | pass => exact ⟨hr.visible, hr.empty, hr.valueless, hr.complete⟩
  | learn _ _ something =>
    constructor
    · intro _
      rfl
    · intro _
      simp [enter, something]
    · intro _
      exact hvalue
    · intro hcomplete
      cases hcomplete
  | complete text something value =>
    constructor
    · intro hopen
      cases hopen
    · intro hopen
      cases hopen
    · intro hstate
      exact absurd rfl hstate
    · intro _
      exact something
  | fail | cancel =>
    constructor
    · intro hopen
      cases hopen
    · intro hopen
      cases hopen
    · intro _
      exact hvalue
    · intro hcomplete
      cases hcomplete

/-- A stream of a type is sound when it decodes to that type and is staged. -/
structure Sound (ds : Declarations) (t : TypeExpr) (r : Reconstructor) : Prop where
  type : r.type = t
  staged : Staged r

theorem sound_feed {t : TypeExpr} (hresolved : Resolved ds t) (hr : Sound ds t r)
    (event : StreamEvent) : Sound ds t (r.feed ds event).next := by
  refine ⟨(feed_type event).trans hr.type, ?_⟩
  by_cases hended : r.state.isTerminal = true
  · rw [(feed_of_ended hended event).2]
    exact hr.staged
  · have hopen : r.IsOpen := Bool.eq_false_of_not_eq_true hended
    have hresolved' : Resolved ds r.type := by rwa [hr.type]
    exact (feed_turn hopen hresolved' event).staged hopen hr.staged

theorem sound_run {t : TypeExpr} (hresolved : Resolved ds t) (hr : Sound ds t r)
    (events : List StreamEvent) : Sound ds t (r.run ds events) :=
  run_invariant (P := Sound ds t) (fun _ event hs => sound_feed hresolved hs event) hr events

/-- A stream that has ended was ended by one of its events. -/
theorem exists_ending (hopen : r.IsOpen) {events : List StreamEvent}
    (hended : (r.run ds events).state.isTerminal = true) :
    ∃ n, ∃ hn : n < events.length, (r.run ds (events.take n)).IsOpen ∧
      r.run ds events = ((r.run ds (events.take n)).feed ds events[n]).next := by
  induction events using List.reverseRecOn with
  | nil =>
    rw [run_nil, hopen] at hended
    cases hended
  | append_singleton events event ih =>
    by_cases hbefore : (r.run ds events).state.isTerminal = true
    · obtain ⟨n, hn, hstill, hend⟩ := ih hbefore
      refine ⟨n, by simp; omega, ?_, ?_⟩
      · rwa [List.take_append_of_le_length (Nat.le_of_lt hn)]
      · rw [run_concat, (feed_of_ended hbefore event).2, hend,
          List.take_append_of_le_length (Nat.le_of_lt hn), List.getElem_append_left hn]
    · refine ⟨events.length, by simp, ?_, ?_⟩
      · rw [List.take_left]
        exact Bool.eq_false_of_not_eq_true hbefore
      · rw [run_concat, List.take_left, List.getElem_append_right (Nat.le_refl _)]
        simp

end Reconstructor

open Reconstructor

/-- The stages of a stream of a type that resolves, after any events. An ended stream takes in
nothing. An open stream is empty as long as nothing is known, and its snapshot is in the same state.
A stream that failed or was cancelled shows what it showed before its end. Only completion gives a
value, and only the end of a stream can be an error, which changes nothing but the state. -/
theorem stream_stages {t : TypeExpr} {shape : Shape} {settings : StreamSettings}
    (hstart : Reconstructor.start ds t settings = .ok r) (hshape : ds.shapeOf t = .ok shape)
    (hresolves : Resolves ds shape) (events : List StreamEvent) :
    let s := r.run ds events
    (s.state.isTerminal = true → ∀ event,
      (s.feed ds event).outcome = .ok none ∧ (s.feed ds event).next = s) ∧
    (s.state.isTerminal = false →
      (s.state = .empty ↔ s.known = .unknown) ∧ (s.state = .partly ↔ s.known ≠ .unknown) ∧
        s.view.state = s.state) ∧
    (s.state = .failed ∨ s.state = .cancelled → ∃ n, ∃ hn : n < events.length,
      let before := r.run ds (events.take n)
      before.state.isTerminal = false ∧ s = (before.feed ds events[n]).next ∧
        s.view.state = before.view.state ∧ s.view.known = before.view.known) ∧
    ((s.state ≠ .complete → s.value = .null) ∧ ∀ event,
      let next := (s.feed ds event).next
      (next.value ≠ s.value → s.state ≠ .complete ∧ next.state = .complete) ∧
      (s.state ≠ .complete → next.state = .complete →
        (∃ text, event = .completed text) ∧ next.known ≠ .unknown)) ∧
    ∀ event e, (s.feed ds event).outcome = .error e →
      let next := (s.feed ds event).next
      ((∃ text, event = .completed text) ∨ ∃ cause, event = .failed cause) ∧
        next.state = .failed ∧ next.buffer = s.buffer ∧ next.known = s.known ∧
          next.value = s.value := by
  obtain ⟨-, hr⟩ := start_eq_ok hstart
  have hopen : r.IsOpen := by rw [hr]; rfl
  have hresolved : Resolved ds t := ⟨shape, hshape, hresolves⟩
  have hfresh : Sound ds t r := by
    rw [hr]
    exact ⟨rfl, fun _ => rfl, fun _ => by simp, fun _ => rfl, fun h => by cases h⟩
  have hsound := sound_run hresolved hfresh events
  have hturn (n : Nat) (event : StreamEvent) (hbefore : (r.run ds (events.take n)).IsOpen) :
      Turn (r.run ds (events.take n)) event ((r.run ds (events.take n)).feed ds event) := by
    apply feed_turn hbefore
    rwa [(sound_run hresolved hfresh (events.take n)).type]
  have hlast (event : StreamEvent) (hstill : (r.run ds events).IsOpen) :
      Turn (r.run ds events) event ((r.run ds events).feed ds event) := by
    have h := hturn events.length event
    rw [List.take_length] at h
    exact h hstill
  intro s
  refine ⟨fun hended => feed_of_ended hended, fun hstill => ?_, fun hended => ?_,
    ⟨hsound.staged.valueless, fun event => ?_⟩, fun event e herror => ?_⟩
  · have hempty := hsound.staged.empty hstill
    refine ⟨hempty, ?_, hsound.staged.visible hstill⟩
    show s.state = .partly ↔ ¬s.known = .unknown
    rw [← hempty]
    have hstate : s.state.isTerminal = false := hstill
    cases h : s.state <;> simp [h, StreamState.isTerminal] at hstate ⊢
  · have hterminal : s.state.isTerminal = true := by
      rcases hended with h | h <;> rw [h] <;> rfl
    obtain ⟨n, hn, hbefore, hend⟩ := exists_ending hopen hterminal
    have hview : s.view = (r.run ds (events.take n)).view := by
      show (r.run ds events).view = _
      rw [hend]
      apply (hturn n events[n] hbefore).view_of_ended hbefore
      rwa [← hend]
    exact ⟨n, hn, hbefore, hend, congrArg StreamView.state hview, congrArg StreamView.known hview⟩
  · by_cases hended : s.state.isTerminal = true
    · rw [(feed_of_ended hended event).2]
      exact ⟨fun h => absurd rfl h, fun h h' => absurd h' h⟩
    · have hstill : s.IsOpen := Bool.eq_false_of_not_eq_true hended
      refine ⟨fun hvalue => ⟨?_, (hlast event hstill).complete_of_value_ne hvalue⟩, fun _ h => ?_⟩
      · intro hcomplete
        rw [hcomplete] at hended
        exact hended rfl
      · exact (hlast event hstill).of_complete hstill h
  · have hstill : s.IsOpen := by
      apply Bool.eq_false_of_not_eq_true
      intro hended
      rw [(feed_of_ended hended event).1] at herror
      cases herror
    obtain ⟨hevent, hnext⟩ := (hlast event hstill).of_error herror
    show _ ∧ ((s.feed ds event).next).state = _ ∧ _
    rw [hnext]
    refine ⟨?_, rfl, rfl, rfl, rfl⟩
    cases hevent with
    | completed text => exact .inl ⟨text, rfl⟩
    | failed cause => exact .inr ⟨cause, rfl⟩

namespace Forest

/-- A fork of which a part is told before the text turns out to be no JSON, and a late event. -/
def cutShort : List StreamEvent :=
  [.native (.object [("value", .object [("type", .string "leaf")])]), .other "Heartbeat",
    .completed (some "[".toList), .cancelled]

end Forest

open Forest in
theorem stream_stages_forest :
    Reconstructor.start forest (.named "Fork") ⟨true⟩ = .ok forkStream ∧
      forest.shapeOf (.named "Fork") = .ok fork ∧ Resolves forest fork ∧
        (forkStream.run forest cutShort).state = .failed ∧
          ∃ n, ∃ hn : n < cutShort.length,
            forkStream.run forest cutShort =
                ((forkStream.run forest (cutShort.take n)).feed forest cutShort[n]).next ∧
              (forkStream.run forest cutShort).view.known =
                (forkStream.run forest (cutShort.take n)).view.known := by
  have hstart : Reconstructor.start forest (.named "Fork") ⟨true⟩ = .ok forkStream := by cbv
  have hfailed : (forkStream.run forest cutShort).state = .failed := by cbv
  have hstages := stream_stages hstart shapeOf_fork resolves cutShort
  obtain ⟨n, hn, -, hend, -, hknown⟩ := hstages.2.2.1 (.inl hfailed)
  exact ⟨hstart, shapeOf_fork, resolves, hfailed, n, hn, hend, hknown⟩

end StructuredOutput

import StructuredOutput.Proofs.Stream.Convergence
import StructuredOutput.Proofs.Stream.Escapes
import StructuredOutput.Proofs.Stream.Foretells

/-!
Settled choices: when the text of an encoded value comes in parts, an option, a member or a case
that a snapshot shows is shown by every later snapshot and by the value, where no text that stands
for a choice begins another one. The text may be cut into any pieces, and it does not matter
whether it can be read in the end.
-/

namespace StructuredOutput

open Json Text

/-! ### What is kept of a text -/

namespace Repair

variable {cs ds es : List Char}

/-- A text that keeps the beginning of another one and closes it. -/
def ClosesBeginning (cs ds : List Char) : Prop :=
  ∃ kept closing, ds = kept ++ closing ∧ kept <+: cs ∧ ClosingMarks closing

theorem ClosesBeginning.of_prefix (h : ClosesBeginning cs ds) (hes : es <+: ds) :
    ClosesBeginning cs es := by
  obtain ⟨kept, closing, rfl, hkept, hclosing⟩ := h
  rcases prefix_append_cases hes with ⟨hes, -⟩ | ⟨more, rfl, hmore⟩
  · exact ⟨es, [], by simp, hes.trans hkept, hclosing.of_prefix List.nil_prefix⟩
  · exact ⟨kept, more, rfl, hkept, hclosing.of_prefix hmore⟩

theorem ClosesBeginning.append (h : ClosesBeginning cs ds) (hes : Brackets es) :
    ClosesBeginning cs (ds ++ es) := by
  obtain ⟨kept, closing, rfl, hkept, hclosing⟩ := h
  exact ⟨kept, closing ++ es, List.append_assoc _ _ _, hkept, hclosing.append hes⟩

theorem brackets_closers (os : List Opened) : Brackets (closers os) := by
  intro c hc
  obtain ⟨o, -, rfl⟩ := List.mem_map.mp hc
  exact ⟨o.isObject, rfl⟩

theorem closesBeginning_closeString (s : Scan) (cs : List Char) :
    ClosesBeginning cs (closeString s cs) := by
  have hnone : Brackets [] := fun c hc => absurd hc List.not_mem_nil
  unfold closeString
  split
  · split
    · exact ⟨cs.dropLast, _, rfl, List.dropLast_prefix cs, .quote hnone⟩
    · exact ⟨cs, _, rfl, List.prefix_rfl, .quote hnone⟩
  · exact ⟨cs, [], by simp, List.prefix_rfl, .brackets hnone⟩

theorem cutBack_begins (cs : List Char) (os : List Opened) : (cutBack cs os).1 <+: cs := by
  induction os generalizing cs with
  | nil => exact List.prefix_rfl
  | cons o os ih =>
    rw [cutBack]
    split
    · exact List.take_prefix _ cs
    · exact (ih _).trans (List.take_prefix _ cs)

theorem closesBeginning_closing (s : Scan) (cs : List Char) :
    ClosesBeginning cs (closing s cs) := by
  have hclosed := closesBeginning_closeString s cs
  cases hopened : s.opened with
  | nil =>
    rw [closing, hopened]
    exact hclosed
  | cons o os =>
    rw [closing_eq hopened rfl]
    split
    · exact hclosed.append (brackets_closers _)
    · exact (hclosed.of_prefix (cutBack_begins _ _)).append (brackets_closers _)

/-- No blank stands before what closes a beginning of a text without blanks before it. -/
theorem ClosesBeginning.trimLeft_eq (h : ClosesBeginning cs ds) (hcs : Stops isBlank cs) :
    trimLeft ds = ds := by
  obtain ⟨kept, closing, rfl, hkept, hclosing⟩ := h
  have hstops : Stops isBlank (kept ++ closing) := by
    rcases kept with _ | ⟨k, kept⟩
    · cases closing with
      | nil => exact stops_nil _
      | cons c closing =>
        apply stops_cons
        rcases hclosing.head_cases.1 with rfl | ⟨keyed, rfl⟩
        · rfl
        · exact (isBlank_bracket keyed).2
    · obtain ⟨rest, rfl⟩ := hkept
      exact stops_cons (hcs k rfl)
  cases hchars : kept ++ closing with
  | nil => rfl
  | cons c rest =>
    rw [trimLeft, List.dropWhile_cons_of_neg]
    simp [hstops c (by rw [hchars]; rfl)]

/-- A text without blanks before it is repaired to a beginning that is closed, or to an empty
container. -/
theorem repair_beginning_cases (hcs : Stops isBlank cs) :
    ClosesBeginning cs (repair cs) ∨
      ∃ keyed, repair cs = [openBracket keyed, closeBracket keyed] := by
  have hclosing := closesBeginning_closing (scan cs) cs
  rcases repair_cases cs with hrepair | ⟨-, hempty⟩
  · left
    rw [hrepair, trim, hclosing.trimLeft_eq hcs]
    exact hclosing.of_prefix (trimRight_begins _)
  · exact .inr hempty

end Repair

open Repair

/-- Whatever the repair of a beginning of the text of a tree holds heralds the tree. -/
theorem heralds_of_parse_repair {b c : Content} (hkeys : c.KeysDiffer) {told : List Char}
    (htold : told <+: (c.serialize none).toList) (h : Content.parse (repair told) = .ok b) :
    b.Heralds c.positiveZeros := by
  have hstops : Stops isBlank told := by
    obtain ⟨first, cs, htext, hfirst⟩ := Content.exists_serialize_cons hkeys
    rw [htext] at htold
    cases told with
    | nil => exact stops_nil _
    | cons d told =>
      obtain ⟨rfl, -⟩ := List.cons_prefix_cons.mp htold
      exact stops_cons (isBlank_of_beginsValue hfirst)
  rcases repair_beginning_cases hstops with ⟨kept, closing, hrepair, hkept, hclosing⟩ |
    ⟨keyed, hrepair⟩
  · rw [hrepair] at h
    exact Content.heralds_of_parse hkeys (hkept.trans htold) hclosing h
  · have hempty : Content.parse [openBracket keyed, closeBracket keyed] =
        .ok (Content.container keyed []) := by
      cases keyed <;> rfl
    rw [hrepair, hempty] at h
    cases h
    exact Content.heralds_empty keyed _

/-! ### What a stream foretells -/

variable {ds : Declarations} {t : TypeExpr} {shape : Shape} {c : Content}

namespace Reconstructor

/-- A stream that was told the beginning of the text of a tree, piece by piece. What it knows is
foretold by the tree. -/
structure Follows (ds : Declarations) (t : TypeExpr) (shape : Shape) (c : Content)
    (told : List Char) (r : Reconstructor) : Prop where
  type : r.type = t
  repairs : r.settings.repairPartial = true
  isOpen : r.IsOpen
  buffer : r.buffer = told
  known : Foretells ds c.positiveZeros shape r.known

section Feeding

variable (hshape : ds.shapeOf t = .ok shape) (hfree : PrefixFree ds shape)
  (hkeys : c.KeysDiffer)

include hshape in
theorem foretells_snapshot {b : Content} {observed : Value} (h : b.Heralds c)
    (hobserved : snapshot ds b t = .ok observed) : Foretells ds c shape observed := by
  rw [snapshot, hshape] at hobserved
  exact Snapshot.foretells_value h hobserved

include hshape hfree in
/-- Content that heralds the tree bears out what is known. -/
theorem follows_ingest {told : List Char} {r : Reconstructor} (hr : Follows ds t shape c told r)
    {b : Content} (hb : b.Heralds c.positiveZeros) :
    BearsOut ds shape r.known (r.ingest ds b).next.known ∧
      Follows ds t shape c told (r.ingest ds b).next := by
  have hcontinues := ingest_continues ds r b
  have hnext (hknown : Foretells ds c.positiveZeros shape (r.ingest ds b).next.known) :
      Follows ds t shape c told (r.ingest ds b).next :=
    ⟨hcontinues.type.trans hr.type, by rw [hcontinues.settings, hr.repairs],
      hcontinues.isOpen hr.isOpen, hcontinues.buffer.trans hr.buffer, hknown⟩
  rcases ingest_known ds r b with hknown | ⟨observed, hobserved, hknown⟩
  · rw [hknown] at hnext ⊢
    exact ⟨.same shape _, hnext hr.known⟩
  · rw [hr.type] at hobserved
    have hforetold := foretells_snapshot hshape hb hobserved
    rw [hknown] at hnext ⊢
    exact ⟨Snapshot.bearsOut_merge hfree hr.known hforetold,
      hnext (Snapshot.foretells_merge hr.known hforetold)⟩

include hshape hfree hkeys in
/-- Another piece of the text bears out what is known. -/
theorem follows_feed {told chunk : List Char} {r : Reconstructor}
    (hr : Follows ds t shape c told r) (hnext : told ++ chunk <+: (c.serialize none).toList) :
    BearsOut ds shape r.known (r.feed ds (.delta chunk)).next.known ∧
      Follows ds t shape c (told ++ chunk) (r.feed ds (.delta chunk)).next := by
  obtain rfl := hr.buffer
  let longer : Reconstructor := { r with buffer := r.buffer ++ chunk }
  have hlonger : Follows ds t shape c (r.buffer ++ chunk) longer :=
    ⟨hr.type, hr.repairs, hr.isOpen, rfl, hr.known⟩
  have hlegible : longer.legible = repair (r.buffer ++ chunk) := if_pos hr.repairs
  rw [feed_delta hr.isOpen]
  rcases ingestText_cases ds longer with ⟨notices, hnone⟩ | ⟨b, hparse, hsome⟩
  · rw [hnone]
    exact ⟨.same shape _, hlonger⟩
  · rw [hsome]
    rw [hlegible] at hparse
    exact follows_ingest hshape hfree hlonger (heralds_of_parse_repair hkeys hnext hparse)

include hshape hfree hkeys in
/-- The next of the pieces of the text. -/
theorem follows_next {chunks : List (List Char)}
    (hchunks : chunks.flatten = (c.serialize none).toList) {n : Nat} (hn : n < chunks.length)
    {r : Reconstructor} (hr : Follows ds t shape c (chunks.take n).flatten r) :
    BearsOut ds shape r.known (r.feed ds (.delta chunks[n])).next.known ∧
      Follows ds t shape c (chunks.take (n + 1)).flatten (r.feed ds (.delta chunks[n])).next := by
  obtain ⟨hflatten, hbeginning⟩ := flatten_take_succ hn
  rw [hflatten]
  exact follows_feed hshape hfree hkeys hr (hchunks ▸ hbeginning)

include hshape hfree hkeys in
theorem follows_run {chunks : List (List Char)}
    (hchunks : chunks.flatten = (c.serialize none).toList) {r : Reconstructor}
    (hr : Follows ds t shape c [] r) {n : Nat} (hn : n ≤ chunks.length) :
    Follows ds t shape c (chunks.take n).flatten (r.run ds ((chunks.map .delta).take n)) :=
  run_deltas (P := Follows ds t shape c)
    (fun _ _ _ hs hnext => (follows_feed hshape hfree hkeys hs (hchunks ▸ hnext)).2) hr hn

include hshape hfree hkeys in
/-- A choice that is shown once is shown after every further piece. -/
theorem choiceAt_run {chunks : List (List Char)}
    (hchunks : chunks.flatten = (c.serialize none).toList) {r : Reconstructor}
    (hr : Follows ds t shape c [] r) {place : List PartStep} {choice : Choice} {i j : Nat}
    (hij : i ≤ j) (hj : j ≤ chunks.length)
    (hchoice : choiceAt ds place shape (r.run ds ((chunks.map .delta).take i)).known =
      some choice) :
    choiceAt ds place shape (r.run ds ((chunks.map .delta).take j)).known = some choice := by
  induction j, hij using Nat.le_induction with
  | base => exact hchoice
  | succ j hij ih =>
    have hlast : j < (chunks.map StreamEvent.delta).length := by simpa using hj
    have hfollows := follows_run hshape hfree hkeys hchunks hr (Nat.le_of_succ_le hj)
    rw [run_take_succ hlast, List.getElem_map]
    exact (follows_next hshape hfree hkeys hchunks hj hfollows).1.choiceAt_eq
      (ih (Nat.le_of_succ_le hj))

include hshape hfree hkeys in
/-- The end of the stream bears out what is known, and so does the value. -/
theorem follows_complete {r : Reconstructor}
    (hr : Follows ds t shape c (c.serialize none).toList r) :
    let next := (r.feed ds (.completed none)).next
    BearsOut ds shape r.known next.known ∧
      ∀ w, next.result ds = .ok w → BearsOut ds shape r.known w := by
  dsimp only
  rw [feed_completed hr.isOpen]
  rcases complete_cases ds r none with
    (hnext | hnext) | ⟨b, observed, v, hparse, hdecode, hobserved, hnext⟩ <;> rw [hnext]
  · refine ⟨.same shape _, fun w hresult => ?_⟩
    -- an open stream has no result
    have hopen : r.state ≠ .complete := by
      intro hstate
      have hopen := hr.isOpen
      rw [IsOpen, hstate] at hopen
      cases hopen
    rw [result, if_neg hopen] at hresult
    cases hresult
  · exact ⟨.same shape _, fun w hresult => by cases hresult⟩
  · rw [Option.getD_none, hr.buffer] at hparse
    obtain rfl := Content.eq_of_parse_serialize hkeys hparse
    rw [hr.type] at hdecode hobserved
    have hforetold := foretells_snapshot hshape (.refl _) hobserved
    refine ⟨Snapshot.bearsOut_merge hfree hr.known hforetold, fun w hresult => ?_⟩
    cases hresult
    exact Snapshot.bearsOut_of_holds hfree hr.known (holds_of_decode hshape hdecode)

end Feeding

end Reconstructor

open Reconstructor

/-- Choices are settled: once a snapshot of the text of an encoded value shows an option, a member
or a case at a place, every later one shows it, the last one after the end of the stream too, and
so does the value, however the text is cut into pieces. No text that stands for an option, a member
or a case begins another one. -/
theorem choices_settled (hshape : ds.shapeOf t = .ok shape) (hfree : PrefixFree ds shape)
    {v : Value} (hencode : encode ds v (some t) = .ok c) {settings : StreamSettings}
    (hrepairs : settings.repairPartial = true) {r : Reconstructor}
    (hstart : Reconstructor.start ds t settings = .ok r) {chunks : List (List Char)}
    (hchunks : chunks.flatten = (c.serialize none).toList) :
    let events := chunks.map StreamEvent.delta
    let told := fun n => r.run ds (events.take n)
    let ended := ((r.run ds events).feed ds (.completed none)).next
    ∀ place choice, ∀ i ≤ chunks.length,
      choiceAt ds place shape (told i).known = some choice →
        (∀ j, i ≤ j → j ≤ chunks.length →
          choiceAt ds place shape (told j).known = some choice) ∧
        choiceAt ds place shape ended.known = some choice ∧
        ∀ w, ended.result ds = .ok w → choiceAt ds place shape w = some choice := by
  intro events told ended place choice i hi hchoice
  have hkeys := keysDiffer_encode hencode
  have hfirst : Follows ds t shape c [] r := by
    rw [(start_eq_ok hstart).2]
    exact ⟨rfl, hrepairs, rfl, rfl, .unknown _ _⟩
  have hlater {j : Nat} (hij : i ≤ j) (hj : j ≤ chunks.length) :=
    choiceAt_run hshape hfree hkeys hchunks hfirst hij hj hchoice
  have hall := follows_run hshape hfree hkeys hchunks hfirst (Nat.le_refl chunks.length)
  have hlast := hlater hi (Nat.le_refl chunks.length)
  rw [← List.map_take, List.take_length] at hlast
  rw [← List.map_take, List.take_length, hchunks] at hall
  obtain ⟨hknown, hresult⟩ := follows_complete hshape hfree hkeys hall
  exact ⟨fun j => hlater, hknown.choiceAt_eq hlast,
    fun w hw => (hresult w hw).choiceAt_eq hlast⟩

/-! ### A fork of which the case in front is settled early -/

namespace Forest

/-- The text of a fork, cut off before the quotation mark after a tag. -/
def halves : List (List Char) := [bareForkText.take 22, bareForkText.drop 22]

/-- The first half of the text, repaired, and what it tells. -/
def frontText : List Char := "\x7b\"value\":\x7b\"type\":\"leaf\"\x7d\x7d".toList

def frontLeaf : Value := .slots "Fork"
  [("front", .slots "Leaf" [("size", .unknown)]), ("back", .unknown)]

theorem flatten_halves : halves.flatten = (bareFork.serialize none).toList := by
  rw [serialize_bareFork]
  simp [halves]

theorem known_half : (forkStream.run forest ((halves.map .delta).take 1)).known = frontLeaf := by
  have hclosed : repair (forkStream.buffer ++ bareForkText.take 22) = frontText := by
    decide +kernel
  have hparse : Content.parse frontText =
      .ok (.object [("value", .object [("type", .string "leaf")])]) := by cbv
  have hobserved : snapshot forest (.object [("value", .object [("type", .string "leaf")])])
      forkStream.type = .ok frontLeaf := by cbv
  have hknown := (feed_delta_of_parse rfl rfl hclosed (by decide +kernel) hparse hobserved).2.2
  rw [halves, List.map_cons, List.take_succ_cons, List.take_zero, run, List.foldl_cons,
    List.foldl_nil, hknown]
  rfl

theorem choiceAt_frontLeaf :
    choiceAt forest [.slot "front"] fork frontLeaf = some (.case "Leaf") := by
  cbv

theorem result_halves : ((forkStream.run forest (halves.map .delta)).feed forest
    (.completed none)).next.result forest = .ok (forkValue (leafValue 3) .null) := by
  have hall := follows_run shapeOf_fork prefixFree (keysDiffer_encode encode_bareFork)
    flatten_halves ⟨rfl, rfl, rfl, rfl, .unknown _ _⟩ (Nat.le_refl halves.length)
      (r := forkStream)
  rw [← List.map_take, List.take_length] at hall
  obtain ⟨observed, hobserved⟩ := exists_snapshot shapeOf_fork resolves bareFork
  obtain ⟨next, notices, hcomplete, -, -, hresult⟩ := complete_of_decode none
    (by rw [Option.getD_none, hall.buffer, flatten_halves, serialize_bareFork]
        exact parse_bareForkText)
    (by rw [hall.type]; exact decode_bareFork) (by rw [hall.type]; exact hobserved)
  rw [feed_completed hall.isOpen, hcomplete, hresult]

end Forest

open Forest in
theorem choices_settled_forest :
    encode forest (forkValue (leafValue 3) .null) (some (.named "Fork")) = .ok bareFork ∧
      PrefixFree forest fork ∧ halves.flatten = (bareFork.serialize none).toList ∧
        choiceAt forest [.slot "front"] fork
          (forkStream.run forest ((halves.map .delta).take 1)).known = some (.case "Leaf") ∧
        choiceAt forest [.slot "front"] fork
          (forkStream.run forest ((halves.map .delta).take 2)).known = some (.case "Leaf") ∧
        ∃ w, ((forkStream.run forest (halves.map .delta)).feed forest
            (.completed none)).next.result forest = .ok w ∧
          choiceAt forest [.slot "front"] fork w = some (.case "Leaf") := by
  have hstart : Reconstructor.start forest (.named "Fork") ⟨true⟩ = .ok forkStream := by cbv
  have hshown := choiceAt_frontLeaf
  rw [← known_half] at hshown
  obtain ⟨hlater, -, hvalue⟩ := choices_settled shapeOf_fork prefixFree encode_bareFork rfl hstart
    flatten_halves [.slot "front"] (.case "Leaf") 1 (by decide) hshown
  exact ⟨encode_bareFork, prefixFree, flatten_halves, hshown, hlater 2 (by decide) (by decide), _,
    result_halves, hvalue _ result_halves⟩

/-! ### A note that comes in pieces -/

/-- A note of which one kind begins the other one. -/
def notes : Declarations :=
  ⟨"notes", [("Note", .record ⟨"Note", none, none,
    [⟨"kind", .literal [.text "a", .text "ab"], none, none, false, none, true⟩]⟩)]⟩

namespace Notes

def note : Shape := .record "Note" "Note" none

def kindField : FieldShape := ⟨"kind", "kind", .literal ["a", "ab"] [], false, none⟩

def noteValue : Value := .record "Note" [("kind", .text "ab")]

def noteContent (kind : String) : Content := .object [("kind", .string kind)]

def noteText : List Char := "\x7b\"kind\":\"ab\"\x7d".toList

def noteStream : Reconstructor :=
  ⟨.named "Note", "Note", ⟨true⟩, [], .empty, .empty, .unknown, .null⟩

/-- The text of a note, cut off inside its kind. -/
def notePieces : List (List Char) := [noteText.take 10, noteText.drop 10]

theorem shapeOf_note : notes.shapeOf (.named "Note") = .ok note := by cbv

theorem fieldShapes_note : notes.fieldShapes "Note" = .ok [kindField] := by
  have hundefined : notes.undefinedInRecord? "Note" = none := by cbv
  have hkeyed : notes.keyed 0 ((notes.fields "Note").filter (·.init)) = [("kind",
      ⟨"kind", .literal [.text "a", .text "ab"], none, none, false, none, true⟩)] := by cbv
  have hkind : notes.shapeOf (.literal [.text "a", .text "ab"]) =
      .ok (.literal ["a", "ab"] []) := Declarations.shapeOf_literal notes "a" ["ab"]
  have hkeys : Declarations.repeatedKeys ["kind"] = [] := by cbv
  rw [Declarations.fieldShapes, hundefined, hkeyed]
  simp [Declarations.fieldShape, hkind, bind, Except.bind, pure, Except.pure, hkeys, kindField,
    FieldDecl.describe, TypeExpr.description?]

theorem encode_note : encode notes noteValue (some (.named "Note")) = .ok (noteContent "ab") := by
  have hself : notes.isSubrecord "Note" "Note" = true := by cbv
  simp [encode, shapeOf_note, Encoding.value, noteValue, note, Shape.core, fieldShapes_note, hself,
    Except.mapError, bind, Except.bind, pure, Except.pure, Functor.map, Value.asText?, kindField,
    Except.map, Encoding.field, Encoding.leaf, List.mapM_cons, Content.ofEntries, Entries.ofList,
    Entries.putAll, noteContent]
  rfl

theorem serialize_note : ((noteContent "ab").serialize none).toList = noteText := by
  decide +kernel

theorem parse_noteText : Content.parse noteText = .ok (noteContent "ab") := by cbv

theorem decode_note : decode notes (noteContent "ab") (.named "Note") = .ok noteValue := by
  have hfields : notes.fields "Note" =
      [⟨"kind", .literal [.text "a", .text "ab"], none, none, false, none, true⟩] := by cbv
  simp [decode, shapeOf_note, Decoding.value, note, Shape.core, noteContent, fieldShapes_note,
    kindField, Decoding.field, Decoding.leaf, List.mapM_cons, Except.mapError, bind, Except.bind,
    pure, Except.pure, Declarations.instantiate, hfields]
  cbv

/-- A note of a kind is a snapshot of its content. -/
theorem snapshot_note {kind : String} (hkind : kind ∈ ["a", "ab"]) :
    snapshot notes (noteContent kind) (.named "Note") =
      .ok (.slots "Note" [("kind", .text kind)]) := by
  have hslot : Snapshot.slot notes [("kind", .string kind)] kindField = .ok (.text kind) := by
    simp only [List.mem_cons, List.not_mem_nil, or_false] at hkind
    rcases hkind with rfl | rfl <;> cbv
  simp [snapshot, shapeOf_note, noteContent, Snapshot.value, bind, Except.bind, note,
    fieldShapes_note, Shape.core, hslot, Functor.map, Except.map, pure, Except.pure]
  rfl

theorem choiceAt_kind (kind : String) : choiceAt notes [.slot "kind"] note
    (.slots "Note" [("kind", .text kind)]) = some (.option kind) := by
  rw [choiceAt_slot fieldShapes_note rfl]
  rfl

theorem choiceAt_noteValue :
    choiceAt notes [.slot "kind"] note noteValue = some (.option "ab") := by
  rw [choiceAt_slot fieldShapes_note rfl]
  rfl

end Notes

open Notes in
/-- An option is not settled where it begins another one: the text of a note of the kind "ab", cut
off inside its kind, shows the kind "a". -/
theorem not_choices_settled_note :
    notes.shapeOf (.named "Note") = .ok note ∧
      encode notes noteValue (some (.named "Note")) = .ok (noteContent "ab") ∧
        Reconstructor.start notes (.named "Note") ⟨true⟩ = .ok noteStream ∧
          notePieces.flatten = ((noteContent "ab").serialize none).toList ∧
            choiceAt notes [.slot "kind"] note
              (noteStream.run notes ((notePieces.map .delta).take 1)).known = some (.option "a") ∧
            choiceAt notes [.slot "kind"] note
              (noteStream.run notes ((notePieces.map .delta).take 2)).known = some (.option "ab") ∧
            ∃ w, ((noteStream.run notes (notePieces.map .delta)).feed notes
                (.completed none)).next.result notes = .ok w ∧
              choiceAt notes [.slot "kind"] note w = some (.option "ab") := by
  have hstart : Reconstructor.start notes (.named "Note") ⟨true⟩ = .ok noteStream := by cbv
  have hpieces : notePieces.flatten = ((noteContent "ab").serialize none).toList := by
    rw [serialize_note]
    simp [notePieces]
  have hclosed : repair (noteStream.buffer ++ noteText.take 10) =
      "\x7b\"kind\":\"a\"\x7d".toList := by decide +kernel
  have hparse : Content.parse "\x7b\"kind\":\"a\"\x7d".toList = .ok (noteContent "a") := by cbv
  obtain ⟨-, hfirst, hknown⟩ := feed_delta_of_parse rfl rfl hclosed
    (by decide +kernel) hparse (snapshot_note (by decide))
  rw [notePieces, List.map_cons, List.map_cons, List.map_nil]
  simp only [List.take_succ_cons, List.take_zero, run, List.foldl_cons, List.foldl_nil]
  generalize (noteStream.feed notes (.delta (noteText.take 10))).next = cut at *
  have hwhole : cut.buffer ++ noteText.drop 10 = noteText := by
    rw [hfirst.buffer]
    exact List.take_append_drop 10 noteText
  have hclosed' : repair (cut.buffer ++ noteText.drop 10) = noteText := by
    rw [hwhole]
    decide +kernel
  obtain ⟨-, hsecond, hknown'⟩ := feed_delta_of_parse (hfirst.isOpen rfl)
    (by rw [hfirst.settings]; rfl) hclosed' (by decide +kernel) parse_noteText
    (by rw [hfirst.type]; exact snapshot_note (by decide))
  generalize (cut.feed notes (.delta (noteText.drop 10))).next = whole at *
  have htype : whole.type = .named "Note" := hsecond.type.trans hfirst.type
  obtain ⟨next, notices, hcomplete, -, -, hresult⟩ := complete_of_decode none
    (by rw [Option.getD_none, hsecond.buffer, hwhole]; exact parse_noteText)
    (by rw [htype]; exact decode_note) (by rw [htype]; exact snapshot_note (by decide))
  rw [feed_completed (hsecond.isOpen (hfirst.isOpen rfl)), hcomplete, hknown', hknown]
  exact ⟨shapeOf_note, encode_note, hstart, hpieces, choiceAt_kind "a", choiceAt_kind "ab", _,
    hresult, choiceAt_noteValue⟩

end StructuredOutput

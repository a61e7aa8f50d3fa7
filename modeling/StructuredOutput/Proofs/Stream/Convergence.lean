import StructuredOutput.Proofs.Codec.EncodedKeys
import StructuredOutput.Proofs.Content.Spelled
import StructuredOutput.Proofs.Stream.Growth
import StructuredOutput.Proofs.Stream.Memory
import StructuredOutput.Proofs.Stream.Truncation

/-!
Streams converge: when the text of an encoded value comes in parts, what is known only grows, stays
below what the whole text tells, and ends there with the value.
-/

namespace StructuredOutput

open Json Repair

/-! ### Beginnings of a document -/

/-- A document that is read from its first character on: a container without repeated keys that
holds a tree and has no blanks before it. -/
structure Legible (d : Document) (whole : Content) : Prop where
  root : ∃ keyed, rootKind d.value = some keyed
  front : d.before.chars = []
  keys : d.value.KeysDiffer
  depth : d.value.depth ≤ nestingLimit
  content : Content.ofJson d.value.json = .ok whole

namespace Legible

variable {d : Document} {whole : Content}

/-- What remains of a document of which some characters are known holds a truncation of its tree. -/
theorem exists_remaining (h : Legible d whole) (n : Nat) :
    ∃ b, Content.ofJson (remains d.value n).json = .ok b ∧ b.Truncation whole := by
  obtain ⟨keyed, hroot⟩ := h.root
  exact truncation_remains hroot h.keys (.inl rfl) h.content

theorem truncation_whole (h : Legible d whole) {n : Nat} {b : Content}
    (hb : Content.ofJson (remains d.value n).json = .ok b) : b.Truncation whole := by
  obtain ⟨b', hb', htruncation⟩ := h.exists_remaining n
  rw [hb] at hb'
  cases hb'
  exact htruncation

/-- The less is known, the more is cut off. -/
theorem truncation (h : Legible d whole) {n m : Nat} (hnm : n ≤ m) {b c : Content}
    (hb : Content.ofJson (remains d.value n).json = .ok b)
    (hc : Content.ofJson (remains d.value m).json = .ok c) : b.Truncation c := by
  obtain ⟨keyed, hroot⟩ := h.root
  obtain ⟨b', hb', htruncation⟩ := truncation_remains hroot h.keys (.inr ⟨m, hnm, rfl⟩) hc
  rw [hb] at hb'
  cases hb'
  exact htruncation

theorem repair_beginning (h : Legible d whole) {told : List Char} (htold : told <+: d.chars)
    (hne : told ≠ []) : repair told = (remains d.value told.length).chars := by
  obtain ⟨keyed, hroot⟩ := h.root
  have hpos : d.before.chars.length < told.length := by
    rw [h.front]
    exact List.length_pos_iff.mpr hne
  have hrepair := repair_document d hroot hpos
  rwa [← List.prefix_iff_eq_take.mp htold, h.front, List.length_nil, Nat.sub_zero] at hrepair

/-- A beginning of a document is repaired to a text that is not blank and holds what remains. -/
theorem parse_repair (h : Legible d whole) {told : List Char} (htold : told <+: d.chars)
    (hne : told ≠ []) {b : Content}
    (hb : Content.ofJson (remains d.value told.length).json = .ok b) :
    Text.trim (repair told) ≠ [] ∧ Content.parse (repair told) = .ok b := by
  obtain ⟨keyed, hroot⟩ := h.root
  rw [h.repair_beginning htold hne]
  constructor
  · have hremains := rootKind_remains d.value hroot told.length
    have htrim := trim_root hremains .none .none
    rw [show Gap.none.chars = [] from rfl, List.nil_append, List.append_nil] at htrim
    obtain ⟨⟨cs, hcs⟩, -⟩ := exists_root_chars hremains
    rw [htrim, hcs]
    exact List.cons_ne_nil _ _
  · exact parse_of_written (Nat.le_trans (depth_remains hroot _) h.depth) hb

end Legible

/-- The text of a tree with a container at its root is a legible document. -/
theorem exists_legible {c : Content} (hkeys : c.KeysDiffer) (hdepth : c.depth ≤ nestingLimit)
    (hroot : c.kind = .array ∨ c.kind = .object)
    (hescape : noUnicodeEscape false (c.serialize none).toList = true) :
    ∃ d, d.chars = (c.serialize none).toList ∧ Legible d c.positiveZeros := by
  obtain ⟨d, hd, hcontent, hlimit⟩ :=
    exists_document_of_parse (Content.parse_serialize hkeys hdepth none) hescape
  refine ⟨d, hd, ?_, ?_, Content.keysDiffer_of_serialize hkeys hescape hd, hlimit, hcontent⟩
  · apply exists_rootKind hcontent
    rwa [c.kind_positiveZeros]
  · obtain ⟨first, cs, htext, hfirst⟩ := Content.exists_serialize_cons hkeys
    -- a blank in front would be the first character of the text, which begins a value
    by_contra hne
    obtain ⟨g, gs, hgap⟩ := List.exists_cons_of_ne_nil hne
    have hspace := d.before.blank g (hgap ▸ List.mem_cons_self)
    rw [htext, Document.chars, hgap] at hd
    rw [(List.cons.inj hd).1, isSpace_of_beginsValue hfirst] at hspace
    cases hspace

/-! ### What is known of the beginning of a document -/

variable {ds : Declarations} {t : TypeExpr} {shape : Shape} {d : Document} {whole : Content}

/-- A legible document of a type, the whole of which decodes. -/
structure Streamable (ds : Declarations) (t : TypeExpr) (shape : Shape) (d : Document)
    (whole : Content) : Prop where
  shapeOf : ds.shapeOf t = .ok shape
  resolves : Resolves ds shape
  prefixFree : PrefixFree ds shape
  legible : Legible d whole
  decodes : ∃ v, decode ds whole t = .ok v

/-- What the first characters of a document tell about a type, with repairs: nothing without any. -/
def Tells (ds : Declarations) (t : TypeExpr) (d : Document) (n : Nat) (known : Value) : Prop :=
  n = 0 ∧ known = .unknown ∨
    0 < n ∧ ∃ b, Content.ofJson (remains d.value n).json = .ok b ∧ snapshot ds b t = .ok known

namespace Streamable

theorem le (h : Streamable ds t shape d whole) {b c : Content} (hbc : b.Truncation c)
    (hc : c.Truncation whole) {p q : Value} (hp : snapshot ds b t = .ok p)
    (hq : snapshot ds c t = .ok q) : p.Le q := by
  obtain ⟨v, hdecode⟩ := h.decodes
  exact le_snapshot h.shapeOf h.prefixFree hbc hc hdecode hp hq

/-- More characters tell more. -/
theorem tells_le (h : Streamable ds t shape d whole) {n m : Nat} (hnm : n ≤ m)
    {earlier later : Value} (hearlier : Tells ds t d n earlier) (hlater : Tells ds t d m later) :
    earlier.Le later := by
  rcases hearlier with ⟨-, rfl⟩ | ⟨hn, b, hb, hearlier⟩
  · exact .unknown later
  · rcases hlater with ⟨rfl, -⟩ | ⟨-, c, hc, hlater⟩
    · exact absurd (Nat.lt_of_lt_of_le hn hnm) (Nat.lt_irrefl 0)
    · exact h.le (h.legible.truncation hnm hb hc) (h.legible.truncation_whole hc) hearlier hlater

/-- No characters tell more than the whole document. -/
theorem tells_le_whole (h : Streamable ds t shape d whole) {n : Nat} {known final : Value}
    (hknown : Tells ds t d n known) (hfinal : snapshot ds whole t = .ok final) :
    known.Le final := by
  rcases hknown with ⟨-, rfl⟩ | ⟨-, b, hb, hknown⟩
  · exact .unknown final
  · exact h.le (h.legible.truncation_whole hb) (.same whole) hknown hfinal

end Streamable

theorem Tells.observes (hshape : ds.shapeOf t = .ok shape) {n : Nat} {known : Value}
    (h : Tells ds t d n known) : Observes ds shape known := by
  rcases h with ⟨-, rfl⟩ | ⟨-, b, -, hknown⟩
  · exact .unknown shape
  · exact Reconstructor.observes_snapshot hshape hknown

/-! ### Telling a document in parts -/

namespace Reconstructor

/-- A stream that was told the beginning of a document, piece by piece. -/
structure Telling (ds : Declarations) (t : TypeExpr) (d : Document) (told : List Char)
    (r : Reconstructor) : Prop where
  type : r.type = t
  repairs : r.settings.repairPartial = true
  isOpen : r.IsOpen
  buffer : r.buffer = told
  beginning : told <+: d.chars
  known : Tells ds t d told.length r.known

/-- Another piece of a document is no error, and what is known then is what the longer beginning
tells by itself. -/
theorem telling_feed (h : Streamable ds t shape d whole) {told chunk : List Char}
    {r : Reconstructor} (hr : Telling ds t d told r) (hnext : told ++ chunk <+: d.chars) :
    (∃ seen, (r.feed ds (.delta chunk)).outcome = .ok seen) ∧
      Telling ds t d (told ++ chunk) (r.feed ds (.delta chunk)).next := by
  obtain rfl := hr.buffer
  by_cases hempty : r.buffer ++ chunk = []
  -- nothing is read of an empty text, so that nothing stays unknown
  · have hblank : Text.trim { r with buffer := r.buffer ++ chunk }.legible = [] := by
      rw [legible, if_pos hr.repairs, hempty]
      rfl
    obtain ⟨hbuffer, rfl⟩ := List.append_eq_nil_iff.mp hempty
    rw [feed_delta hr.isOpen, ingestText_of_blank hblank, List.append_nil]
    exact ⟨⟨none, rfl⟩, hr⟩
  · obtain ⟨b, hb, -⟩ := h.legible.exists_remaining (r.buffer ++ chunk).length
    obtain ⟨htrim, hparse⟩ := h.legible.parse_repair hnext hempty hb
    obtain ⟨observed, hobserved⟩ := exists_snapshot h.shapeOf h.resolves b
    have htells : Tells ds t d (r.buffer ++ chunk).length observed :=
      .inr ⟨List.length_pos_iff.mpr hempty, b, hb, hobserved⟩
    -- what was known is below what is observed now, and joining the two adds nothing to it
    have hle : r.known.Le observed := h.tells_le (by simp) hr.known htells
    have hmerge := Snapshot.merge_of_le (htells.observes h.shapeOf) hle
    rw [← hr.type] at hobserved
    obtain ⟨houtcome, hcontinues, hknown⟩ :=
      feed_delta_of_parse hr.isOpen hr.repairs rfl htrim hparse hobserved
    refine ⟨houtcome, hcontinues.type.trans hr.type, ?_, hcontinues.isOpen hr.isOpen,
      hcontinues.buffer, hnext, ?_⟩
    · rw [hcontinues.settings]
      exact hr.repairs
    · rw [hknown, hmerge]
      exact htells

/-- The next of the pieces of a document. -/
theorem telling_next (h : Streamable ds t shape d whole) {chunks : List (List Char)}
    (hchunks : chunks.flatten = d.chars) {n : Nat} (hn : n < chunks.length) {r : Reconstructor}
    (hr : Telling ds t d (chunks.take n).flatten r) :
    (∃ seen, (r.feed ds (.delta chunks[n])).outcome = .ok seen) ∧
      Telling ds t d (chunks.take (n + 1)).flatten (r.feed ds (.delta chunks[n])).next := by
  obtain ⟨hflatten, hbeginning⟩ := flatten_take_succ hn
  rw [hflatten]
  exact telling_feed h hr (hchunks ▸ hbeginning)

/-- After each of the pieces of a document, what is known is what the text so far tells by itself. -/
theorem telling_run (h : Streamable ds t shape d whole) {chunks : List (List Char)}
    (hchunks : chunks.flatten = d.chars) {r : Reconstructor} (hr : Telling ds t d [] r) {n : Nat}
    (hn : n ≤ chunks.length) :
    Telling ds t d (chunks.take n).flatten (r.run ds ((chunks.map .delta).take n)) :=
  run_deltas (P := Telling ds t d)
    (fun _ _ _ hs hnext => (telling_feed h hs (hchunks ▸ hnext)).2) hr hn

/-- A document that was told whole completes with the value that it holds. -/
theorem telling_complete (h : Streamable ds t shape d whole) {r : Reconstructor}
    (hr : Telling ds t d d.chars r) {u final : Value} (hparse : Content.parse d.chars = .ok whole)
    (hdecode : decode ds whole t = .ok u) (hfinal : snapshot ds whole t = .ok final) :
    ∃ next notices, r.feed ds (.completed none) = ⟨.ok (some next.view), next, notices⟩ ∧
      next.state = .complete ∧ next.known = final ∧ next.result ds = .ok u := by
  have hmerge := Snapshot.merge_of_le (observes_snapshot h.shapeOf hfinal)
    (h.tells_le_whole hr.known hfinal)
  have hbuffer : Content.parse ((none : Option (List Char)).getD r.buffer) = .ok whole := by
    rw [hr.buffer]
    exact hparse
  rw [← hr.type] at hdecode hfinal
  obtain ⟨next, notices, hcomplete, hstate, hknown, hresult⟩ :=
    complete_of_decode none hbuffer hdecode hfinal
  exact ⟨next, notices, (feed_completed hr.isOpen none).trans hcomplete, hstate,
    hknown.trans hmerge, hresult⟩

end Reconstructor

open Reconstructor

/-- A stream of the text of an encoded value converges, however the text is cut into pieces: no piece
is an error, what is known never decreases and never exceeds what the whole text tells, and the
stream completes with the value. The text is written without `\u` and is not nested too deep to be
read, and no text that stands for an option, a member or a case begins another one. -/
theorem streaming_converges {v w : Value} {c : Content} (hshape : ds.shapeOf t = .ok shape)
    (hresolves : Resolves ds shape) (hfree : PrefixFree ds shape)
    (hencode : encode ds v (some t) = .ok c) (hroot : c.kind = .array ∨ c.kind = .object)
    (hdecode : decode ds c t = .ok w) (hsame : w.same v = true)
    (hdepth : c.depth ≤ nestingLimit)
    (hescape : noUnicodeEscape false (c.serialize none).toList = true) {settings : StreamSettings}
    (hrepairs : settings.repairPartial = true) {r : Reconstructor}
    (hstart : Reconstructor.start ds t settings = .ok r) {chunks : List (List Char)}
    (hchunks : chunks.flatten = (c.serialize none).toList) :
    ∃ whole final, Content.parse (c.serialize none).toList = .ok whole ∧
      snapshot ds whole t = .ok final ∧
        let events := chunks.map StreamEvent.delta
        let told := fun n => r.run ds (events.take n)
        (∀ n (hn : n < events.length),
          ∃ seen, ((told n).feed ds events[n]).outcome = .ok seen) ∧
        (∀ n ≤ chunks.length, (told n).known.Le final) ∧
        (∀ i j, i ≤ j → j ≤ chunks.length → (told i).known.Le (told j).known) ∧
        let fed := (r.run ds events).feed ds (.completed none)
        fed.outcome = .ok (some fed.next.view) ∧ fed.next.state = .complete ∧
          fed.next.known = final ∧ ∃ u, fed.next.result ds = .ok u ∧ u.same v = true := by
  have hkeys := keysDiffer_encode hencode
  obtain ⟨d, hd, hlegible⟩ := exists_legible hkeys hdepth hroot hescape
  have hparse := Content.parse_serialize hkeys hdepth none
  rw [← hd] at hchunks hparse
  obtain ⟨final, hfinal⟩ := exists_snapshot hshape hresolves c.positiveZeros
  rw [decode_eq hshape] at hdecode
  obtain ⟨u, hu, halike⟩ := Decoding.value_positiveZeros c hdecode
  rw [← decode_eq hshape] at hu
  have h : Streamable ds t shape d c.positiveZeros := ⟨hshape, hresolves, hfree, hlegible, u, hu⟩
  have hfirst : Telling ds t d [] r := by
    rw [(start_eq_ok hstart).2]
    exact ⟨rfl, hrepairs, rfl, rfl, List.nil_prefix, .inl ⟨rfl, rfl⟩⟩
  have htold {n : Nat} (hn : n ≤ chunks.length) := telling_run h hchunks hfirst hn
  refine ⟨c.positiveZeros, final, hd ▸ hparse, hfinal, fun n hn => ?_, fun n hn => ?_,
    fun i j hij hj => ?_, ?_⟩
  · rw [List.length_map] at hn
    rw [List.getElem_map]
    exact (telling_next h hchunks hn (htold (Nat.le_of_lt hn))).1
  · exact h.tells_le_whole (htold hn).known hfinal
  · have hprefix : (chunks.take i).flatten <+: (chunks.take j).flatten :=
      (List.take_prefix_take_left hij).flatten
    exact h.tells_le hprefix.length_le (htold (Nat.le_trans hij hj)).known (htold hj).known
  · have hall := htold (Nat.le_refl chunks.length)
    rw [← List.map_take, List.take_length, hchunks] at hall
    obtain ⟨next, notices, hfeed, hstate, hknown, hresult⟩ := telling_complete h hall hparse hu hfinal
    dsimp only
    rw [hfeed]
    exact ⟨rfl, hstate, hknown, u, hresult, halike.same_left v hsame⟩

/-! ### A fork that comes in pieces -/

namespace Forest

theorem prefixFree : PrefixFree forest fork := by
  intro s hs a ha b hb hprefix
  rcases within_of_reaches hs with rfl | rfl | rfl | rfl
  · cases ha
  · simp only [tree, Shape.wires, List.map_cons, List.map_nil, List.mem_cons, List.not_mem_nil,
      or_false] at ha hb
    rcases ha with rfl | rfl <;> rcases hb with rfl | rfl
    · rfl
    · exact absurd hprefix (by decide)
    · exact absurd hprefix (by decide)
    · rfl
  · cases ha
  · cases ha

theorem encode_bareFork :
    encode forest (forkValue (leafValue 3) .null) (some (.named "Fork")) = .ok bareFork := by
  have hself : forest.isSubrecord "Fork" "Fork" = true := by cbv
  simp [encode, shapeOf_fork, Encoding.value, forkValue, leafValue, fork, Shape.core, hself,
    fieldShapes_fork, Except.mapError, forkFields, bind, Except.bind, pure, Except.pure,
    Encoding.field, tree, caseOf?, fieldShapes_leaf, leafFields, integer, Encoding.leaf,
    Encoding.primitive, List.mapM_cons, Content.ofInteger, ofInt_three, Content.ofFinite,
    Value.base, Functor.map, Except.map, Content.ofEntries, Entries.ofList, Entries.putAll,
    Entries.put, bareFork, discriminatorKey]

theorem serialize_bareFork : (bareFork.serialize none).toList = bareForkText := by
  decide +kernel

/-- The text of a fork, cut off in the middle of a tag, with an empty piece. -/
def pieces : List (List Char) := [bareForkText.take 20, [], bareForkText.drop 20]

end Forest

open Forest in
theorem streaming_converges_forest :
    encode forest (forkValue (leafValue 3) .null) (some (.named "Fork")) = .ok bareFork ∧
      Resolves forest fork ∧ PrefixFree forest fork ∧
        pieces.flatten = (bareFork.serialize none).toList ∧
          (forkStream.run forest ((pieces.map .delta).take 1)).known.Le
            (forkStream.run forest ((pieces.map .delta).take 3)).known ∧
          ∃ u, ((forkStream.run forest (pieces.map .delta)).feed forest
              (.completed none)).next.result forest = .ok u ∧
            u.same (forkValue (leafValue 3) .null) = true := by
  have hstart : Reconstructor.start forest (.named "Fork") ⟨true⟩ = .ok forkStream := by cbv
  have hsame : (forkValue (leafValue 3) .null).same (forkValue (leafValue 3) .null) = true := by
    simp [forkValue, leafValue, Value.same, Value.sameFields, Value.asNumber?, Value.base,
      Value.sameNumber]
  have hpieces : pieces.flatten = (bareFork.serialize none).toList := by
    rw [serialize_bareFork]
    simp [pieces]
  have hescape : noUnicodeEscape false (bareFork.serialize none).toList = true := by
    rw [serialize_bareFork]
    decide +kernel
  obtain ⟨whole, final, -, -, -, -, hgrows, -, -, -, hresult⟩ :=
    streaming_converges shapeOf_fork resolves prefixFree encode_bareFork (.inr rfl) decode_bareFork
      hsame (by decide) hescape rfl hstart hpieces
  exact ⟨encode_bareFork, resolves, prefixFree, hpieces, hgrows 1 3 (by decide) (by decide),
    hresult⟩

end StructuredOutput

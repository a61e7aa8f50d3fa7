import StructuredOutput.Proofs.Codec.Place
import StructuredOutput.Proofs.Stream.Completion
import StructuredOutput.Proofs.Stream.Image
import StructuredOutput.Proofs.Stream.Keeps
import StructuredOutput.Proofs.Stream.Order

/-!
What a stream reports as missing when its last text lacks a required property: the required
properties of which no earlier event showed anything, whatever that text itself supplies. The report
is right where an event already told that text and no event showed what it lacks.
-/

namespace StructuredOutput

open Value (inSlot)

variable {ds : Declarations} {r : Reconstructor} {t : TypeExpr}

/-! ### What the events of a stream tell -/

namespace Reconstructor

/-- The content of the text so far, if it can be read. -/
def readable? (r : Reconstructor) : Option Content :=
  if (Text.trim r.legible).isEmpty then none else (Content.parse r.legible).toOption

/-- The content that an event tells without ending the stream. -/
def contentOf? (r : Reconstructor) : StreamEvent → Option Content
  | .fragment text => { r with buffer := text }.readable?
  | .delta text => { r with buffer := r.buffer ++ text }.readable?
  | .native c => some c
  | _ => none

/-- The contents that events tell one after the other. -/
def heard (ds : Declarations) (r : Reconstructor) : List StreamEvent → List Content
  | [] => []
  | event :: events => (r.contentOf? event).toList ++ heard ds (r.feed ds event).next events

/-- A value with what content tells. -/
def learn (ds : Declarations) (t : TypeExpr) (known : Value) (c : Content) : Value :=
  match snapshot ds c t with
  | .ok observed => Snapshot.merge known observed
  | .error _ => known

theorem known_ingest (ds : Declarations) (r : Reconstructor) (c : Content) :
    (r.ingest ds c).next.known = learn ds r.type r.known c := by
  unfold learn
  cases h : snapshot ds c r.type with
  | ok observed => exact (ingest_eq h).2
  | error fault =>
    unfold ingest
    rw [h]

theorem known_ingestText (ds : Declarations) (r : Reconstructor) :
    (r.ingestText ds).next.known = r.readable?.toList.foldl (learn ds r.type) r.known := by
  unfold ingestText readable?
  dsimp only
  split
  · rfl
  · cases Content.parse r.legible with
    | error fault => rfl
    | ok c => exact known_ingest ds r c

theorem isOpen_of_feed {event : StreamEvent} (h : (r.feed ds event).next.IsOpen) : r.IsOpen := by
  unfold feed at h
  split at h
  · exact h
  · next hopen => exact eq_false_of_ne_true hopen

/-- While a stream is open, its events add what their contents tell and nothing else. -/
theorem known_feed {event : StreamEvent} (h : (r.feed ds event).next.IsOpen) :
    (r.feed ds event).next.known =
      (r.contentOf? event).toList.foldl (learn ds r.type) r.known := by
  have hopen := isOpen_of_feed h
  cases event with
  | completed text =>
    rw [feed_completed hopen] at h ⊢
    rcases complete_cases ds r text with (hnext | hnext) | ⟨c, observed, v, -, -, -, hnext⟩
    · rw [hnext]
      rfl
    -- a stream that failed or is complete is no longer open
    · rw [hnext] at h
      cases h
    · rw [hnext] at h
      cases h
  | _ =>
    rw [feed, if_neg (ne_true_of_eq_false hopen)]
    first
    | exact known_ingestText ds _
    | exact known_ingest ds r _
    | rfl

theorem isOpen_of_run {events : List StreamEvent} (h : (r.run ds events).IsOpen) : r.IsOpen := by
  induction events generalizing r with
  | nil => exact h
  | cons event events ih => exact isOpen_of_feed (ih h)

theorem known_run {events : List StreamEvent} (h : (r.run ds events).IsOpen) :
    (r.run ds events).known = (heard ds r events).foldl (learn ds r.type) r.known := by
  induction events generalizing r with
  | nil => rfl
  | cons event events ih =>
    rw [heard, List.foldl_append, ← known_feed (isOpen_of_run h),
      ← (feed_type event : (r.feed ds event).next.type = r.type)]
    exact ih h

end Reconstructor

/-! ### What is known of a record -/

/-- Content tells about the slots of a record, of which any may be unknown. -/
def Addresses (ds : Declarations) (t : TypeExpr) (c : Content) : Prop :=
  ∃ id vs, snapshot ds c t = .ok (.slots id vs)

/-- Content tells something about a field of a record. -/
def Shows (ds : Declarations) (t : TypeExpr) (c : Content) (f : FieldShape) : Prop :=
  ∃ id vs, snapshot ds c t = .ok (.slots id vs) ∧ inSlot vs f.attr ≠ .unknown

theorem Shows.addresses {c : Content} {f : FieldShape} (h : Shows ds t c f) :
    Addresses ds t c := by
  obtain ⟨id, vs, hsnapshot, -⟩ := h
  exact ⟨id, vs, hsnapshot⟩

/-- One of the contents tells about the record, and a required field of it has this key of which
none of them shows anything. -/
def Awaits (ds : Declarations) (t : TypeExpr) (fields : List FieldShape) (cs : List Content)
    (key : String) : Prop :=
  (∃ c ∈ cs, Addresses ds t c) ∧
    ∃ f ∈ fields, f.key = key ∧ f.optional = false ∧ ∀ c ∈ cs, ¬ Shows ds t c f

/-- What is known of a record is what contents have shown: nothing at all before one of them tells
about the record, and then in each slot something just if one of them shows it. -/
inductive Recalls (ds : Declarations) (t : TypeExpr) (id : String) (fields : List FieldShape)
    (cs : List Content) : Value → Prop
  | nothing (silent : ∀ c ∈ cs, ¬ Addresses ds t c) : Recalls ds t id fields cs .unknown
  | slots {vs : List (String × Value)} (addressed : ∃ c ∈ cs, Addresses ds t c)
      (names : Entries.names vs = fields.map (·.attr))
      (each : ∀ f ∈ fields, inSlot vs f.attr = .unknown ↔ ∀ c ∈ cs, ¬ Shows ds t c f) :
      Recalls ds t id fields cs (.slots id vs)

theorem Value.isUnknown_eq_true {v : Value} : v.isUnknown = true ↔ v = .unknown := by
  cases v <;> simp [isUnknown]

theorem Snapshot.merge_eq_unknown {p m : Value} :
    merge p m = .unknown ↔ p = .unknown ∧ m = .unknown := by
  constructor
  · intro h
    cases m with
    | unknown => exact ⟨by simpa using h, rfl⟩
    | slots =>
      unfold merge at h
      cases p <;> simp at h
      split at h <;> cases h
    | tuple =>
      unfold merge at h
      cases p <;> simp at h
    | _ => simp [merge] at h
  · rintro ⟨rfl, rfl⟩
    exact merge_unknown _

/-- Content tells about a record its slots or nothing. -/
theorem Observes.of_record {id name : String} {description : Option String} {v : Value}
    {fields : List FieldShape} (h : Observes ds (.record id name description) v)
    (hfields : ds.fieldShapes id = .ok fields) :
    v = .unknown ∨ ∃ vs, v = .slots id vs ∧ Entries.names vs = fields.map (·.attr) := by
  cases h with
  | unknown => exact .inl rfl
  | null optional => cases optional
  | leaf isLeaf => cases isLeaf
  | tuple core => cases core
  | slots mem resolved names =>
    obtain rfl := List.mem_singleton.mp mem
    rw [hfields] at resolved
    cases resolved
    exact .inr ⟨_, rfl, names⟩

namespace Recalls

variable {id name : String} {description : Option String} {fields : List FieldShape}
  {cs : List Content} {c : Content} {v : Value}

/-- Content that tells nothing about the record changes nothing. -/
theorem concat_of_silent (h : Recalls ds t id fields cs v) (hc : ¬ Addresses ds t c) :
    Recalls ds t id fields (cs ++ [c]) v := by
  cases h with
  | nothing silent =>
    refine .nothing fun d hd => ?_
    rcases List.mem_append.mp hd with hd | hd
    · exact silent d hd
    · exact List.mem_singleton.mp hd ▸ hc
  | slots addressed names each =>
    obtain ⟨d, hd, haddresses⟩ := addressed
    refine .slots ⟨d, List.mem_append_left _ hd, haddresses⟩ names fun f hf => ?_
    have hshows : ¬ Shows ds t c f := fun h => hc h.addresses
    rw [each f hf, List.forall_mem_append, List.forall_mem_singleton]
    exact (and_iff_left hshows).symm

/-- Content that tells about the slots of the record adds what it shows. -/
theorem concat_of_slots (h : Recalls ds t id fields cs v) {vs : List (String × Value)}
    (hc : snapshot ds c t = .ok (.slots id vs))
    (hnames : Entries.names vs = fields.map (·.attr)) :
    Recalls ds t id fields (cs ++ [c]) (Snapshot.merge v (.slots id vs)) := by
  have haddressed : ∃ d ∈ cs ++ [c], Addresses ds t d :=
    ⟨c, List.mem_append_right _ List.mem_cons_self, id, vs, hc⟩
  have hshows (f : FieldShape) : ¬ Shows ds t c f ↔ inSlot vs f.attr = .unknown := by
    simp [Shows, hc]
  cases h with
  | nothing silent =>
    rw [Snapshot.unknown_merge]
    refine .slots haddressed hnames fun f hf => ?_
    have hbefore : ∀ d ∈ cs, ¬ Shows ds t d f := fun d hd h => silent d hd h.addresses
    rw [List.forall_mem_append, List.forall_mem_singleton, hshows]
    exact (and_iff_right hbefore).symm
  | slots addressed names each =>
    rw [Snapshot.merge_slots]
    refine .slots haddressed ((Snapshot.names_mergeSlots _ vs).trans hnames) fun f hf => ?_
    have hname : f.attr ∈ Entries.names vs := hnames ▸ List.mem_map_of_mem hf
    rw [Snapshot.inSlot_mergeSlots _ hname, Snapshot.merge_eq_unknown, each f hf,
      List.forall_mem_append, List.forall_mem_singleton, hshows]

theorem learn (hshape : ds.shapeOf t = .ok (.record id name description))
    (hfields : ds.fieldShapes id = .ok fields) (h : Recalls ds t id fields cs v) (c : Content) :
    Recalls ds t id fields (cs ++ [c]) (Reconstructor.learn ds t v c) := by
  unfold Reconstructor.learn
  cases hc : snapshot ds c t with
  | error fault => exact h.concat_of_silent (by simp [Addresses, hc])
  | ok observed =>
    have hobserves : Observes ds (.record id name description) observed := by
      rw [snapshot, hshape] at hc
      exact Snapshot.observes_value c hc
    rcases hobserves.of_record hfields with rfl | ⟨vs, rfl, hnames⟩
    · dsimp only
      rw [Snapshot.merge_unknown]
      exact h.concat_of_silent (by simp [Addresses, hc])
    · exact h.concat_of_slots hc hnames

theorem foldl_learn (hshape : ds.shapeOf t = .ok (.record id name description))
    (hfields : ds.fieldShapes id = .ok fields) (cs : List Content) :
    Recalls ds t id fields cs (cs.foldl (Reconstructor.learn ds t) .unknown) := by
  induction cs using List.reverseRecOn with
  | nil => exact .nothing (by simp)
  | append_singleton cs c ih =>
    rw [List.foldl_concat]
    exact ih.learn hshape hfields c

/-- The fields that are missing are those of which nothing was shown. -/
theorem missing_spec (h : Recalls ds t id fields cs v) (hfields : ds.fieldShapes id = .ok fields) :
    ∃ keys, Snapshot.missing ds v = .ok keys ∧ ∀ key, key ∈ keys ↔ Awaits ds t fields cs key := by
  cases h with
  | nothing silent =>
    refine ⟨[], rfl, fun key => ?_⟩
    have hnone : ¬ ∃ c ∈ cs, Addresses ds t c := fun ⟨c, hc, h⟩ => silent c hc h
    simp [Awaits, hnone]
  | @slots vs addressed names each =>
    refine ⟨_, by simp only [Snapshot.missing, hfields]; rfl, fun key => ?_⟩
    rw [Awaits, and_iff_right addressed, List.mem_map]
    refine exists_congr fun f => ?_
    rw [List.mem_filter, and_assoc]
    refine and_congr_right fun hf => ?_
    rw [Bool.and_eq_true, Bool.not_eq_true', ← each f hf, and_comm, ← Value.isUnknown_eq_true]
    rfl

end Recalls

/-! ### Completion -/

/-- Content supplies the key of a field with a value that decodes. -/
def SuppliesKey (ds : Declarations) (fields : List FieldShape) (c : Content) (key : String) :
    Prop :=
  ∃ f ∈ fields, f.key = key ∧ ∃ given v, c.child? (.key key) = some given ∧
    Decoding.value ds given f.whole (Path.top.key key) = .ok v

namespace Reconstructor

theorem complete_of_missing (text : Option (List Char)) {c : Content} {m : MissingProperty}
    (hparse : Content.parse (text.getD r.buffer) = .ok c)
    (hdecode : decode ds c r.type = .error (.missing m)) :
    (r.complete ds text).outcome = .error (.incomplete ⟨.missingProperty m.name,
      if (r.missing ds).isEmpty then [m.name] else r.missing ds⟩) := by
  unfold complete
  simp only [hparse, hdecode]
  rfl

/-- The properties that are reported: those that are missing, or if there are none a given one. -/
theorem mem_reported (missing : List String) (k key : String) :
    key ∈ (if missing.isEmpty then [k] else missing) ↔
      key ∈ missing ∨ key = k ∧ ∀ other, other ∉ missing := by
  cases missing with
  | nil => simp
  | cons first rest =>
    have hnone : ¬ ∀ other, other ∉ first :: rest := fun h => h first List.mem_cons_self
    simp only [List.isEmpty_cons, Bool.false_eq_true, ↓reduceIte, hnone, and_false, or_false]

end Reconstructor

/-- What a text lacks it does not supply. -/
theorem not_suppliesKey_of_missing {c : Content} {id name : String} {description : Option String}
    {k : String} (hshape : ds.shapeOf t = .ok (.record id name description))
    (h : decode ds c t = .error (.missing ⟨k, .top⟩)) (fields : List FieldShape) :
    ¬ SuppliesKey ds fields c k := by
  rw [decode_eq hshape] at h
  obtain ⟨entries, -, -, rfl, hget, -⟩ := Decoding.record_eq_missing h
  rintro ⟨f, -, -, given, v, hgiven, -⟩
  rw [Content.child?, hget] at hgiven
  cases hgiven

/-- Content that tells about a record shows something of each field that it supplies. -/
theorem Addresses.shows {c : Content} {id name : String} {description : Option String}
    {fields : List FieldShape} (hc : Addresses ds t c)
    (hshape : ds.shapeOf t = .ok (.record id name description))
    (hfields : ds.fieldShapes id = .ok fields) {f : FieldShape} (hf : f ∈ fields)
    {given : Content} {v : Value} {path : Path} (hgiven : c.child? (.key f.key) = some given)
    (hv : Decoding.value ds given f.whole path = .ok v) : Shows ds t c f := by
  obtain ⟨id', vs, hsnapshot⟩ := hc
  cases c with
  | object entries =>
    refine ⟨id', vs, hsnapshot, ?_⟩
    simp only [snapshot, hshape, bind, Except.bind] at hsnapshot
    cases Snapshot.tells_of_value hsnapshot with
    | slots belongs resolved names each =>
    cases belongs
    cases hfields.symm.trans resolved
    have hslot := each f hf
    rw [Content.child?] at hgiven
    have hholds := Decoding.holds_of_value given hv
    rw [Snapshot.slot_eq, hgiven] at hslot
    have himage := (Snapshot.value_of_holds hholds).symm.trans hslot
    rw [← Except.ok.inj himage, ← Value.isUnknown_eq_false]
    exact Snapshot.isUnknown_image_of_holds hholds given
  | _ => cases hgiven

section Completion

variable {settings : StreamSettings} {id name : String} {description : Option String}
  {fields : List FieldShape} {events : List StreamEvent} {c : Content} {k : String}

open Reconstructor

/-- A stream of a record whose last text lacks a required property reports the properties that its
earlier events await, or that property alone if they await none. -/
theorem completion_reports (hstart : Reconstructor.start ds t settings = .ok r)
    (hshape : ds.shapeOf t = .ok (.record id name description))
    (hfields : ds.fieldShapes id = .ok fields) (hopen : (r.run ds events).IsOpen)
    (final : Option (List Char))
    (hparse : Content.parse (final.getD (r.run ds events).buffer) = .ok c)
    (hdecode : decode ds c t = .error (.missing ⟨k, .top⟩)) :
    let awaits := Awaits ds t fields (heard ds r events)
    ∃ keys, ((r.run ds events).feed ds (.completed final)).outcome =
        .error (.incomplete ⟨.missingProperty k, keys⟩) ∧
      ∀ key, key ∈ keys ↔ awaits key ∨ key = k ∧ ∀ other, ¬ awaits other := by
  obtain ⟨-, hr⟩ := start_eq_ok hstart
  have htype : r.type = t := by rw [hr]
  have hunknown : r.known = .unknown := by rw [hr]
  have hrecalls : Recalls ds t id fields (heard ds r events) (r.run ds events).known := by
    rw [known_run hopen, hunknown, htype]
    exact .foldl_learn hshape hfields _
  obtain ⟨missing, hmissing, hawaits⟩ := hrecalls.missing_spec hfields
  have hreported : (r.run ds events).missing ds = missing := by
    rw [Reconstructor.missing, hmissing]
  have houtcome := complete_of_missing (r := r.run ds events) final hparse
    (by rw [run_type, htype]; exact hdecode)
  rw [hreported, ← feed_completed hopen] at houtcome
  have hkeys := mem_reported missing k
  simp only [hawaits] at hkeys
  exact ⟨_, houtcome, hkeys⟩

/-- The report names the property that the last text lacks, and none that this text supplies, just
if the earlier events await nothing, or await that property and nothing that the text supplies. -/
theorem completion_names_missing_iff (hstart : Reconstructor.start ds t settings = .ok r)
    (hshape : ds.shapeOf t = .ok (.record id name description))
    (hfields : ds.fieldShapes id = .ok fields) (hopen : (r.run ds events).IsOpen)
    (final : Option (List Char))
    (hparse : Content.parse (final.getD (r.run ds events).buffer) = .ok c)
    (hdecode : decode ds c t = .error (.missing ⟨k, .top⟩)) :
    let awaits := Awaits ds t fields (heard ds r events)
    ∃ keys, ((r.run ds events).feed ds (.completed final)).outcome =
        .error (.incomplete ⟨.missingProperty k, keys⟩) ∧
      (∀ key, key ∈ keys ↔ awaits key ∨ key = k ∧ ∀ other, ¬ awaits other) ∧
      ((k ∈ keys ∧ ∀ key ∈ keys, ¬ SuppliesKey ds fields c key) ↔
        (∀ key, ¬ awaits key) ∨ awaits k ∧ ∀ key, awaits key → ¬ SuppliesKey ds fields c key) := by
  intro awaits
  obtain ⟨keys, houtcome, hkeys⟩ :=
    completion_reports hstart hshape hfields hopen final hparse hdecode
  have habsent := not_suppliesKey_of_missing hshape hdecode fields
  refine ⟨keys, houtcome, hkeys, ?_⟩
  constructor
  · rintro ⟨hk, hsupplied⟩
    rcases (hkeys k).mp hk with hk | ⟨-, hnone⟩
    · exact .inr ⟨hk, fun key hkey => hsupplied key ((hkeys key).mpr (.inl hkey))⟩
    · exact .inl hnone
  · rintro (hnone | ⟨hk, hsupplied⟩)
    · refine ⟨(hkeys k).mpr (.inr ⟨rfl, hnone⟩), fun key hkey => ?_⟩
      rcases (hkeys key).mp hkey with hkey | ⟨rfl, -⟩
      · exact absurd hkey (hnone key)
      · exact habsent
    · refine ⟨(hkeys k).mpr (.inl hk), fun key hkey => ?_⟩
      rcases (hkeys key).mp hkey with hkey | ⟨rfl, -⟩
      · exact hsupplied key hkey
      · exact habsent

/-- The report is right where an event already told the last text and no event showed the property
that it lacks. -/
theorem completion_names_missing_of_heard (hstart : Reconstructor.start ds t settings = .ok r)
    (hshape : ds.shapeOf t = .ok (.record id name description))
    (hfields : ds.fieldShapes id = .ok fields) (hopen : (r.run ds events).IsOpen)
    (final : Option (List Char))
    (hparse : Content.parse (final.getD (r.run ds events).buffer) = .ok c)
    (hdecode : decode ds c t = .error (.missing ⟨k, .top⟩)) (hheard : c ∈ heard ds r events)
    (htold : Addresses ds t c)
    (hnever : ∀ d ∈ heard ds r events, ∀ f ∈ fields, f.key = k → ¬ Shows ds t d f) :
    ∃ keys, ((r.run ds events).feed ds (.completed final)).outcome =
        .error (.incomplete ⟨.missingProperty k, keys⟩) ∧
      k ∈ keys ∧ ∀ key ∈ keys, ¬ SuppliesKey ds fields c key := by
  obtain ⟨keys, houtcome, hkeys⟩ :=
    completion_reports hstart hshape hfields hopen final hparse hdecode
  have habsent := not_suppliesKey_of_missing hshape hdecode fields
  rw [decode_eq hshape] at hdecode
  obtain ⟨-, fields', f, -, -, hfields', hf, hkey, hoptional⟩ := Decoding.record_eq_missing hdecode
  rw [hfields] at hfields'
  cases hfields'
  have hk : Awaits ds t fields (heard ds r events) k :=
    ⟨⟨c, hheard, htold⟩, f, hf, hkey, hoptional, fun d hd => hnever d hd f hf hkey⟩
  refine ⟨keys, houtcome, (hkeys k).mpr (.inl hk), fun key hmem => ?_⟩
  rcases (hkeys key).mp hmem with ⟨-, g, hg, hgkey, -, hunseen⟩ | ⟨rfl, -⟩
  · rintro ⟨g', hg', rfl, given, v, hgiven, hv⟩
    have hkeys := (Declarations.fielded_of_fieldShapes hfields).keys
    obtain rfl := List.inj_on_of_nodup_map hkeys hg hg' hgkey
    exact hunseen c hheard (htold.shows hshape hfields hg hgiven hv)
  · exact habsent

end Completion

/-! ### A person whose name is told first -/

/-- Persons with a name and an age. -/
def people : Declarations :=
  ⟨"people", [("Person", .record ⟨"Person", none, none,
    [⟨"name", .atom .text, none, none, false, none, true⟩,
      ⟨"age", .atom .integer, none, none, false, none, true⟩]⟩)]⟩

namespace People

def person : Shape := .record "Person" "Person" none

def fields : List FieldShape :=
  [⟨"name", "name", .primitive .text [], false, none⟩,
    ⟨"age", "age", .primitive .integer [], false, none⟩]

def personStream : Reconstructor :=
  ⟨.named "Person", "Person", ⟨true⟩, [], .empty, .empty, .unknown, .null⟩

def nameText : List Char := "\x7b\"name\":\"Al\"\x7d".toList

def nameContent : Content := .object [("name", .string "Al")]

def ageText : List Char := "\x7b\"age\":3\x7d".toList

def ageContent : Content := .object [("age", .number Forest.three)]

theorem start_person : Reconstructor.start people (.named "Person") ⟨true⟩ = .ok personStream := by
  cbv

theorem shapeOf_person : people.shapeOf (.named "Person") = .ok person := by cbv

theorem fieldShapes_person : people.fieldShapes "Person" = .ok fields := by cbv

theorem parse_nameText : Content.parse nameText = .ok nameContent := by cbv

theorem parse_ageText : Content.parse ageText = .ok ageContent := by
  have hread : Json.read ageText = .ok (.object [("age", .integer 3)]) := by cbv
  rw [Content.parse, hread]
  simp [Content.ofReading, Content.ofJson, Content.ofJsonEntries, Content.ofInteger,
    Forest.ofInt_three, Content.ofFinite, Except.map, bind, Except.bind, Content.ofEntries,
    Entries.ofList, Entries.putAll, Entries.put, ageContent]

theorem decode_nameContent :
    decode people nameContent (.named "Person") = .error (.missing ⟨"age", .top⟩) := by
  cbv

theorem decode_ageContent :
    decode people ageContent (.named "Person") = .error (.missing ⟨"name", .top⟩) := by
  rw [decode_eq shapeOf_person]
  simp [ageContent, Decoding.value, person, Shape.core, fieldShapes_person, fields, Except.mapError,
    bind, Except.bind, Decoding.field, List.mapM_cons, Functor.map, Except.map]

theorem snapshot_nameContent : snapshot people nameContent (.named "Person") =
    .ok (.slots "Person" [("name", .text "Al"), ("age", .unknown)]) := by
  cbv

/-- The name is heard, and the stream stays open with its text. -/
theorem told_name :
    (personStream.run people [.fragment nameText]).IsOpen ∧
      (personStream.run people [.fragment nameText]).buffer = nameText ∧
        Reconstructor.heard people personStream [.fragment nameText] = [nameContent] := by
  have hrun : personStream.run people [.fragment nameText] =
      ({ personStream with buffer := nameText }.ingestText people).next := by
    have hopen : ¬ personStream.state.isTerminal = true := by decide
    rw [Reconstructor.run, List.foldl_cons, List.foldl_nil, Reconstructor.feed, if_neg hopen]
  have hcontinues := Reconstructor.ingestText_continues people
    { personStream with buffer := nameText }
  have hrepair : Repair.repair nameText = nameText := by decide +kernel
  have hlegible : { personStream with buffer := nameText }.legible = nameText :=
    (if_pos rfl).trans hrepair
  have htext : (Text.trim nameText).isEmpty = false := by decide +kernel
  rw [hrun]
  refine ⟨hcontinues.isOpen rfl, hcontinues.buffer, ?_⟩
  rw [Reconstructor.heard, Reconstructor.heard, Reconstructor.contentOf?, Reconstructor.readable?,
    hlegible, htext, parse_nameText]
  rfl

/-- After the name only the age is awaited. -/
theorem awaits_iff (key : String) :
    Awaits people (.named "Person") fields [nameContent] key ↔ "age" = key := by
  have haddresses : Addresses people (.named "Person") nameContent :=
    ⟨_, _, snapshot_nameContent⟩
  have hshows (f : FieldShape) : Shows people (.named "Person") nameContent f ↔
      inSlot [("name", .text "Al"), ("age", .unknown)] f.attr ≠ .unknown := by
    simp [Shows, snapshot_nameContent]
  simp [Awaits, haddresses, hshows, fields, inSlot, Entries.get?]

end People

open People in
theorem completion_names_missing_iff_person :
    Reconstructor.start people (.named "Person") ⟨true⟩ = .ok personStream ∧
      people.shapeOf (.named "Person") = .ok person ∧ people.fieldShapes "Person" = .ok fields ∧
        let told := personStream.run people [.fragment nameText]
        told.IsOpen ∧ Content.parse (Option.getD none told.buffer) = .ok nameContent ∧
          decode people nameContent (.named "Person") = .error (.missing ⟨"age", .top⟩) ∧
          ∃ keys, (told.feed people (.completed none)).outcome =
              .error (.incomplete ⟨.missingProperty "age", keys⟩) ∧
            "age" ∈ keys ∧ ∀ key ∈ keys, ¬ SuppliesKey people fields nameContent key := by
  obtain ⟨hopen, hbuffer, hheard⟩ := told_name
  have hparse : Content.parse
      (Option.getD none (personStream.run people [.fragment nameText]).buffer) =
        .ok nameContent := by
    rw [Option.getD_none, hbuffer]
    exact parse_nameText
  obtain ⟨keys, houtcome, -, hright⟩ := completion_names_missing_iff start_person shapeOf_person
    fieldShapes_person hopen none hparse decode_nameContent
  rw [hheard] at hright
  have hage : ¬ SuppliesKey people fields nameContent "age" := by
    rintro ⟨-, -, -, given, v, hgiven, -⟩
    simp [nameContent, Content.child?, Entries.get?] at hgiven
  obtain ⟨hmem, hsupplied⟩ := hright.mpr <| .inr
    ⟨(awaits_iff "age").mpr rfl, fun key hkey => (awaits_iff key).mp hkey ▸ hage⟩
  exact ⟨start_person, shapeOf_person, fieldShapes_person, hopen, hparse, decode_nameContent, keys,
    houtcome, hmem, hsupplied⟩

open People in
/-- A stream that told the name of a person and is completed with a text that holds only the age
reports the age as missing, which the text supplies, and not the name, which it lacks. -/
theorem not_completion_names_missing :
    Reconstructor.start people (.named "Person") ⟨true⟩ = .ok personStream ∧
      people.shapeOf (.named "Person") = .ok person ∧
        Content.parse ageText = .ok ageContent ∧
          decode people ageContent (.named "Person") = .error (.missing ⟨"name", .top⟩) ∧
          ((personStream.run people [.fragment nameText]).feed people
              (.completed (some ageText))).outcome =
            .error (.incomplete ⟨.missingProperty "name", ["age"]⟩) ∧
          "name" ∉ ["age"] ∧ SuppliesKey people fields ageContent "age" := by
  obtain ⟨hopen, -, hheard⟩ := told_name
  have htype : (personStream.run people [.fragment nameText]).type = .named "Person" :=
    Reconstructor.run_type _
  have hknown : (personStream.run people [.fragment nameText]).known =
      .slots "Person" [("name", .text "Al"), ("age", .unknown)] := by
    rw [Reconstructor.known_run hopen, hheard, List.foldl_cons, List.foldl_nil,
      Reconstructor.learn]
    simp only [personStream, snapshot_nameContent, Snapshot.unknown_merge]
  have hmissing : (personStream.run people [.fragment nameText]).missing people = ["age"] := by
    rw [Reconstructor.missing, hknown]
    cbv
  have houtcome := Reconstructor.complete_of_missing
    (r := personStream.run people [.fragment nameText]) (some ageText) parse_ageText
    (htype ▸ decode_ageContent)
  rw [hmissing, ← Reconstructor.feed_completed hopen] at houtcome
  refine ⟨start_person, shapeOf_person, parse_ageText, decode_ageContent, houtcome, by decide, ?_⟩
  refine ⟨_, List.mem_cons_of_mem _ List.mem_cons_self, rfl, .number Forest.three, .integer 3,
    ?_, ?_⟩
  · simp [ageContent, Content.child?, Entries.get?]
  · simp [Decoding.value, FieldShape.whole, Shape.core, Shape.isOptional, Content.isNull,
      Content.kind, Decoding.leaf, decodePrimitive, Content.asNumber, Forest.toInt?_three,
      Except.mapError]

end StructuredOutput

import StructuredOutput.Proofs.Document.Dialects
import StructuredOutput.Proofs.Document.Fragments
import StructuredOutput.Proofs.Document.References
import StructuredOutput.Proofs.Schema.DistinctNames

/-!
Whether the references of a document work. A name that is defined apart is the title of nothing but
its definition, so that a pointer leads there or to something else altogether.
-/

namespace StructuredOutput

/-- What a node stands for: itself, or what it resolves to if it is a reference. -/
def SchemaGraph.meant? (g : SchemaGraph) : Schema → Option Schema
  | .ref name => g.resolve? name
  | s => some s

namespace Document

open NamedSchemas

variable {st : Style} {g : SchemaGraph} {named : NamedSchemas} {document members full : Members}
  {s : Schema} {name title : String} {j : Json} {path : List (List UInt8)}

/-! ### Data without a title -/

/-- JSON data in which no object has a certain title. -/
inductive Untitled (title : String) : Json → Prop
  | plain {j : Json} (noObject : ∀ members, j ≠ .object members)
      (noArray : ∀ items, j ≠ .array items) : Untitled title j
  | array {items : List Json} (each : ∀ j ∈ items, Untitled title j) : Untitled title (.array items)
  | object {members : Members} (own : Entries.get? members "title" ≠ some (.string title))
      (each : ∀ e ∈ members, Untitled title e.2) : Untitled title (.object members)

namespace Untitled

theorem text (value : String) : Untitled title (.string value) := .plain nofun nofun

theorem flag (value : Bool) : Untitled title (.bool value) := .plain nofun nofun

theorem texts {α : Type} (f : α → String) (as : List α) :
    Untitled title (.array (as.map fun a => .string (f a))) :=
  .array fun _ hj => by
    obtain ⟨a, -, rfl⟩ := List.mem_map.mp hj
    exact text (f a)

theorem follow (h : Untitled title j) (hfollow : follow? j path = some (.object members)) :
    Entries.get? members "title" ≠ some (.string title) := by
  induction path generalizing j with
  | nil =>
    cases hfollow
    cases h with
    | plain noObject => exact absurd rfl (noObject members)
    | object own => exact own
  | cons token path ih =>
    cases h with
    | plain noObject noArray =>
      cases j with
      | object members => exact absurd rfl (noObject members)
      | array items => exact absurd rfl (noArray items)
      | _ => cases hfollow
    | array each =>
      obtain ⟨inner, hinner, hrest⟩ := Option.bind_eq_some_iff.mp hfollow
      obtain ⟨i, -, hi⟩ := Option.bind_eq_some_iff.mp hinner
      exact ih (each inner (List.mem_of_getElem? hi)) hrest
    | object own each =>
      obtain ⟨inner, hinner, hrest⟩ := Option.bind_eq_some_iff.mp hfollow
      obtain ⟨e, he, rfl⟩ := Option.map_eq_some_iff.mp hinner
      exact ih (each e (List.mem_of_find?_eq_some he)) hrest

end Untitled

/-- Members in whose values no object has a certain title. -/
def UntitledValues (title : String) (members : Members) : Prop :=
  ∀ e ∈ members, Untitled title e.2

theorem Untitled.of_values (own : Entries.get? members "title" ≠ some (.string title))
    (h : UntitledValues title members) : Untitled title (.object members) :=
  .object own h

namespace UntitledValues

theorem nil : UntitledValues title [] := fun _ he => absurd he List.not_mem_nil

theorem cons {key : String} (hj : Untitled title j) (h : UntitledValues title members) :
    UntitledValues title ((key, j) :: members) :=
  List.forall_mem_cons.mpr ⟨hj, h⟩

theorem append {more : Members} (h : UntitledValues title members)
    (hmore : UntitledValues title more) : UntitledValues title (members ++ more) :=
  List.forall_mem_append.mpr ⟨h, hmore⟩

theorem put (h : UntitledValues title members) (key : String) (hj : Untitled title j) :
    UntitledValues title (Entries.put members key j) := by
  intro e he
  rcases Entries.mem_of_mem_put he with he | rfl
  · exact h e he
  · exact hj

theorem putIf (h : UntitledValues title members) (key : String) {value : Option Json}
    (hvalue : ∀ j, value = some j → Untitled title j) :
    UntitledValues title (Document.putIf members key value) := by
  cases value with
  | none => exact h
  | some j => exact h.put key (hvalue j rfl)

theorem count (h : UntitledValues title members) (key : String) (n : Option Nat) :
    UntitledValues title (Document.putIf members key (n.map Document.count)) :=
  h.putIf key fun j hj => by
    obtain ⟨n, -, rfl⟩ := Option.map_eq_some_iff.mp hj
    exact .plain nofun nofun

theorem bound (h : UntitledValues title members) (key : String) (b : Option Bound) :
    UntitledValues title (Document.putIf members key (b.map Document.bound)) :=
  h.putIf key fun j hj => by
    obtain ⟨b, -, rfl⟩ := Option.map_eq_some_iff.mp hj
    cases b <;> exact .plain nofun nofun

theorem putRule (h : UntitledValues title members) (rule : TextRule) :
    UntitledValues title (Document.putRule members rule) := by
  cases rule with
  | pattern regex => exact h.put _ (.text regex)
  | constant value => exact h.put _ (.texts id [value])
  | oneOf values => exact h.put _ (.texts id values)
  | length span => exact (h.count _ span.lower).count _ span.upper

theorem putRange (h : UntitledValues title members) (r : Range) :
    UntitledValues title (Document.putRange members r) :=
  (h.bound _ r.lower).bound _ r.upper

theorem putCount (h : UntitledValues title members) (span : Span) :
    UntitledValues title (Document.putCount members span) :=
  (h.count _ span.lower).count _ span.upper

theorem foldl {α : Type} {step : Members → α → Members}
    (hstep : ∀ members a, UntitledValues title members → UntitledValues title (step members a))
    (h : UntitledValues title members) (as : List α) :
    UntitledValues title (as.foldl step members) := by
  induction as generalizing members with
  | nil => exact h
  | cons a as ih => exact ih (hstep members a h)

theorem describe (h : UntitledValues title members) (description : Option String) :
    UntitledValues title (st.describe members description) := by
  unfold Style.describe
  split
  · split
    · exact h.put _ (.text _)
    · exact h
  · exact h

end UntitledValues

/-! ### Titles of what is written -/

/-- What is written for a node has a title if the node defines a name. -/
theorem defines_of_title (h : body st s = .ok full)
    (htitle : Entries.get? full "title" = some (.string title)) :
    s.defines = true ∧ s.name? = some title := by
  cases s with
  | string rules =>
    cases h
    rw [get?_rules (by decide) (by decide) (by decide) fun heq => absurd heq (by decide)] at htitle
    cases htitle
  | integer ranges | number ranges =>
    cases h
    rw [get?_ranges (by decide) (by decide)] at htitle
    cases htitle
  | boolean =>
    cases h
    cases htitle
  | array item counts =>
    obtain ⟨rendered, -, rfl⟩ := body_array.mp h
    rw [get?_counts (by decide) (by decide)] at htitle
    cases htitle
  | object name description properties =>
    obtain ⟨rendered, -, rfl⟩ := body_object.mp h
    rw [get?_object (by decide)] at htitle
    cases htitle
    exact ⟨rfl, rfl⟩
  | union name description alternatives =>
    obtain ⟨rendered, -, rfl⟩ := body_union h
    rw [Entries.get?_append, get?_describe (by decide)] at htitle
    cases htitle
    exact ⟨rfl, rfl⟩
  | ref name =>
    rw [body] at h
    split at h
    · cases h
      cases htitle
    · cases h

theorem title_of_defines (h : body st s = .ok full) (hdefines : s.defines = true)
    (hname : s.name? = some name) : Entries.get? full "title" = some (.string name) := by
  cases s with
  | object =>
    cases hname
    obtain ⟨rendered, -, rfl⟩ := body_object.mp h
    rw [get?_object (by decide)]
    rfl
  | union =>
    cases hname
    obtain ⟨rendered, -, rfl⟩ := body_union h
    rw [Entries.get?_append, get?_describe (by decide)]
    rfl
  | _ => cases hdefines

theorem untitled_pointer (name : String) : Untitled title (.object (st.pointer name)) :=
  .of_values (by simp [Style.pointer, Entries.get?]) (.cons (.text _) .nil)

theorem untitled_nullable (h : Untitled title (.object members)) :
    Untitled title (.object (nullable members)) := by
  cases h with
  | plain noObject => exact absurd rfl (noObject members)
  | object own each =>
  rw [nullable_eq]
  split
  · next kind _ =>
    have htype : UntitledValues title
        (Entries.put members "type" (.array [.string kind, .string "null"])) :=
      UntitledValues.put each "type" (.texts id [kind, "null"])
    have hwidened : UntitledValues title (widen members kind) := by
      unfold widen
      dsimp only
      split
      · next options hoptions =>
        refine htype.put "enum" (.array (List.forall_mem_append.mpr ⟨?_, ?_⟩))
        · cases each _ (Entries.mem_of_get? hoptions) with
          | plain _ noArray => exact absurd rfl (noArray options)
          | array each => exact each
        · exact fun j hj => List.mem_singleton.mp hj ▸ .plain nofun nofun
      · exact htype
    refine .object ?_ hwidened
    rwa [get?_widen (by decide) (by decide)]
  · have hnull : Untitled title (.object [("type", .string "null")]) :=
      .of_values (by simp [Entries.get?]) (.cons (.text _) .nil)
    refine .of_values (by simp [nullable.either, Entries.get?]) (.cons (.array ?_) .nil)
    exact List.forall_mem_cons.mpr ⟨.object own each, List.forall_mem_singleton.mpr hnull⟩

theorem untitled_property {p : Property Schema} (h : Untitled title (.object members)) :
    Untitled title (st.property p members) := by
  have hdescribe {members : Members} (h : Untitled title (.object members)) :
      Untitled title (.object (st.describe members p.description)) := by
    cases h with
    | plain noObject => exact absurd rfl (noObject members)
    | object own each =>
      exact .object (by rwa [get?_describe (by decide)]) (UntitledValues.describe each _)
  unfold Style.property
  dsimp only
  split
  · exact hdescribe (untitled_nullable h)
  · exact hdescribe h

/-- What stands for a node whose own name is defined apart is a reference, which has no title. -/
theorem untitled_emit (hpointers : st.pointers = true) (htitle : title ∈ st.definitions)
    (hinside : ∀ full, body st s = .ok full → UntitledValues title full)
    (h : emit st s = .ok full) : Untitled title (.object full) := by
  rcases emit_cases h with hbody | ⟨name, -, rfl⟩
  · refine .object (fun hown => ?_) (hinside full hbody)
    obtain ⟨hdefines, hname⟩ := defines_of_title hbody hown
    rw [emit_of_defines hdefines hname, hpointers, if_pos (by simp [htitle])] at h
    cases h
    simp [Style.pointer, Entries.get?] at hown
  · exact untitled_pointer name

theorem untitled_bodies {properties : List (Property Schema)} {rendered : Members}
    (hparts : ∀ p ∈ properties, ∀ r, emit st p.schema = .ok r → Untitled title (.object r))
    (h : bodies st properties = .ok rendered) : Untitled title (.object rendered) := by
  have heach (e : String × Json) (he : e ∈ rendered) : ∃ p ∈ properties, ∃ r,
      emit st p.schema = .ok r ∧ e = (p.key, st.property p r) :=
    Outcome.exists_mem_left (bodies_eq_ok.mp h) he
  refine .of_values (fun hown => ?_) fun e he => ?_
  · obtain ⟨p, -, r, -, heq⟩ := heach _ (Entries.mem_of_get? hown)
    cases congrArg Prod.snd heq
  · obtain ⟨p, hp, r, hr, rfl⟩ := heach e he
    exact untitled_property (hparts p hp r hr)

theorem untitled_choices {alternatives : List Schema} {rendered : List Json}
    (hparts : ∀ part ∈ alternatives, ∀ r, emit st part = .ok r → Untitled title (.object r))
    (h : choices st alternatives = .ok rendered) : Untitled title (.array rendered) := by
  refine .array fun j hj => ?_
  obtain ⟨part, hpart, r, hr, rfl⟩ := Outcome.exists_mem_left (choices_eq_ok.mp h) hj
  exact hparts part hpart r hr

theorem untitledValues_object {description : Option String} {properties : List (Property Schema)}
    {rendered : Members} (h : Untitled title (.object rendered)) :
    UntitledValues title (st.object name description properties rendered) := by
  have hkeys : Untitled title (.array (properties.map fun p => .string p.key)) :=
    .texts Property.key properties
  have hrequired : Untitled title (if st.backend = .openai then
      .array (properties.map fun p => .string p.key)
      else .array ((Schema.required properties).map .string)) := by
    split
    · exact hkeys
    · exact .texts id _
  have hlast : Untitled title (if st.backend = .gemini then
      ("propertyOrdering", Json.array (properties.map fun p => .string p.key))
      else ("additionalProperties", .bool false)).2 := by
    split
    · exact hkeys
    · exact .flag false
  have hfirst : UntitledValues title
      (st.describe [("type", .string "object"), ("title", .string name)] description) :=
    .describe (.cons (.text _) (.cons (.text _) .nil)) description
  exact (hfirst.append (.cons h (.cons hrequired .nil))).append (.cons hlast .nil)

/-- Inside what is written for a node, nothing has a name that is defined apart for its title. -/
theorem untitledValues_body (hpointers : st.pointers = true) (htitle : title ∈ st.definitions)
    (h : body st s = .ok full) : UntitledValues title full := by
  induction s using Schema.parts_induction generalizing full with
  | h s ih =>
    have hemit (part : Schema) (hpart : part ∈ s.parts) (r : Members) (hr : emit st part = .ok r) :
        Untitled title (.object r) :=
      untitled_emit hpointers htitle (fun _ => ih part hpart) hr
    cases s with
    | string rules =>
      cases h
      exact .foldl (fun _ rule h => h.putRule rule) (.cons (.text _) .nil) rules
    | integer ranges | number ranges =>
      cases h
      exact .foldl (fun _ r h => h.putRange r) (.cons (.text _) .nil) ranges
    | boolean =>
      cases h
      exact .cons (.text _) .nil
    | array item counts =>
      obtain ⟨rendered, hrendered, rfl⟩ := body_array.mp h
      have hitem := hemit item (List.mem_singleton_self item) rendered hrendered
      exact .foldl (fun _ span h => h.putCount span) (.cons (.text _) (.cons hitem .nil)) counts
    | object name description properties =>
      obtain ⟨rendered, hrendered, rfl⟩ := body_object.mp h
      exact untitledValues_object (untitled_bodies
        (fun p hp => hemit p.schema (Schema.mem_parts_of_mem_properties hp)) hrendered)
    | union name description alternatives =>
      obtain ⟨rendered, hrendered, rfl⟩ := body_union h
      exact ((UntitledValues.cons (.text _) .nil).describe description).append
        (.cons (untitled_choices hemit hrendered) .nil)
    | ref name =>
      rw [body, if_pos hpointers] at h
      cases h
      exact .cons (.text _) .nil

/-! ### Titles in a document -/

/-- A document is what is written for the root, perhaps with definitions besides. -/
theorem eq_or_eq_append_of_render {backend : Backend} {settings : ProjectionSettings}
    (h : render g.root backend named settings = .ok document) :
    ∃ full, body (styleFor g.root backend named settings) g.root = .ok full ∧
      (document = full ∨ document = full ++ [("$defs", .object (definitionsOf document))]) := by
  obtain ⟨-, full, hfull, hdocument⟩ := render_eq_ok_iff.mp h
  refine ⟨full, hfull, ?_⟩
  split at hdocument
  · exact .inl hdocument
  · obtain ⟨defs, -, rfl⟩ := hdocument
    right
    have hdefs : definitionsOf (Entries.put full "$defs" (.object defs)) = defs := by
      rw [definitionsOf, Entries.get?_put_self]
    rw [hdefs, Entries.put_of_not_mem _ (Entries.get?_eq_none.mp (get?_body_defs hfull))]

theorem exists_mem_of_member? {token : List UInt8} (h : member? members token = some j) :
    ∃ key, octets key = token ∧ (key, j) ∈ members := by
  obtain ⟨e, he, rfl⟩ := Option.map_eq_some_iff.mp h
  have htoken : (octets e.1 == token) = true :=
    List.find?_some (p := fun e : String × Json => octets e.1 == token) he
  exact ⟨e.1, eq_of_beq htoken, List.mem_of_find?_eq_some he⟩

/-- What a pointer leads to inside of what is written for a node has no title that is the name of
what is defined apart. -/
theorem title_ne_of_follow? (hpointers : st.pointers = true) (hname : name ∈ st.definitions)
    (h : body st s = .ok full) {key : String} (hmem : (key, j) ∈ full)
    (hfollow : follow? j path = some (.object members)) :
    Entries.get? members "title" ≠ some (.string name) :=
  (untitledValues_body hpointers hname h _ hmem).follow hfollow

/-- Among the definitions, a name that is defined apart is a title nowhere but in its own. -/
theorem path_of_title_in_definitions (hpointers : st.pointers = true)
    (hdocument : IsDocument st named g.root document) (hrecorded : Recorded g named)
    (hname : name ∈ st.definitions)
    (hfollow : follow? (.object (definitionsOf document)) path = some (.object members))
    (htitle : Entries.get? members "title" = some (.string name)) : path = [octets name] := by
  have hwritten (key : String) (j : Json) (hj : (key, j) ∈ definitionsOf document) :
      ∃ r full, Entries.get? named.schemas key = some r ∧ body st r = .ok full ∧
        j = .object full := by
    obtain ⟨m, -, r, full, hr, hfull, heq⟩ :=
      Outcome.exists_mem_left (forall₂_of_definitions hdocument.definitions) hj
    cases heq
    exact ⟨r, full, hr, hfull, rfl⟩
  cases path with
  | nil =>
    cases hfollow
    obtain ⟨-, full, -, -, heq⟩ := hwritten _ _ (Entries.mem_of_get? htitle)
    cases heq
  | cons token path =>
    obtain ⟨inner, hinner, hrest⟩ := Option.bind_eq_some_iff.mp hfollow
    obtain ⟨key, rfl, hmem⟩ := exists_mem_of_member? hinner
    obtain ⟨r, full, hr, hfull, rfl⟩ := hwritten key inner hmem
    cases path with
    | nil =>
      cases hrest
      obtain ⟨-, -, hkey⟩ := hrecorded key r hr
      cases hkey.symm.trans (defines_of_title hfull htitle).2
      rfl
    | cons token path =>
      obtain ⟨inner, hinner, hrest⟩ := Option.bind_eq_some_iff.mp hrest
      obtain ⟨key, -, hmem⟩ := exists_mem_of_member? hinner
      exact absurd htitle (title_ne_of_follow? hpointers hname hfull hmem hrest)

/-- A name that is defined apart is a title nowhere but in its definition. -/
theorem path_of_title (hfull : body st g.root = .ok full)
    (hmembers : document = full ∨
      document = full ++ [("$defs", .object (definitionsOf document))])
    (hdocument : IsDocument st named g.root document) (hapart : Apart st g named)
    (hrecorded : Recorded g named) (hname : name ∈ st.definitions)
    (hfollow : follow? (.object document) path = some (.object members))
    (htitle : Entries.get? members "title" = some (.string name)) :
    path = [octets "$defs", octets name] := by
  cases path with
  | nil =>
    cases hfollow
    have hown : Entries.get? full "title" = some (.string name) := by
      rcases hmembers with rfl | heq
      · exact htitle
      · have hdefs : Entries.get? [("$defs", Json.object (definitionsOf document))] "title" =
            Option.none := rfl
        rwa [heq, Entries.get?_append, hdefs, Option.or_none] at htitle
    obtain ⟨hdefines, hroot⟩ := defines_of_title hfull hown
    refine absurd ?_ ((hapart.definitions name).mp hname).2
    rw [hapart.rootName, if_pos hdefines, hroot]
  | cons token path =>
    obtain ⟨inner, hinner, hrest⟩ := Option.bind_eq_some_iff.mp hfollow
    obtain ⟨key, rfl, hmem⟩ := exists_mem_of_member? hinner
    have hbody (hmem : (key, inner) ∈ full) :
        octets key :: path = [octets "$defs", octets name] :=
      absurd htitle (title_ne_of_follow? hapart.pointers hname hfull hmem hrest)
    rcases hmembers with rfl | heq
    · exact hbody hmem
    · rw [heq] at hmem
      rcases List.mem_append.mp hmem with hmem | hmem
      · exact hbody hmem
      · cases List.mem_singleton.mp hmem
        rw [path_of_title_in_definitions hapart.pointers hdocument hrecorded hname hrest htitle]

/-! ### What pointers lead to -/

/-- Whether a pointer leads to what is written for what a node stands for. The whole document has
definitions besides. -/
def Denotes (st : Style) (g : SchemaGraph) (document : Members) (pointer : String) (s : Schema) :
    Prop :=
  ∃ target r full members, g.meant? s = some target ∧ r.same target = true ∧
    body st r = .ok full ∧ resolve? document pointer = some (.object members) ∧
      (members = full ∨ ∃ defs, members = full ++ [("$defs", defs)])

/-- Whether all references of a document work: each is written for a node, and leads to what is
written for what the node stands for. -/
def PointersWork (st : Style) (g : SchemaGraph) (document : Members) : Prop :=
  ∀ members j, Subschema document members → Entries.get? members "$ref" = some j →
    (∃ s, WrittenFor st g.root document members s) ∧
      ∀ s, WrittenFor st g.root document members s →
        ∃ pointer, j = .string pointer ∧ Denotes st g document pointer s

/-- Nothing at a schema position is a reference if nothing is written as one. -/
theorem Placed.unreferring (hinline : st.pointers = false) (h : Placed st g members) :
    Entries.get? members "$ref" = Option.none := by
  have hbody {s : Schema} {full : Members} (h : body st s = .ok full) :
      Entries.get? full "$ref" = Option.none :=
    get?_body (by decide) (fun name hs => unreferring_of_body hinline h name (hs ▸ .refl s)) h
  have hemit {s : Schema} {full : Members} (h : emit st s = .ok full) :
      Entries.get? full "$ref" = Option.none :=
    hbody (emit_of_no_pointers hinline s ▸ h)
  cases h with
  | written _ rendered besides =>
    rw [besides.get?_eq (by decide) (by decide)]
    exact rendered.elim hbody hemit
  | widened _ rendered _ besides =>
    rw [besides.get?_eq (by decide) (by decide), get?_widen (by decide) (by decide), hemit rendered]
  | either _ _ besides =>
    rw [besides.get?_eq (by decide) (by decide)]
    rfl
  | null eq =>
    subst eq
    rfl

theorem exists_meant (hg : g.Anchored) (hs : s.Within g.root) (hname : s.name? = some name) :
    ∃ target, g.meant? s = some target ∧ target.Within g.root ∧ target.defines = true ∧
      target.name? = some name := by
  cases s with
  | object | union => exact ⟨_, rfl, hs, rfl, hname⟩
  | ref =>
    cases hname
    exact hg name hs
  | _ => cases hname

theorem resolve?_root (document : Members) : resolve? document "#" = some (.object document) := by
  rw [resolve?, tokens?_root]
  rfl

theorem resolve?_definition (hdocument : IsDocument st named g.root document)
    (hname : name ∈ st.definitions) (hplain : Plain name) :
    resolve? document ("#/$defs/" ++ name) = Entries.get? (definitionsOf document) name := by
  have hdefs : Entries.get? document "$defs" = some (.object (definitionsOf document)) :=
    hdocument.present (List.ne_nil_of_mem hname)
  rw [resolve?, tokens?_definition_iff.mpr hplain, Option.bind_some, follow?, member?_octets, hdefs,
    Option.bind_some, follow?, member?_octets]
  cases Entries.get? (definitionsOf document) name <;> rfl

/-- The references of a document work if nothing that is defined apart has a name in which pointers
are split or decoded. -/
theorem pointersWork_of_plain (hfull : body st g.root = .ok full)
    (hmembers : document = full ∨
      document = full ++ [("$defs", .object (definitionsOf document))])
    (hdocument : IsDocument st named g.root document) (hapart : Apart st g named)
    (hg : g.Anchored) (hnamed : collect g = .ok named)
    (hplain : ∀ name ∈ Entries.names (definitionsOf document), Plain name) :
    PointersWork st g document := by
  intro members j hsub href
  have hlive := closedAndLive hdocument hapart hg hnamed
  refine ⟨hlive.paired members j hsub href, fun s hs => ?_⟩
  obtain ⟨name, hname, hj⟩ := hlive.closed members s j hs href
  have hwithin : s.Within g.root := (hs.shows hdocument hg.root_ne_ref).1
  obtain ⟨target, hmeant, htarget, hdefines, htargetName⟩ := exists_meant hg hwithin hname
  rcases hj with ⟨rfl, hrootDefines, hroot⟩ | ⟨rfl, hmem⟩
  · have hsame : g.root.same target = true :=
      same_of_collect hg hnamed (.refl g.root) htarget hrootDefines hdefines hroot htargetName
    exact ⟨"#", rfl, target, g.root, full, document, hmeant, hsame, hfull, resolve?_root document,
      hmembers.imp id fun heq => ⟨_, heq⟩⟩
  · obtain ⟨written, hwritten⟩ := Option.ne_none_iff_exists'.mp
      (mt Entries.get?_eq_none.mp (not_not.mpr hmem))
    obtain ⟨r, inner, -, -, -, hinner, rfl, hsame⟩ :=
      hlive.defined name written (Entries.mem_of_get? hwritten)
    refine ⟨_, rfl, target, r, inner, inner, hmeant, hsame target htarget hdefines htargetName,
      hinner, ?_, .inl rfl⟩
    rw [resolve?_definition hdocument (names_definitionsOf hdocument ▸ hmem) (hplain name hmem),
      hwritten]

/-- The references of a document do not all work if something that is defined apart has another
name: the pointer leads to nothing with this name for a title. -/
theorem plain_of_pointersWork (hfull : body st g.root = .ok full)
    (hmembers : document = full ∨
      document = full ++ [("$defs", .object (definitionsOf document))])
    (hdocument : IsDocument st named g.root document) (hapart : Apart st g named)
    (hg : g.Anchored) (hnamed : collect g = .ok named) (hwork : PointersWork st g document)
    (hname : name ∈ Entries.names (definitionsOf document)) : Plain name := by
  have hlive := closedAndLive hdocument hapart hg hnamed
  obtain ⟨members, hsub, href⟩ := hlive.live name hname
  obtain ⟨⟨s, hs⟩, hdenotes⟩ := hwork members _ hsub href
  obtain ⟨pointer, heq, target, r, inner, found, hmeant, hsame, hinner, hresolve, hfound⟩ :=
    hdenotes s hs
  cases heq
  have hsName : s.name? = some name := by
    obtain ⟨other, hother, ⟨heq, -⟩ | ⟨heq, -⟩⟩ := hlive.closed members s _ hs href
    · exact absurd (Json.string.inj heq) (definition_ne_root name)
    · rwa [(String.append_right_inj _).mp (Json.string.inj heq)]
  have hwithin : s.Within g.root := (hs.shows hdocument hg.root_ne_ref).1
  obtain ⟨target', hmeant', -, hdefines, htargetName⟩ := exists_meant hg hwithin hsName
  obtain rfl := Option.some.inj (hmeant.symm.trans hmeant')
  have hmatches := Schema.same_iff.mp hsame
  have hinnerTitle : Entries.get? inner "title" = some (.string name) :=
    title_of_defines hinner (hmatches.defines_eq.trans hdefines)
      (hmatches.name?_eq.trans htargetName)
  have htitle : Entries.get? found "title" = some (.string name) := by
    rcases hfound with rfl | ⟨defs, rfl⟩
    · exact hinnerTitle
    · rw [Entries.get?_append, hinnerTitle, Option.some_or]
  obtain ⟨path, hpath, hfollow⟩ := Option.bind_eq_some_iff.mp hresolve
  rw [path_of_title hfull hmembers hdocument hapart (recorded_of_collect hg hnamed)
    (names_definitionsOf hdocument ▸ hname) hfollow htitle] at hpath
  exact tokens?_definition_iff.mp hpath

end Document

/-- Where the schema of a type is written for a backend of JSON Schema, all of the references in the
document work exactly if nothing that is defined apart has a name in which pointers are split or
decoded. -/
theorem pointers_work_iff {ds : Declarations} {cache : SchemaCache} {t : TypeExpr}
    {g : SchemaGraph} {backend : Backend} {settings : ProjectionSettings} {projected : Projected}
    {notices : List Notice} (hcache : cache.Reached ds) (h : (ds.schemaFor cache t).1 = .ok g)
    (hbackend : backend = .jsonSchema ∨ backend = .openai)
    (hproject : g.project backend settings = .ok (projected, notices)) :
    ∃ named document, NamedSchemas.collect g = .ok named ∧ projected = .document document ∧
      (Document.PointersWork (Document.styleFor g.root backend named settings) g document ↔
        ∀ name ∈ Entries.names (Document.definitionsOf document), Document.Plain name) := by
  obtain ⟨written, -, hderive⟩ := exists_derived_of_schemaFor hcache h
  obtain ⟨shape, d, -, hfinished⟩ := Declarations.finished_of_deriveSchema hderive
  have hg : g.Anchored := hfinished.unambiguous.anchored
  have hgbnf : backend ≠ .gbnf := by
    rintro rfl
    rcases hbackend with h | h <;> cases h
  have hpointers : backend.supportsPointers = true := by
    rcases hbackend with rfl | rfl <;> rfl
  obtain ⟨named, document, hnamed, hrender, rfl, -⟩ := (project_eq_ok_iff hgbnf).mp hproject
  have hdocument := Document.isDocument_of_render hrender
  refine ⟨named, document, hnamed, rfl, ?_⟩
  by_cases huse : settings.useDefinitions = true
  · obtain ⟨full, hfull, hmembers⟩ := Document.eq_or_eq_append_of_render hrender
    have hapart : Document.Apart (Document.styleFor g.root backend named settings) g named :=
      Document.apart_styleFor hpointers huse
    refine ⟨fun hwork name hname => ?_, fun hplain => ?_⟩
    · exact Document.plain_of_pointersWork hfull hmembers hdocument hapart hg hnamed hwork hname
    · exact Document.pointersWork_of_plain hfull hmembers hdocument hapart hg hnamed hplain
  · -- Nothing is defined apart, and there are no references.
    have hinline : (backend.supportsPointers && settings.useDefinitions) = false := by
      rw [Bool.eq_false_of_not_eq_true huse, Bool.and_false]
    have hnone : (Document.styleFor g.root backend named settings).definitions = [] := by
      simp only [Document.styleFor, hinline, Bool.false_eq_true, if_false]
    refine iff_of_true (fun members j hsub href => ?_) fun name hname => ?_
    · cases href.symm.trans
        ((Document.placed_of_subschema hnamed hrender hsub).unreferring hinline)
    · rw [Document.names_definitionsOf hdocument, hnone] at hname
      cases hname

/-! ### A name with a slash -/

namespace Halves

/-- A record under another name, which has a slash in it. -/
def declarations : Declarations :=
  ⟨"m", [
    ("Half", .record ⟨"Half", none, some ⟨some "1/2", none, none⟩,
      [⟨"size", .atom .integer, none, none, false, none, true⟩]⟩),
    ("Whole", .record ⟨"Whole", none, none,
      [⟨"near", .named "Half", none, none, false, none, true⟩,
        ⟨"far", .named "Half", none, none, false, none, true⟩]⟩)]⟩

def half : Schema := .object "1/2" none [⟨"size", .integer [], none, false⟩]

def whole : Schema :=
  .object "Whole" none [⟨"near", half, none, false⟩, ⟨"far", half, none, false⟩]

def graph : SchemaGraph := ⟨whole, [("1/2", half), ("Whole", whole)]⟩

/-- The document of a whole, in which the half is defined apart. -/
def document : Members :=
  match graph.project .jsonSchema .standard with
  | .ok (.document members, _) => members
  | _ => []

theorem schemaFor_whole : (declarations.schemaFor [] (.named "Whole")).1 = .ok graph := by cbv

theorem project_graph : graph.project .jsonSchema .standard =
    .ok (.document document, [.schemaProjected "json_schema" "Whole" 2]) := rfl

/-- What stands for a half. -/
def reference : Members := [("$ref", .string "#/$defs/1/2")]

theorem subschema_reference : Document.Subschema document reference :=
  .property .root (List.mem_cons_self (a := ("near", Json.object reference)))

end Halves

open Halves in
theorem pointers_work_iff_halves :
    SchemaCache.Reached declarations [] ∧
      (declarations.schemaFor [] (.named "Whole")).1 = .ok graph ∧
      graph.project .jsonSchema .standard =
        .ok (.document document, [.schemaProjected "json_schema" "Whole" 2]) ∧
      ∃ named written, NamedSchemas.collect graph = .ok named ∧
        Projected.document document = .document written ∧
        (Document.PointersWork (Document.styleFor graph.root .jsonSchema named .standard) graph
            written ↔
          ∀ name ∈ Entries.names (Document.definitionsOf written), Document.Plain name) :=
  ⟨.empty, schemaFor_whole, project_graph,
    pointers_work_iff .empty schemaFor_whole (.inl rfl) project_graph⟩

open Halves in
/-- The references to a half lead nowhere, since the slash in its name splits it. -/
theorem not_pointers_work_halves :
    (declarations.schemaFor [] (.named "Whole")).1 = .ok graph ∧
      graph.project .jsonSchema .standard =
        .ok (.document document, [.schemaProjected "json_schema" "Whole" 2]) ∧
      ∀ named, ¬ Document.PointersWork (Document.styleFor graph.root .jsonSchema named .standard)
        graph document := by
  refine ⟨schemaFor_whole, project_graph, fun named hwork => ?_⟩
  obtain ⟨⟨s, hs⟩, hdenotes⟩ := hwork reference _ subschema_reference rfl
  obtain ⟨pointer, heq, -, -, -, found, -, -, -, hresolve, -⟩ := hdenotes s hs
  cases heq
  have htokens : Document.tokens? "#/$defs/1/2" =
      some [Document.octets "$defs", Document.octets "1", Document.octets "2"] := by decide
  rw [Document.resolve?, htokens, Option.bind_some, Document.follow?, Document.member?_octets]
    at hresolve
  cases hresolve

end StructuredOutput

import StructuredOutput.Proofs.Backend.Visits
import StructuredOutput.Proofs.Document.Expansion

/-!
Definitions only share: a document with its references replaced is the document in which every
object and every union is written where it occurs. Parts that are defined apart are equal to what
stands under their name, so that the induction is over pairs of equal schemas: the one that is
written with references and the one that is written out.
-/

namespace StructuredOutput

namespace Document

variable {st : Style} {s t c : Schema} {members full rendered document : Members}

/-! ### Documents without references -/

/-- The style in which nothing is referred to. -/
def Style.inline (st : Style) : Style := { st with pointers := false, definitions := [] }

/-- What defines a name is referred to by the name, if that is the name of the root or of what is
defined apart. -/
theorem emit_of_defines {name : String} (hdefines : s.defines = true)
    (hname : s.name? = some name) : emit st s =
      if st.pointers && (st.rootName == some name || st.definitions.contains name) then
        .ok (st.pointer name)
      else body st s := by
  have hreference : st.reference? s = Style.reference?.named st name := by
    cases s with
    | object | union =>
      cases hname
      rfl
    | _ => cases hdefines
  rw [emit, hreference, Style.reference?.named]
  generalize (st.pointers && (st.rootName == some name || st.definitions.contains name)) = apart
  cases apart <;> rfl

theorem emit_of_not_defines (h : s.defines = false) : emit st s = body st s := by
  cases s with
  | object | union => cases h
  | ref name =>
    rw [emit, body]
    rfl
  | _ => rfl

theorem emit_of_no_pointers (h : st.pointers = false) (s : Schema) : emit st s = body st s := by
  by_cases hdefines : s.defines = true
  · obtain ⟨name, hname⟩ := Schema.exists_name_of_defines hdefines
    rw [emit_of_defines hdefines hname, h, Bool.false_and, if_neg Bool.false_ne_true]
  · exact emit_of_not_defines (Bool.eq_false_of_not_eq_true hdefines)

/-- What stands for a part is written where the whole is. -/
theorem emit_part (hs : body st s = .ok members) {part : Schema} (hpart : part ∈ s.parts) :
    ∃ inner, emit st part = .ok inner := by
  cases s with
  | array item counts =>
    obtain rfl := List.mem_singleton.mp hpart
    obtain ⟨inner, hinner, -⟩ := body_array.mp hs
    exact ⟨inner, hinner⟩
  | object name description properties =>
    obtain ⟨p, hp, rfl⟩ := List.mem_map.mp hpart
    obtain ⟨inner, hinner, -⟩ := body_object.mp hs
    obtain ⟨-, -, r, hr, -⟩ := Outcome.exists_mem_right (bodies_eq_ok.mp hinner) hp
    exact ⟨r, hr⟩
  | union name description alternatives =>
    obtain ⟨inner, hinner, -⟩ := body_union hs
    obtain ⟨-, -, r, hr, -⟩ := Outcome.exists_mem_right (choices_eq_ok.mp hinner) hpart
    exact ⟨r, hr⟩
  | _ => cases hpart

theorem body_part (h : st.pointers = false) (hs : body st s = .ok members) {part : Schema}
    (hpart : part ∈ s.parts) : ∃ inner, body st part = .ok inner := by
  obtain ⟨inner, hinner⟩ := emit_part hs hpart
  exact ⟨inner, emit_of_no_pointers h part ▸ hinner⟩

theorem body_within (h : st.pointers = false) (hs : body st s = .ok members)
    (hwithin : t.Within s) : ∃ inner, body st t = .ok inner := by
  obtain ⟨position, hposition⟩ := hwithin
  induction position generalizing s members with
  | nil =>
    cases hposition
    exact ⟨members, hs⟩
  | cons i position ih =>
    rw [Schema.at?] at hposition
    obtain ⟨part, hpart, hrest⟩ := Option.bind_eq_some_iff.mp hposition
    obtain ⟨inner, hinner⟩ := body_part h hs (List.mem_of_getElem? hpart)
    exact ih hinner hrest

/-- What is written without references has none. -/
theorem unreferring_of_body (h : st.pointers = false) (hs : body st s = .ok members) :
    s.Unreferring := by
  intro name hwithin
  obtain ⟨inner, hinner⟩ := body_within h hs hwithin
  simp [body, h] at hinner

/-! ### What can be written -/

theorem emit_ok (h : body st s = .ok members) : ∃ rendered, emit st s = .ok rendered := by
  by_cases hdefines : s.defines = true
  · obtain ⟨name, hname⟩ := Schema.exists_name_of_defines hdefines
    rw [emit_of_defines hdefines hname]
    split
    · exact ⟨_, rfl⟩
    · exact ⟨members, h⟩
  · exact ⟨members, (emit_of_not_defines (Bool.eq_false_of_not_eq_true hdefines)).trans h⟩

/-- What can be written without references can be written with them. -/
theorem body_ok (h : body st.inline s = .ok full) : ∃ members, body st s = .ok members := by
  induction s using Schema.parts_induction generalizing full with
  | h s ih =>
    have hparts (part : Schema) (hpart : part ∈ s.parts) :
        ∃ rendered, emit st part = .ok rendered := by
      obtain ⟨inner, hinner⟩ := body_part rfl h hpart
      obtain ⟨members, hmembers⟩ := ih part hpart hinner
      exact emit_ok hmembers
    cases s with
    | array item counts =>
      obtain ⟨rendered, hrendered⟩ := hparts item (List.mem_singleton_self item)
      exact ⟨_, body_array.mpr ⟨rendered, hrendered, rfl⟩⟩
    | object name description properties =>
      have heach : ∀ p ∈ properties, ∃ e, ∃ r, emit st p.schema = .ok r ∧
          e = (p.key, st.property p r) := by
        intro p hp
        obtain ⟨r, hr⟩ := hparts p.schema (Schema.mem_parts_of_mem_properties hp)
        exact ⟨_, r, hr, rfl⟩
      obtain ⟨rendered, hrendered⟩ := Outcome.exists_forall₂ heach
      exact ⟨_, body_object.mpr ⟨rendered, bodies_eq_ok.mpr hrendered, rfl⟩⟩
    | union name description alternatives =>
      have heach : ∀ s ∈ alternatives, ∃ j, ∃ r, emit st s = .ok r ∧ j = Json.object r := by
        intro s hs
        obtain ⟨r, hr⟩ := hparts s hs
        exact ⟨_, r, hr, rfl⟩
      obtain ⟨rendered, hrendered⟩ := Outcome.exists_forall₂ heach
      rw [body] at h ⊢
      split at h
      · cases h
      · next hsome =>
        rw [if_neg hsome, choices_eq_ok.mpr hrendered]
        exact ⟨_, rfl⟩
    | ref name => cases h
    | _ => exact ⟨_, rfl⟩

/-! ### Pairs of equal schemas -/

/-- What a document must have for its references to mean what they stand for: no part of the root
is taken for the root, and under every name that is defined apart stands what is equal to all parts
of that name. -/
structure Shares (st : Style) (root : Schema) (document : Members) : Prop where
  distinct : ∀ t s : Schema, t.Within root → s ∈ t.parts → s.defines = true →
    s.name? ≠ st.rootName
  defined : ∀ (s : Schema) name, s.Within root → s.defines = true → s.name? = some name →
    name ∈ st.definitions → ∃ r target, r.Within root ∧ r.same s = true ∧
      body st r = .ok target ∧ target? document ("#/$defs/" ++ name) = some (.object target)

/-- Schemas of the root that are equal to a given one become its document when the references in
them are replaced. -/
def Expands (st : Style) (root : Schema) (document : Members) (c : Schema) : Prop :=
  ∀ s members full, s.Within root → s.same c = true → body st s = .ok members →
    body st.inline c = .ok full → ∀ depth, 4 * c.size ≤ depth →
      MembersAlike (expand document depth members) full

theorem simpleType?_of_defines (hc : c.defines = true) (h : body st c = .ok full) :
    simpleType? full = none := by
  cases c with
  | object name description properties =>
    obtain ⟨rendered, -, rfl⟩ := body_object.mp h
    rw [simpleType?, get?_object (by decide), List.append_assoc, List.cons_append,
      Entries.get?_cons_self]
    rfl
  | union name description alternatives =>
    obtain ⟨rendered, -, rfl⟩ := body_union h
    rw [simpleType?, Entries.get?_append, get?_describe (by decide), ← Entries.get?_append]
    rfl
  | _ => cases hc

/-- What is emitted for a part of the root stands for what is written out for an equal schema. -/
theorem stands_of_emit {root : Schema} (hshares : Shares st root document)
    (hpointers : st.pointers = true) (hc : Expands st root document c) (ht : t.Within root)
    (hs : s ∈ t.parts) (hsame : s.same c = true) (hfull : body st.inline c = .ok full)
    (hrendered : emit st s = .ok rendered) :
    Stands document (4 * c.size) rendered full := by
  have hwithin : s.Within root := ht.part hs
  have hmatches := Schema.same_iff.mp hsame
  have hunnamed : ∀ name, s ≠ .ref name := by
    rintro name rfl
    cases hmatches
    cases hfull
  have hwritten (hbody : body st s = .ok rendered) :
      Stands document (4 * c.size) rendered full :=
    .written (get?_body (by decide) hunnamed hbody)
      (hc s rendered full hwithin hsame hbody hfull)
  by_cases hdefines : s.defines = true
  · obtain ⟨name, hname⟩ := Schema.exists_name_of_defines hdefines
    have hroot : (st.rootName == some name) = false := by
      simpa using fun heq : st.rootName = some name =>
        hshares.distinct t s ht hs hdefines (hname.trans heq.symm)
    rw [emit_of_defines hdefines hname, hpointers, hroot, Bool.true_and, Bool.false_or] at hrendered
    split at hrendered
    · next hdefined =>
      cases hrendered
      obtain ⟨r, target, hr, hrsame, htarget, hfound⟩ :=
        hshares.defined s name hwithin hdefines hname (by simpa using hdefined)
      rw [Style.pointer, if_neg (by simpa using hroot)]
      refine .pointer hfound ?_ (simpleType?_of_defines (hmatches.defines_eq ▸ hdefines) hfull)
      exact hc r target full hr (Schema.same_trans hrsame hsame) htarget hfull
    · exact hwritten hrendered
  · rw [emit_of_not_defines (Bool.eq_false_of_not_eq_true hdefines)] at hrendered
    exact hwritten hrendered

/-! ### One level of a document -/

variable {change : Members → Members} {name : String} {description : Option String}

theorem inKeywords_object (properties : List (Property Schema)) :
    inKeywords change (st.object name description properties rendered) =
      st.object name description properties
        (rendered.map fun e => (e.1, atSchema change e.2)) := by
  unfold Style.object
  dsimp only
  rw [inKeywords_append, inKeywords_append, inKeywords_describe]
  congr 1
  split <;> rfl

theorem alike_object {properties properties' : List (Property Schema)} {rendered' : Members}
    (hproperties : List.Forall₂ Schema.SameProperty properties properties')
    (h : MembersAlike rendered rendered') :
    MembersAlike (st.object name description properties rendered)
      (st.object name description properties' rendered') := by
  have hkeys : properties.map (fun p => Json.string p.key) =
      properties'.map fun p => Json.string p.key := by
    rw [← List.forall₂_eq_eq_eq, List.forall₂_map_left_iff, List.forall₂_map_right_iff]
    exact hproperties.imp fun p q hpq => congrArg Json.string hpq.key
  have hrequired : Schema.required properties = Schema.required properties' := by
    clear h hkeys
    induction hproperties with
    | nil => rfl
    | cons hpq _ ih =>
      simp only [Schema.required, List.filter_cons, hpq.optional] at ih ⊢
      split
      · rw [List.map_cons, List.map_cons, hpq.key, ih]
      · exact ih
  unfold Style.object
  dsimp only
  rw [hkeys, hrequired]
  have hinner := MembersAlike.refl [("required", if st.backend = .openai then
    Json.array (properties'.map fun p => .string p.key)
    else .array ((Schema.required properties').map .string))]
  exact .append (.append (.refl _) (.cons ⟨rfl, .of_members h⟩ hinner)) (.refl _)

/-- The document of a property, from what stands for its schema. -/
theorem alike_property {p q : Property Schema} (hpq : Schema.SameProperty p q) {least depth : Nat}
    (h : Stands document least rendered full) (hdepth : least + 3 ≤ depth) :
    Alike (atSchema (expand document depth) (st.property p rendered)) (st.property q full) := by
  unfold Style.property
  rw [hpq.optional, hpq.description]
  refine .of_members ?_
  split
  · exact h.nullable.describe q.description hdepth
  · exact h.describe q.description (by omega)

/-! ### All levels -/

/-- Replacing the references in the document of a schema gives the document that is written out. -/
theorem expands {root : Schema} (hshares : Shares st root document) (hpointers : st.pointers = true)
    (c : Schema) : Expands st root document c := by
  induction c using Schema.parts_induction with
  | h c ih =>
    intro s members full hs hsame hmembers hfull depth hdepth
    have hmatches := Schema.same_iff.mp hsame
    have hunnamed : ∀ name, s ≠ .ref name := by
      rintro name rfl
      cases hmatches
      cases hfull
    obtain ⟨below, rfl⟩ : ∃ below, depth = below + 1 :=
      ⟨depth - 1, by have := c.size_pos; omega⟩
    rw [expand_succ (get?_body (by decide) hunnamed hmembers)]
    have hstands {part part' : Schema} {emitted written : Members} (hpart : part ∈ s.parts)
        (hpart' : part' ∈ c.parts) (hsame : part.same part' = true)
        (hemitted : emit st part = .ok emitted) (hwritten : emit st.inline part' = .ok written) :
        Stands document (4 * part'.size) emitted written ∧ 4 * part'.size + 3 ≤ below := by
      rw [emit_of_no_pointers rfl] at hwritten
      have hsize := Schema.size_lt_of_part hpart'
      exact ⟨stands_of_emit hshares hpointers (ih part' hpart') hs hpart hsame hwritten hemitted,
        by omega⟩
    cases hmatches with
    | string rules =>
      cases hmembers
      cases hfull
      rw [inKeywords_rules]
      exact .refl _
    | integer alike =>
      cases hmembers
      cases hfull
      rw [inKeywords_ranges]
      exact alike_ranges alike (.refl _)
    | number alike =>
      cases hmembers
      cases hfull
      rw [inKeywords_ranges]
      exact alike_ranges alike (.refl _)
    | boolean =>
      cases hmembers
      cases hfull
      exact .refl _
    | array items counts =>
      obtain ⟨emitted, hemitted, rfl⟩ := body_array.mp hmembers
      obtain ⟨written, hwritten, rfl⟩ := body_array.mp hfull
      obtain ⟨hitem, hbelow⟩ := hstands (List.mem_singleton_self _) (List.mem_singleton_self _)
        items hemitted hwritten
      rw [inKeywords_counts]
      refine alike_counts counts (.cons ⟨rfl, .refl _⟩ (.cons ⟨rfl, .of_members ?_⟩ .nil))
      exact hitem.alike (by omega)
    | object name description each =>
      obtain ⟨rendered, hrendered, rfl⟩ := body_object.mp hmembers
      obtain ⟨rendered', hrendered', rfl⟩ := body_object.mp hfull
      rw [inKeywords_object]
      refine alike_object each (List.forall₂_map_left_iff.mpr ?_)
      refine Outcome.forall₂_comp₃ (bodies_eq_ok.mp hrendered) each (bodies_eq_ok.mp hrendered') ?_
      rintro p hp q hq _ _ ⟨r, hr, rfl⟩ hpq ⟨r', hr', rfl⟩
      obtain ⟨hproperty, hbelow⟩ := hstands (Schema.mem_parts_of_mem_properties hp)
        (Schema.mem_parts_of_mem_properties hq) hpq.schema hr hr'
      exact ⟨hpq.key, alike_property hpq hproperty hbelow⟩
    | union name description each =>
      obtain ⟨rendered, hrendered, rfl⟩ := body_union hmembers
      obtain ⟨rendered', hrendered', rfl⟩ := body_union hfull
      rw [inKeywords_append, inKeywords_describe]
      refine .append (.refl _) (.cons ⟨rfl, .array (List.forall₂_map_left_iff.mpr ?_)⟩ .nil)
      refine Outcome.forall₂_comp₃ (choices_eq_ok.mp hrendered) each
        (choices_eq_ok.mp hrendered') ?_
      rintro s hs t ht _ _ ⟨r, hr, rfl⟩ hst ⟨r', hr', rfl⟩
      obtain ⟨halternative, hbelow⟩ := hstands hs ht hst hr hr'
      exact .of_members (halternative.alike (by omega))
    | ref name => cases hfull

/-! ### Whole documents -/

theorem rootName_styleFor (root : Schema) (backend : Backend) (named : NamedSchemas)
    (settings : ProjectionSettings) :
    (styleFor root backend named settings).rootName =
      if root.defines then root.name? else none := by
  cases root <;> rfl

theorem styleFor_inline (root : Schema) (backend : Backend) (named : NamedSchemas)
    (settings : ProjectionSettings) :
    styleFor root backend named { settings with useDefinitions := false } =
      (styleFor root backend named { settings with useDefinitions := true }).inline := by
  simp [styleFor, Style.inline]

/-- The names that are defined apart are names of recorded schemas. -/
theorem exists_of_mem_definitions {root : Schema} {backend : Backend} {named : NamedSchemas}
    {settings : ProjectionSettings} {name : String}
    (h : name ∈ (styleFor root backend named settings).definitions) :
    ∃ r, Entries.get? named.schemas name = some r := by
  simp only [styleFor] at h
  split at h
  · have hshared : name ∈ named.shared := (List.mem_filter.mp h).1
    have hname : name ∈ Entries.names named.schemas := (List.mem_filter.mp hshared).1
    by_contra hnone
    push Not at hnone
    exact Entries.get?_eq_none.mp (Option.eq_none_iff_forall_ne_some.mpr hnone) hname
  · cases h

/-- Definitions can be written if the schemas can, and each stands under its name. -/
theorem definitions_ok {named : NamedSchemas} {names : List String}
    (h : ∀ name ∈ names, ∃ r, Entries.get? named.schemas name = some r ∧
      ∃ members, body st r = .ok members) :
    ∃ defs, definitions st named names = .ok defs ∧
      ∀ name ∈ names, ∀ r members, Entries.get? named.schemas name = some r →
        body st r = .ok members → Entries.get? defs name = some (.object members) := by
  induction names with
  | nil => exact ⟨[], rfl, fun name hname => absurd hname List.not_mem_nil⟩
  | cons name names ih =>
    obtain ⟨r, hr, members, hmembers⟩ := h name List.mem_cons_self
    obtain ⟨defs, hdefs, hget⟩ := ih fun m hm => h m (List.mem_cons_of_mem name hm)
    refine ⟨(name, .object members) :: defs, ?_, fun m hm s full hs hfull => ?_⟩
    · simp [definitions, hr, hmembers, hdefs]
    · by_cases hname : name = m
      · subst hname
        cases hr.symm.trans hs
        cases hmembers.symm.trans hfull
        exact Entries.get?_cons_self _ _ _
      · rw [Entries.get?_cons_of_ne _ _ hname]
        exact hget m ((List.mem_cons.mp hm).resolve_left (Ne.symm hname)) s full hs hfull

theorem erase_eq_self {key : String} (h : Entries.get? members key = none) :
    Entries.erase members key = members := by
  rw [Entries.erase, List.filter_eq_self]
  intro e he
  have hnames : key ∉ Entries.names members := Entries.get?_eq_none.mp h
  simpa using fun heq : e.1 = key => hnames (heq ▸ List.mem_map_of_mem he)

theorem erase_put_eq_self {key : String} {value : Json} (h : Entries.get? members key = none) :
    Entries.erase (Entries.put members key value) key = members := by
  have herase := erase_eq_self h
  rw [Entries.put_of_not_mem _ (Entries.get?_eq_none.mp h), Entries.erase, List.filter_append]
  simpa [Entries.erase] using herase

/-- A document is that of the root, to which the definitions are added if there are any. -/
theorem render_eq_ok_iff {root : Schema} {backend : Backend} {named : NamedSchemas}
    {settings : ProjectionSettings} : render root backend named settings = .ok document ↔
      ¬ (backend == .openai && !(root matches .object _ _ _)) = true ∧
        ∃ members, body (styleFor root backend named settings) root = .ok members ∧
          if (styleFor root backend named settings).definitions.isEmpty then document = members
          else ∃ defs, definitions (styleFor root backend named settings) named
              (styleFor root backend named settings).definitions = .ok defs ∧
            document = Entries.put members "$defs" (.object defs) := by
  unfold render
  dsimp only
  split_ifs with hrefused hempty hempty
  · exact ⟨fun h => (by cases h), fun h => absurd hrefused h.1⟩
  · exact ⟨fun h => (by cases h), fun h => absurd hrefused h.1⟩
  · rw [Outcome.bind_eq_ok]
    constructor
    · rintro ⟨members, hmembers, h⟩
      exact ⟨hrefused, members, hmembers, (Except.ok.inj h).symm⟩
    · rintro ⟨-, members, hmembers, rfl⟩
      exact ⟨document, hmembers, rfl⟩
  · simp only [Outcome.bind_eq_ok]
    constructor
    · rintro ⟨members, hmembers, defs, hdefs, h⟩
      exact ⟨hrefused, members, hmembers, defs, hdefs, (Except.ok.inj h).symm⟩
    · rintro ⟨-, members, hmembers, defs, hdefs, rfl⟩
      exact ⟨members, hmembers, defs, hdefs, rfl⟩

/-- What is collected from a schema without references makes references mean what they stand for,
in a document that has the definitions of its style. -/
theorem shares_of_collect {g : SchemaGraph} {backend : Backend} {named : NamedSchemas}
    {settings : ProjectionSettings} (hroot : g.root.Unreferring)
    (hnamed : NamedSchemas.collect g = .ok named)
    (hwritten : ∀ r : Schema, r.Within g.root →
      ∃ target, body (styleFor g.root backend named settings) r = .ok target)
    (hfound : ∀ name ∈ (styleFor g.root backend named settings).definitions, ∀ r target,
      Entries.get? named.schemas name = some r →
      body (styleFor g.root backend named settings) r = .ok target →
      target? document ("#/$defs/" ++ name) = some (.object target)) :
    Shares (styleFor g.root backend named settings) g.root document where
  distinct := by
    intro t s ht hs hdefines heq
    by_cases hrootDefines : g.root.defines = true
    · rw [rootName_styleFor, if_pos hrootDefines] at heq
      exact NamedSchemas.name?_ne_root_of_collect hroot.anchored hnamed hrootDefines ht hs hdefines
        heq
    · rw [rootName_styleFor, if_neg hrootDefines] at heq
      obtain ⟨name, hname⟩ := Schema.exists_name_of_defines hdefines
      cases hname.symm.trans heq
  defined := by
    intro s name hs hdefines hname hmem
    obtain ⟨r, hr, hwithin, hsame, -⟩ :=
      NamedSchemas.exists_recorded_of_collect hroot.anchored hnamed hs hname
    obtain ⟨target, htarget⟩ := hwritten r hwithin
    exact ⟨r, target, hwithin, hsame hdefines, htarget, hfound name hmem r target hr htarget⟩

/-- A document that can be written without references can be written with them, and replacing them
gives the document without references again. -/
theorem render_shares {g : SchemaGraph} {backend : Backend} {named : NamedSchemas}
    {settings : ProjectionSettings} {inline : Members} (hbackend : backend.supportsPointers = true)
    (hnamed : NamedSchemas.collect g = .ok named)
    (h : render g.root backend named { settings with useDefinitions := false } = .ok inline) :
    ∃ document, render g.root backend named { settings with useDefinitions := true } =
        .ok document ∧
      ∀ depth, 4 * g.root.size ≤ depth →
        MembersAlike (withoutDefinitions depth document) inline := by
  set st := styleFor g.root backend named { settings with useDefinitions := true } with hst
  have hpointers : st.pointers = true := by simp [hst, styleFor, hbackend]
  obtain ⟨hobject, full, hfull, hinline⟩ := render_eq_ok_iff.mp h
  rw [styleFor_inline, ← hst] at hfull hinline
  obtain rfl : inline = full := hinline
  have hroot : g.root.Unreferring := unreferring_of_body rfl hfull
  have hwritten (r : Schema) (hr : r.Within g.root) : ∃ target, body st r = .ok target := by
    obtain ⟨inner, hinner⟩ := body_within rfl hfull hr
    exact body_ok hinner
  obtain ⟨members, hmembers⟩ := hwritten g.root (.refl g.root)
  have hnodefs : Entries.get? members "$defs" = none := get?_body_defs hmembers
  by_cases hempty : st.definitions = []
  · have hshares : Shares st g.root members := by
      refine shares_of_collect hroot hnamed hwritten fun name hname => ?_
      rw [← hst, hempty] at hname
      cases hname
    refine ⟨members, render_eq_ok_iff.mpr ⟨hobject, members, hmembers, ?_⟩, fun depth hdepth => ?_⟩
    · rw [← hst, hempty]
      rfl
    · rw [withoutDefinitions, erase_eq_self hnodefs]
      exact expands hshares hpointers g.root g.root members inline (.refl _) (Schema.same_refl _)
        hmembers hfull depth hdepth
  · have hnames : ∀ name ∈ st.definitions, ∃ r, Entries.get? named.schemas name = some r ∧
        ∃ target, body st r = .ok target := by
      intro name hname
      obtain ⟨r, hr⟩ := exists_of_mem_definitions hname
      exact ⟨r, hr, hwritten r ((NamedSchemas.recorded_of_collect hroot.anchored hnamed name r hr).1)⟩
    obtain ⟨defs, hdefs, hget⟩ := definitions_ok hnames
    have hentry := Entries.get?_put_self members "$defs" (Json.object defs)
    have hshares : Shares st g.root (Entries.put members "$defs" (.object defs)) := by
      refine shares_of_collect hroot hnamed hwritten fun name hname r target hr htarget => ?_
      rw [target?_definition name hentry]
      exact hget name hname r target hr htarget
    refine ⟨Entries.put members "$defs" (.object defs),
      render_eq_ok_iff.mpr ⟨hobject, members, hmembers, ?_⟩, fun depth hdepth => ?_⟩
    · rw [← hst, if_neg (by simpa using hempty)]
      exact ⟨defs, hdefs, rfl⟩
    · rw [withoutDefinitions, erase_put_eq_self hnodefs]
      exact expands hshares hpointers g.root g.root members inline (.refl _) (Schema.same_refl _)
        hmembers hfull depth hdepth

end Document

/-! ### Projections -/

theorem project_eq_ok_iff {g : SchemaGraph} {backend : Backend} {settings : ProjectionSettings}
    {projected : Projected} {notices : List Notice} (hbackend : backend ≠ .gbnf) :
    g.project backend settings = .ok (projected, notices) ↔ ∃ named members,
      NamedSchemas.collect g = .ok named ∧
        Document.render g.root backend named settings = .ok members ∧
          projected = .document members ∧
            notices = [.schemaProjected backend.name g.label named.schemas.length] := by
  unfold SchemaGraph.project
  simp only [if_neg hbackend, Outcome.bind_eq_ok, Outcome.map_eq_ok]
  constructor
  · rintro ⟨named, hnamed, _, ⟨members, hmembers, rfl⟩, h⟩
    cases h
    exact ⟨named, members, hnamed, hmembers, rfl, rfl⟩
  · rintro ⟨named, members, hnamed, hmembers, rfl, rfl⟩
    exact ⟨named, hnamed, _, ⟨members, hmembers, rfl⟩, rfl⟩

/-- Definitions are only sharing: where a schema can be written for a backend of JSON Schema
without definitions, it can be written with them, and replacing the references to the definitions
gives the same document. -/
theorem definitions_only_share {g : SchemaGraph} {backend : Backend}
    {settings : ProjectionSettings} {projected : Projected} {notices : List Notice}
    (hbackend : backend = .jsonSchema ∨ backend = .openai)
    (h : g.project backend { settings with useDefinitions := false } = .ok (projected, notices)) :
    ∃ inline document, projected = .document inline ∧
      g.project backend { settings with useDefinitions := true } =
        .ok (.document document, notices) ∧
      ∀ depth, 4 * g.root.size ≤ depth →
        Document.Alike (.object (Document.withoutDefinitions depth document)) (.object inline) := by
  have hgbnf : backend ≠ .gbnf := by
    rintro rfl
    rcases hbackend with h | h <;> cases h
  have hpointers : backend.supportsPointers = true := by
    rcases hbackend with rfl | rfl <;> rfl
  obtain ⟨named, inline, hnamed, hinline, rfl, rfl⟩ := (project_eq_ok_iff hgbnf).mp h
  obtain ⟨document, hdocument, halike⟩ := Document.render_shares hpointers hnamed hinline
  refine ⟨inline, document, rfl, ?_, fun depth hdepth => .of_members (halike depth hdepth)⟩
  exact (project_eq_ok_iff hgbnf).mpr ⟨named, document, hnamed, hdocument, rfl, rfl⟩

/-! ### A pair of places -/

namespace Pair

def place : Schema :=
  .object "Place" (some "Somewhere.")
    [⟨"label", .string [.length ⟨some 1, none, rfl⟩], none, false⟩]

/-- Two places, one of which may be absent. -/
def graph : SchemaGraph :=
  ⟨.object "Pair" none
    [⟨"near", place, none, false⟩, ⟨"far", place, some "The end.", true⟩], []⟩

/-- The document of a pair in which both places are written out. -/
def inline : Members :=
  match graph.project .openai ⟨false, true⟩ with
  | .ok (.document members, _) => members
  | _ => []

/-- The document of a pair in which the place is defined apart. -/
def shared : Members :=
  match graph.project .openai ⟨true, true⟩ with
  | .ok (.document members, _) => members
  | _ => []

end Pair

open Pair in
theorem definitions_only_share_pair :
    graph.project .openai ⟨false, true⟩ =
        .ok (.document inline, [.schemaProjected "openai" "Pair" 2]) ∧
      ∃ written document, Projected.document inline = .document written ∧
        graph.project .openai ⟨true, true⟩ =
          .ok (.document document, [.schemaProjected "openai" "Pair" 2]) ∧
        ∀ depth, 4 * graph.root.size ≤ depth →
          Document.Alike (.object (Document.withoutDefinitions depth document))
            (.object written) := by
  have hinline : graph.project .openai ⟨false, true⟩ =
      .ok (.document inline, [.schemaProjected "openai" "Pair" 2]) := rfl
  exact ⟨hinline, @definitions_only_share graph .openai ⟨true, true⟩ _ _ (.inr rfl) hinline⟩

/-- A place that may be absent is a reference with null besides, and its description stands beside
both. -/
example :
    Entries.get? (Document.declared Pair.shared) "far" = some (.object
      [("anyOf", .array [.object [("$ref", .string "#/$defs/Place")],
          .object [("type", .string "null")]]),
        ("description", .string "The end.")]) := rfl

end StructuredOutput

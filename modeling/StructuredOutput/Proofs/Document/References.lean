import StructuredOutput.Proofs.Document.Positions

/-!
References and definitions of a document are closed and live: a reference leads to the root or to a
definition, the one of the name of its node, and every definition is referred to. The visits that
collect names are followed to the end: each node that is visited is the root, or stands in the
document, or is what a reference that stands in the document stands for.
-/

namespace StructuredOutput

theorem SchemaGraph.Anchored.root_ne_ref {g : SchemaGraph} (hg : g.Anchored) (name : String) :
    g.root ≠ .ref name := by
  intro hroot
  obtain ⟨node, -, hwithin, hdefines, -⟩ := hg name (hroot ▸ .refl g.root)
  rw [hroot] at hwithin
  rcases hwithin.eq_or_part with rfl | ⟨part, hpart, -⟩
  · cases hdefines
  · cases hpart

namespace NamedSchemas

variable {g : SchemaGraph} {n n' : NamedSchemas} {s : Schema} {next pending : List Schema}

/-- A visit counts the name that its node defines, and no other one. -/
theorem count_visit (h : n.visit g s = .ok (n', next)) (name : String) :
    n'.count name = n.count name ∨
      n'.count name = n.count name + 1 ∧ s.defines = true ∧ s.name? = some name := by
  have hmeet {m : String} (hm : s.name? = some m) (hdefines : s.defines = true)
      (h : n.meet m s = .ok (n', next)) : n'.count name = n.count name ∨
        n'.count name = n.count name + 1 ∧ s.defines = true ∧ s.name? = some name := by
    have hoccurrences : n'.occurrences = Entries.put n.occurrences m (n.count m + 1) := by
      unfold meet at h
      dsimp only at h
      split at h
      · cases h
        rfl
      · split at h <;> cases h
        rfl
    by_cases heq : name = m
    · subst heq
      exact .inr ⟨by rw [count, hoccurrences, Entries.get?_put_self, Option.getD_some], hdefines, hm⟩
    · exact .inl (by rw [count, hoccurrences, Entries.get?_put_of_ne _ _ heq, count])
  cases s with
  | object => exact hmeet rfl rfl h
  | union => exact hmeet rfl rfl h
  | ref m =>
    rw [visit] at h
    dsimp only at h
    split at h
    · cases h
      exact .inl rfl
    · split at h <;> cases h
      exact .inl rfl
  | _ =>
    cases h
    exact .inl rfl

theorem Visits.next_subset_parts (h : Visits g n s n' next) (hs : ∀ name, s ≠ .ref name) :
    next ⊆ s.parts := by
  cases h with
  | scalar | again => exact List.nil_subset _
  | array | first => exact List.Subset.refl _
  | ref | resolve => exact absurd rfl (hs _)

/-- After a visit of what defines a name, something is recorded under the name. -/
theorem Visits.records_name (h : Visits g n s n' next) (hdefines : s.defines = true) {name : String}
    (hname : s.name? = some name) : Entries.get? n'.schemas name ≠ .none := by
  cases h with
  | scalar plain => cases plain.not_defines.symm.trans hdefines
  | array | ref | resolve => cases hdefines
  | first named _ unknown schemas =>
    cases hname.symm.trans named
    rw [schemas, Entries.get?_append, unknown, Option.none_or, Entries.get?_cons_self]
    exact Option.some_ne_none s
  | again named _ known _ schemas =>
    cases hname.symm.trans named
    rw [schemas, known]
    exact Option.some_ne_none _

/-- Visits give up nothing that is recorded or noted. -/
theorem visitAll_extends {fuel : Nat} (h : visitAll g fuel n pending = .ok n') :
    n'.Extends n ∧ n.referenced ⊆ n'.referenced := by
  induction fuel generalizing n pending with
  | zero =>
    cases h
    exact ⟨fun _ _ hr => hr, List.Subset.refl _⟩
  | succ fuel ih =>
    cases pending with
    | nil =>
      cases h
      exact ⟨fun _ _ hr => hr, List.Subset.refl _⟩
    | cons s pending =>
      obtain ⟨⟨n₁, next⟩, hvisit, hrest⟩ := Outcome.bind_eq_ok.mp h
      have hvisits : Visits g n s n₁ next := visits_of_visit hvisit
      obtain ⟨hextends, hkept⟩ := ih hrest
      exact ⟨fun name r hr => hextends name r (hvisits.extended name r hr),
        List.Subset.trans hvisits.kept hkept⟩

end NamedSchemas

namespace Document

open NamedSchemas

variable {st : Style} {g : SchemaGraph} {named n n' : NamedSchemas} {document members full : Members}
  {s part : Schema} {next rest pending : List Schema} {name : String}

/-! ### Names that are defined apart -/

/-- A style in which everything that is shared is defined apart, except for the root. -/
structure Apart (st : Style) (g : SchemaGraph) (named : NamedSchemas) : Prop where
  pointers : st.pointers = true
  rootName : st.rootName = if g.root.defines then g.root.name? else none
  definitions : ∀ name, name ∈ st.definitions ↔ name ∈ named.shared ∧ st.rootName ≠ some name

theorem apart_styleFor {backend : Backend} {settings : ProjectionSettings}
    (hbackend : backend.supportsPointers = true) (huse : settings.useDefinitions = true) :
    Apart (styleFor g.root backend named settings) g named := by
  have hpointers : (backend.supportsPointers && settings.useDefinitions) = true := by
    rw [hbackend, huse, Bool.and_self]
  refine ⟨hpointers, rootName_styleFor _ _ _ _, fun name => ?_⟩
  have hdefinitions : (styleFor g.root backend named settings).definitions = named.shared.filter
      fun name => (styleFor g.root backend named settings).rootName != some name := by
    simp only [styleFor, hpointers, if_true]
  rw [hdefinitions, List.mem_filter, bne_iff_ne]

theorem mem_shared_iff {r : Schema} (hr : Entries.get? named.schemas name = some r) :
    name ∈ named.shared ↔ 1 < named.count name ∨ name ∈ named.referenced := by
  have hname : name ∈ named.schemas.map (·.1) := List.mem_map_of_mem (Entries.mem_of_get? hr)
  rw [shared, List.mem_filter, Bool.or_eq_true, decide_eq_true_eq, List.contains_iff_mem]
  exact and_iff_right hname

/-- What is recorded under a name that is defined apart is written there. -/
theorem writtenFor_of_recorded (hdocument : IsDocument st named g.root document)
    (hrecorded : Recorded g named) (hname : name ∈ st.definitions)
    (hs : Entries.get? named.schemas name = some s) : ∃ members, body st s = .ok members ∧
      WrittenFor st g.root document members s := by
  obtain ⟨e, he, r, members, hr, hmembers, rfl⟩ :=
    Outcome.exists_mem_right (forall₂_of_definitions hdocument.definitions) hname
  obtain rfl : r = s := Option.some.inj (hr.symm.trans hs)
  obtain ⟨hwithin, hdefines, hnamed⟩ := hrecorded name r hr
  exact ⟨members, hmembers, .definition he hwithin hdefines hnamed hmembers⟩

/-! ### What is visited stands in the document -/

/-- A node stands in the document, or it is what a reference that does stands for. -/
inductive Traced (st : Style) (root : Schema) (document : Members) (n : NamedSchemas) : Schema → Prop
  | shown {s : Schema} (h : Shown st root document s) : Traced st root document n s
  | resolved {s : Schema} {name : String} (defines : s.defines = true)
      (named : s.name? = some name) (noted : name ∈ n.referenced)
      (reference : Shown st root document (.ref name)) : Traced st root document n s

/-- What holds while names are collected, once the root has been visited: all that is pending is
traced, every reference that is noted stands in the document, and so does something under every
name that has been counted twice. The root is recorded if it has a name. -/
structure Tracing (st : Style) (g : SchemaGraph) (document : Members) (n : NamedSchemas)
    (pending : List Schema) : Prop where
  pending : ∀ s ∈ pending, Traced st g.root document n s
  noted : ∀ name ∈ n.referenced, Shown st g.root document (.ref name)
  repeated : ∀ name, 1 < n.count name → ∃ s, Shown st g.root document s ∧ s.name? = some name
  root : g.root.defines = true → ∀ name, g.root.name? = some name →
    Entries.get? n.schemas name ≠ .none

theorem Traced.exists_shown (h : Traced st g.root document n s) (hname : s.name? = some name) :
    ∃ t, Shown st g.root document t ∧ t.name? = some name := by
  cases h with
  | shown hs => exact ⟨s, hs, hname⟩
  | resolved _ named _ reference =>
    cases hname.symm.trans named
    exact ⟨_, reference, rfl⟩

theorem Traced.shown_of_not_defines (h : Traced st g.root document n s) (hs : s.defines = false) :
    Shown st g.root document s := by
  cases h with
  | shown h => exact h
  | resolved defines => cases hs.symm.trans defines

theorem Traced.mono (h : Traced st g.root document n s) (hkept : n.referenced ⊆ n'.referenced) :
    Traced st g.root document n' s := by
  cases h with
  | shown h => exact .shown h
  | resolved defines named noted reference => exact .resolved defines named (hkept noted) reference

/-- The parts of a node that is visited for the first time stand in the document: they are written
where the node stands, or in the definition of its name. -/
theorem Traced.shown_of_part (hdocument : IsDocument st named g.root document)
    (hapart : Apart st g named) (hrecorded : Recorded g named)
    (h : Traced st g.root document named s) (hdefines : s.defines = true)
    (hname : s.name? = some name) (hs : Entries.get? named.schemas name = some s)
    (hroot : st.rootName ≠ some name) (hpart : part ∈ s.parts) :
    Shown st g.root document part := by
  by_cases hmem : name ∈ st.definitions
  · obtain ⟨members, hmembers, hwritten⟩ := writtenFor_of_recorded hdocument hrecorded hmem hs
    exact Document.shown_of_part hwritten hmembers (.refl members) hpart
  · cases h with
    | resolved _ hnamed noted =>
      cases hname.symm.trans hnamed
      exact absurd ((hapart.definitions name).mpr ⟨(mem_shared_iff hs).mpr (.inr noted), hroot⟩) hmem
    | shown h =>
      obtain ⟨members, full, hwritten, hemit, hagrees⟩ := h
      rw [emit_of_defines hdefines hname, if_neg (by simp [hroot, hmem])] at hemit
      exact Document.shown_of_part hwritten hemit hagrees hpart

/-- Visiting one more node keeps to what stands in the document. -/
theorem Tracing.step (hdocument : IsDocument st named g.root document)
    (hapart : Apart st g named) (hrecorded : Recorded g named) (hg : g.Anchored)
    (hvisit : n.visit g s = .ok (n', next)) (hextends : named.Extends n')
    (hkept : n'.referenced ⊆ named.referenced) (h : Tracing st g document n (s :: rest)) :
    Tracing st g document n' (next ++ rest) := by
  have hvisits : Visits g n s n' next := visits_of_visit hvisit
  have hmore : n.referenced ⊆ n'.referenced := hvisits.kept
  have hs : Traced st g.root document n s := h.pending s List.mem_cons_self
  have hnoted : ∀ name ∈ n'.referenced, Shown st g.root document (.ref name) := by
    intro name hname
    rcases mem_referenced_visit hvisit hname with hold | rfl
    · exact h.noted name hold
    · exact hs.shown_of_not_defines rfl
  have hnext : ∀ t ∈ next, Traced st g.root document n' t := by
    intro t ht
    cases hvisits with
    | scalar | again | ref => cases ht
    | array item counts =>
      obtain ⟨members, full, hwritten, hemit, hagrees⟩ := hs.shown_of_not_defines rfl
      rw [emit_of_not_defines rfl] at hemit
      exact .shown (Document.shown_of_part hwritten hemit hagrees ht)
    | @first _ _ name hnamed defines unknown schemas =>
      have hget : Entries.get? n'.schemas name = some s := by
        rw [schemas, Entries.get?_append, unknown, Option.none_or, Entries.get?_cons_self]
      have hroot : st.rootName ≠ some name := by
        intro heq
        rw [hapart.rootName] at heq
        split at heq
        · next hrootDefines => exact h.root hrootDefines name heq unknown
        · cases heq
      exact .shown (((hs.mono hmore).mono hkept).shown_of_part hdocument hapart hrecorded
        defines hnamed (hextends name s hget) hroot ht)
    | @resolve _ name node unknown resolved schemas kept added =>
      obtain rfl := List.mem_singleton.mp ht
      have hshown := hs.shown_of_not_defines rfl
      obtain ⟨members, full, hwritten, -⟩ := hshown
      obtain ⟨node, hnode, -, hdefines, hname⟩ := hg name (hwritten.shows hdocument hg.root_ne_ref).1
      obtain rfl := Option.some.inj (resolved.symm.trans hnode)
      exact .resolved hdefines hname added (hs.shown_of_not_defines rfl)
  refine ⟨?_, hnoted, ?_, ?_⟩
  · intro t ht
    rcases List.mem_append.mp ht with ht | ht
    · exact hnext t ht
    · exact (h.pending t (List.mem_cons_of_mem s ht)).mono hmore
  · intro name hcount
    rcases count_visit hvisit name with heq | ⟨-, -, hname⟩
    · exact h.repeated name (heq ▸ hcount)
    · exact hs.exists_shown hname
  · intro hdefines name hname hnone
    cases hget : Entries.get? n.schemas name with
    | none => exact h.root hdefines name hname hget
    | some r => cases (hvisits.extended name r hget).symm.trans hnone

/-- After the root has been visited, what is pending are its parts, which stand in the document. -/
theorem tracing_of_visit_root (hdocument : IsDocument st named g.root document) (hg : g.Anchored)
    (hvisit : NamedSchemas.none.visit g g.root = .ok (n, next)) : Tracing st g document n next := by
  have hvisits : Visits g .none g.root n next := visits_of_visit hvisit
  obtain ⟨members, hmembers, hagrees⟩ := hdocument.whole
  have hparts (part : Schema) (hpart : part ∈ g.root.parts) : Traced st g.root document n part :=
    .shown (Document.shown_of_part .root hmembers hagrees hpart)
  refine ⟨fun s hs => hparts s (hvisits.next_subset_parts hg.root_ne_ref hs), ?_, ?_, ?_⟩
  · intro name hname
    rcases mem_referenced_visit hvisit hname with hold | hroot
    · cases hold
    · exact absurd hroot (hg.root_ne_ref name)
  · intro name hcount
    have hnone : NamedSchemas.none.count name = 0 := rfl
    rcases count_visit hvisit name with heq | ⟨heq, -⟩ <;> omega
  · exact fun hdefines name hname => hvisits.records_name hdefines hname

theorem Tracing.run (hdocument : IsDocument st named g.root document) (hapart : Apart st g named)
    (hrecorded : Recorded g named) (hg : g.Anchored) {fuel : Nat}
    (h : visitAll g fuel n pending = .ok named) (hn : Tracing st g document n pending) :
    ∃ rest, Tracing st g document named rest := by
  induction fuel generalizing n pending with
  | zero =>
    cases h
    exact ⟨pending, hn⟩
  | succ fuel ih =>
    cases pending with
    | nil =>
      cases h
      exact ⟨[], hn⟩
    | cons s pending =>
      obtain ⟨⟨n₁, next⟩, hvisit, hrest⟩ := Outcome.bind_eq_ok.mp h
      obtain ⟨hextends, hkept⟩ := visitAll_extends hrest
      exact ih hrest (hn.step hdocument hapart hrecorded hg hvisit hextends hkept)

/-- Something stands in the document under every name that is defined apart. -/
theorem exists_shown_of_mem_definitions (hdocument : IsDocument st named g.root document)
    (hapart : Apart st g named) (hg : g.Anchored) (hnamed : collect g = .ok named)
    (hname : name ∈ st.definitions) : ∃ s, Shown st g.root document s ∧ s.name? = some name := by
  have hrecorded := recorded_of_collect hg hnamed
  obtain ⟨⟨n, next⟩, hvisit, hrest⟩ := Outcome.bind_eq_ok.mp hnamed
  change visitAll g (2 * g.size + 1) n (next ++ []) = .ok named at hrest
  rw [List.append_nil] at hrest
  obtain ⟨rest, htracing⟩ := (tracing_of_visit_root hdocument hg hvisit).run hdocument hapart
    hrecorded hg hrest
  have hshared := ((hapart.definitions name).mp hname).1
  obtain ⟨e, -, r, members, hr, -⟩ :=
    Outcome.exists_mem_right (forall₂_of_definitions hdocument.definitions) hname
  rcases (mem_shared_iff hr).mp hshared with hcount | hnoted
  · exact htracing.repeated name hcount
  · exact ⟨.ref name, htracing.noted name hnoted, rfl⟩

/-- What is shown for a node whose name is defined apart is a reference to the definition. -/
theorem get?_ref_of_shown (hapart : Apart st g named) (hname : s.name? = some name)
    (hmem : name ∈ st.definitions) (hemit : emit st s = .ok full) (hagrees : Agrees members full) :
    Entries.get? members "$ref" = some (.string ("#/$defs/" ++ name)) := by
  have hroot := ((hapart.definitions name).mp hmem).2
  have hpointer : full = st.pointer name := by
    by_cases hdefines : s.defines = true
    · rw [emit_of_defines hdefines hname, hapart.pointers, if_pos (by simp [hmem])] at hemit
      exact (Except.ok.inj hemit).symm
    · cases s with
      | ref m =>
        cases hname
        rw [emit_of_not_defines rfl, body, if_pos hapart.pointers] at hemit
        exact (Except.ok.inj hemit).symm
      | object | union => exact absurd rfl hdefines
      | _ => cases hname
  rw [hagrees "$ref" (by decide), hpointer, Style.pointer, if_neg hroot]
  rfl

/-! ### Closed and live -/

/-- The references and the definitions of a document match: a reference stands where something is
written for a node of the schema, and leads to the root or to the definition of the name of that
node; the definition of a name is written for a node of the name, to which all others of the name
are equal; and every definition is referred to. There are no empty definitions, and none for the
root. -/
structure ClosedAndLive (st : Style) (root : Schema) (document : Members) : Prop where
  paired : ∀ members j, Subschema document members → Entries.get? members "$ref" = some j →
    ∃ s, WrittenFor st root document members s
  closed : ∀ members s j, WrittenFor st root document members s →
    Entries.get? members "$ref" = some j → ∃ name, s.name? = some name ∧
      (j = .string "#" ∧ root.defines = true ∧ root.name? = some name ∨
        j = .string ("#/$defs/" ++ name) ∧ name ∈ Entries.names (definitionsOf document))
  defined : ∀ name j, (name, j) ∈ definitionsOf document → ∃ r members, r.Within root ∧
    r.defines = true ∧ r.name? = some name ∧ body st r = .ok members ∧ j = .object members ∧
      ∀ s : Schema, s.Within root → s.defines = true → s.name? = some name → r.same s = true
  live : ∀ name ∈ Entries.names (definitionsOf document), ∃ members, Subschema document members ∧
    Entries.get? members "$ref" = some (.string ("#/$defs/" ++ name))
  nonempty : ∀ j, Entries.get? document "$defs" = some j →
    ∃ e rest, j = .object (e :: rest) ∧ definitionsOf document = e :: rest
  rootless : root.defines = true → ∀ name, root.name? = some name →
    name ∉ Entries.names (definitionsOf document)

theorem names_of_definitions {names : List String} {defs : Members}
    (h : definitions st named names = .ok defs) : Entries.names defs = names := by
  have hall := forall₂_of_definitions h
  clear h
  induction hall with
  | nil => rfl
  | cons he _ ih =>
    obtain ⟨r, members, -, -, rfl⟩ := he
    rw [Entries.names_cons, ih]

theorem names_definitionsOf (hdocument : IsDocument st named g.root document) :
    Entries.names (definitionsOf document) = st.definitions :=
  names_of_definitions hdocument.definitions

theorem closedAndLive (hdocument : IsDocument st named g.root document)
    (hapart : Apart st g named) (hg : g.Anchored) (hnamed : collect g = .ok named) :
    ClosedAndLive st g.root document where
  paired members j h href :=
    exists_writtenFor hdocument hg.root_ne_ref (recorded_of_collect hg hnamed) h href
  closed := by
    intro members s j h href
    obtain ⟨hwithin, hshows⟩ := h.shows hdocument hg.root_ne_ref
    obtain ⟨name, hname, hreferable, rfl⟩ := hshows.reference href
    refine ⟨name, hname, ?_⟩
    by_cases hroot : st.rootName = some name
    · rw [if_pos hroot]
      rw [hapart.rootName] at hroot
      split at hroot
      · next hdefines => exact .inl ⟨rfl, hdefines, hroot⟩
      · cases hroot
    · rw [if_neg hroot, names_definitionsOf hdocument]
      refine .inr ⟨rfl, ?_⟩
      by_cases hdefines : s.defines = true
      · exact (hreferable hdefines).resolve_left hroot
      · obtain ⟨r, hr, -, -, hnoted⟩ := exists_recorded_of_collect hg hnamed hwithin hname
        have hshared := (mem_shared_iff hr).mpr
          (.inr (hnoted (Bool.eq_false_of_not_eq_true hdefines)))
        exact (hapart.definitions name).mpr ⟨hshared, hroot⟩
  defined := by
    intro name j hj
    obtain ⟨m, -, r, members, hr, hmembers, heq⟩ :=
      Outcome.exists_mem_left (forall₂_of_definitions hdocument.definitions) hj
    cases heq
    obtain ⟨hwithin, hdefines, hname⟩ := recorded_of_collect hg hnamed _ r hr
    refine ⟨r, members, hwithin, hdefines, hname, hmembers, rfl, fun s hs hdefines' hname' => ?_⟩
    obtain ⟨r', hr', -, hsame, -⟩ := exists_recorded_of_collect hg hnamed hs hname'
    obtain rfl : r = r' := Option.some.inj (hr.symm.trans hr')
    exact hsame hdefines'
  live := by
    intro name hname
    rw [names_definitionsOf hdocument] at hname
    obtain ⟨s, ⟨members, full, hwritten, hemit, hagrees⟩, hs⟩ :=
      exists_shown_of_mem_definitions hdocument hapart hg hnamed hname
    exact ⟨members, hwritten.subschema, get?_ref_of_shown hapart hs hname hemit hagrees⟩
  nonempty := by
    intro j hj
    by_cases hempty : st.definitions = []
    · cases (hdocument.absent hempty).symm.trans hj
    · cases (hdocument.present hempty).symm.trans hj
      obtain ⟨e, rest, heq⟩ : ∃ e rest, definitionsOf document = e :: rest := by
        cases hdefs : definitionsOf document with
        | nil =>
          have hnames := names_definitionsOf hdocument
          rw [hdefs] at hnames
          exact absurd hnames.symm hempty
        | cons e rest => exact ⟨e, rest, rfl⟩
      exact ⟨e, rest, congrArg Json.object heq, heq⟩
  rootless := by
    intro hdefines name hname hmem
    rw [names_definitionsOf hdocument, hapart.definitions, hapart.rootName, if_pos hdefines] at hmem
    exact hmem.2 hname

end Document

/-- Where a schema is written for a backend of JSON Schema with definitions, and references in it
resolve to what defines their name in the schema, references and definitions of the document match. -/
theorem definitions_closed_and_live {g : SchemaGraph} {backend : Backend}
    {settings : ProjectionSettings} {projected : Projected} {notices : List Notice}
    (hbackend : backend = .jsonSchema ∨ backend = .openai) (hg : g.Anchored)
    (huse : settings.useDefinitions = true)
    (h : g.project backend settings = .ok (projected, notices)) :
    ∃ named document, NamedSchemas.collect g = .ok named ∧ projected = .document document ∧
      Document.ClosedAndLive (Document.styleFor g.root backend named settings) g.root document := by
  have hgbnf : backend ≠ .gbnf := by
    rintro rfl
    rcases hbackend with h | h <;> cases h
  have hpointers : backend.supportsPointers = true := by
    rcases hbackend with rfl | rfl <;> rfl
  obtain ⟨named, document, hnamed, hdocument, rfl, -⟩ := (project_eq_ok_iff hgbnf).mp h
  exact ⟨named, document, hnamed, rfl, Document.closedAndLive
    (Document.isDocument_of_render hdocument) (Document.apart_styleFor hpointers huse) hg hnamed⟩

/-! ### A chain of links -/

namespace Chain

/-- A link knows the whole chain and perhaps the link after it. -/
def link : Schema :=
  .object "Link" none
    [⟨"chain", .ref "Chain", none, false⟩, ⟨"next", .ref "Link", some "The one after.", true⟩]

def root : Schema := .object "Chain" none [⟨"first", link, none, true⟩]

def graph : SchemaGraph := ⟨root, [("Chain", root), ("Link", link)]⟩

theorem anchored : graph.Anchored := by
  intro name h
  have hlink : link.Within root := ⟨[0], rfl⟩
  rcases h.eq_or_part with heq | ⟨part, hpart, h⟩
  · cases heq
  obtain rfl : part = link := List.mem_singleton.mp hpart
  rcases h.eq_or_part with heq | ⟨part, hpart, h⟩
  · cases heq
  rcases List.mem_cons.mp hpart with rfl | hpart
  · rcases h.eq_or_part with heq | ⟨part, hpart, -⟩
    · cases heq
      exact ⟨root, rfl, .refl root, rfl, rfl⟩
    · cases hpart
  · obtain rfl : part = .ref "Link" := List.mem_singleton.mp hpart
    rcases h.eq_or_part with heq | ⟨part, hpart, -⟩
    · cases heq
      exact ⟨link, rfl, hlink, rfl, rfl⟩
    · cases hpart

/-- The document of a chain: a link is defined apart. -/
def document : Members :=
  match graph.project .openai ⟨true, true⟩ with
  | .ok (.document members, _) => members
  | _ => []

end Chain

open Chain in
theorem definitions_closed_and_live_chain :
    graph.Anchored ∧
      graph.project .openai ⟨true, true⟩ =
        .ok (.document document, [.schemaProjected "openai" "Chain" 2]) ∧
      ∃ named written, NamedSchemas.collect graph = .ok named ∧
        Projected.document document = .document written ∧
        Document.ClosedAndLive (Document.styleFor graph.root .openai named ⟨true, true⟩) graph.root
          written := by
  have hproject : graph.project .openai ⟨true, true⟩ =
      .ok (.document document, [.schemaProjected "openai" "Chain" 2]) := rfl
  exact ⟨anchored, hproject, definitions_closed_and_live (.inr rfl) anchored rfl hproject⟩

/-- The definition of a link refers to the whole document and to itself, with null besides. -/
example :
    Document.declared ((Document.definitionsOf Chain.document).flatMap fun e =>
      match e.2 with
      | .object members => members
      | _ => []) =
      [("chain", .object [("$ref", .string "#")]),
        ("next", .object
          [("anyOf", .array [.object [("$ref", .string "#/$defs/Link")],
              .object [("type", .string "null")]]),
            ("description", .string "The one after.")])] := rfl

end StructuredOutput

import StructuredOutput.Proofs.Document.References
import StructuredOutput.Proofs.Grammar.Language
import StructuredOutput.Proofs.Grammar.Unsayable

/-!
Why a schema cannot be written for a backend, and that it can be written otherwise. What is met
twice is written once, but then an equal node is written, and what cannot be written of a node can
be written of no node that equals it.
-/

namespace StructuredOutput

variable {g : SchemaGraph} {named : NamedSchemas} {backend : Backend}
  {settings : ProjectionSettings} {fault : ProjectionFault}

/-- A schema cannot be written for a backend, and the fault tells why. -/
inductive SchemaGraph.Unprojectable (g : SchemaGraph) (backend : Backend)
    (settings : ProjectionSettings) : ProjectionFault → Prop
  | clash {name : String} (clashes : g.Clashes name) :
      Unprojectable g backend settings (.sharedName name)
  | empty {name : String} {description : Option String}
      (reached : g.Reaches (.union name description [])) :
      Unprojectable g backend settings (.emptyUnion name)
  | root (openai : backend = .openai)
      (other : ∀ name description properties, g.root ≠ .object name description properties) :
      Unprojectable g backend settings (.rootNotObject g.root.kindName)
  | recursive {name : String} (inline : backend = .gemini ∨
        (backend = .jsonSchema ∨ backend = .openai) ∧ settings.useDefinitions = false)
      (occurs : (Schema.ref name).Within g.root) :
      Unprojectable g backend settings (.recursive name)
  | unsayable {s : Schema} {fault : ProjectionFault} (gbnf : backend = .gbnf)
      (reached : g.Reaches s) (unsayable : s.Unsayable fault) : Unprojectable g backend settings fault

namespace Document

variable {st : Style} {s t : Schema} {members document : Members}

/-! ### Documents that cannot be written -/

/-- A fault in writing a document tells of a node in the schema. -/
inductive Blamed (st : Style) (s : Schema) : ProjectionFault → Prop
  | empty {name : String} {description : Option String}
      (within : (Schema.union name description []).Within s) : Blamed st s (.emptyUnion name)
  | recursive {name : String} (inline : st.pointers = false)
      (within : (Schema.ref name).Within s) : Blamed st s (.recursive name)

theorem Blamed.within (h : Blamed st s fault) (hs : s.Within t) : Blamed st t fault := by
  cases h with
  | empty within => exact .empty (within.trans hs)
  | recursive inline within => exact .recursive inline (within.trans hs)

theorem body_eq_error_of_emit (h : emit st s = .error fault) : body st s = .error fault := by
  by_cases hdefines : s.defines = true
  · obtain ⟨name, hname⟩ := Schema.exists_name_of_defines hdefines
    rw [emit_of_defines hdefines hname] at h
    split at h
    · cases h
    · exact h
  · exact (emit_of_not_defines (Bool.eq_false_of_not_eq_true hdefines)).symm.trans h

theorem emit_eq_error_of_bodies {properties : List (Property Schema)}
    (h : bodies st properties = .error fault) :
    ∃ p ∈ properties, emit st p.schema = .error fault := by
  induction properties with
  | nil => cases h
  | cons p properties ih =>
    rw [bodies_cons] at h
    rcases Outcome.bind_eq_error.mp h with h | ⟨r, -, h⟩
    · exact ⟨p, List.mem_cons_self, h⟩
    rcases Outcome.bind_eq_error.mp h with h | ⟨rest, -, h⟩
    · obtain ⟨q, hq, herror⟩ := ih h
      exact ⟨q, List.mem_cons_of_mem p hq, herror⟩
    · cases h

theorem emit_eq_error_of_choices {alternatives : List Schema}
    (h : choices st alternatives = .error fault) :
    ∃ s ∈ alternatives, emit st s = .error fault := by
  induction alternatives with
  | nil => cases h
  | cons s alternatives ih =>
    rw [choices_cons] at h
    rcases Outcome.bind_eq_error.mp h with h | ⟨r, -, h⟩
    · exact ⟨s, List.mem_cons_self, h⟩
    rcases Outcome.bind_eq_error.mp h with h | ⟨rest, -, h⟩
    · obtain ⟨t, ht, herror⟩ := ih h
      exact ⟨t, List.mem_cons_of_mem s ht, herror⟩
    · cases h

theorem blamed_of_body (h : body st s = .error fault) : Blamed st s fault := by
  induction s using Schema.parts_induction with
  | h s ih =>
    have hpart {part : Schema} (hmem : part ∈ s.parts) (herror : emit st part = .error fault) :
        Blamed st s fault :=
      (ih part hmem (body_eq_error_of_emit herror)).within
        (Schema.Within.of_part (Schema.Within.refl part) hmem)
    cases s with
    | array item counts =>
      rw [body_array_eq] at h
      rcases Outcome.bind_eq_error.mp h with h | ⟨r, -, h⟩
      · exact hpart (List.mem_singleton_self item) h
      · cases h
    | object name description properties =>
      rw [body, Outcome.map_eq_error] at h
      obtain ⟨p, hp, herror⟩ := emit_eq_error_of_bodies h
      exact hpart (Schema.mem_parts_of_mem_properties hp) herror
    | union name description alternatives =>
      rw [body] at h
      split at h
      · next hempty =>
        obtain rfl := List.isEmpty_iff.mp hempty
        cases h
        exact .empty (.refl _)
      rcases Outcome.bind_eq_error.mp h with h | ⟨r, -, h⟩
      · obtain ⟨t, ht, herror⟩ := emit_eq_error_of_choices h
        exact hpart ht herror
      · cases h
    | ref name =>
      rw [body] at h
      split at h
      · cases h
      · next hinline =>
        cases h
        exact .recursive (Bool.eq_false_of_not_eq_true hinline) (.refl _)
    | _ => cases h

theorem blamed_of_definitions {root : Schema} {names : List String}
    (hnames : ∀ name ∈ names, ∃ r, Entries.get? named.schemas name = some r ∧ r.Within root)
    (h : definitions st named names = .error fault) : Blamed st root fault := by
  induction names with
  | nil => cases h
  | cons name names ih =>
    obtain ⟨⟨r, hr, hwithin⟩, hrest⟩ := List.forall_mem_cons.mp hnames
    rw [definitions, hr] at h
    rcases Outcome.bind_eq_error.mp h with h | ⟨members, -, h⟩
    · exact (blamed_of_body h).within hwithin
    rcases Outcome.bind_eq_error.mp h with h | ⟨rest, -, h⟩
    · exact ih hrest h
    · cases h

/-! ### Documents that are written -/

/-- What stands for a node is its own document, or that of an equal node stands elsewhere. -/
theorem exists_same_body (hg : g.Anchored) (hnamed : NamedSchemas.collect g = .ok named)
    (h : render g.root backend named settings = .ok document) (hs : s.Within g.root)
    (hemit : ∃ full, emit (styleFor g.root backend named settings) s = .ok full) :
    ∃ t, t.Within g.root ∧ t.same s = true ∧
      ∃ full, body (styleFor g.root backend named settings) t = .ok full := by
  obtain ⟨full, hfull⟩ := hemit
  have hdocument := isDocument_of_render h
  by_cases hdefines : s.defines = true
  swap
  · rw [emit_of_not_defines (Bool.eq_false_of_not_eq_true hdefines)] at hfull
    exact ⟨s, hs, s.same_refl, full, hfull⟩
  obtain ⟨name, hname⟩ := Schema.exists_name_of_defines hdefines
  rw [emit_of_defines hdefines hname] at hfull
  split at hfull
  swap
  · exact ⟨s, hs, s.same_refl, full, hfull⟩
  next hapart =>
  simp only [Bool.and_eq_true, Bool.or_eq_true, beq_iff_eq, List.contains_iff_mem] at hapart
  rcases hapart.2 with hroot | hmem
  · rw [rootName_styleFor] at hroot
    split at hroot
    · next hrootDefines =>
      obtain ⟨members, hmembers, -⟩ := hdocument.whole
      exact ⟨g.root, .refl g.root, NamedSchemas.same_of_collect hg hnamed (.refl g.root) hs
        hrootDefines hdefines hroot hname, members, hmembers⟩
    · cases hroot
  · obtain ⟨-, -, r, members, hr, hmembers, -⟩ :=
      Outcome.exists_mem_right (forall₂_of_definitions hdocument.definitions) hmem
    obtain ⟨r', hr', hwithin, hsame, -⟩ :=
      NamedSchemas.exists_recorded_of_collect hg hnamed hs hname
    obtain rfl := Option.some.inj (hr.symm.trans hr')
    exact ⟨r, hwithin, hsame hdefines, members, hmembers⟩

/-- In a document there is something written for every node, or for a node that equals it. -/
theorem exists_body_of_render (hg : g.Anchored) (hnamed : NamedSchemas.collect g = .ok named)
    (h : render g.root backend named settings = .ok document) (hs : s.Within g.root) :
    ∃ t, t.Within g.root ∧ t.same s = true ∧
      ∃ full, body (styleFor g.root backend named settings) t = .ok full := by
  obtain ⟨members, hmembers, -⟩ := (isDocument_of_render h).whole
  refine @Schema.exists_same_of_walk _ _
    (fun s => ∃ full, emit (styleFor g.root backend named settings) s = .ok full) _
    (emit_ok hmembers) (fun s hs hemit => ?_) hs
  obtain ⟨t, ht, hsame, full, hfull⟩ := exists_same_body hg hnamed h hs hemit
  exact ⟨t, ht, hsame, ⟨full, hfull⟩, fun part hpart => emit_part hfull hpart⟩

/-! ### Whole documents -/

/-- Documents for gemini have no references, and the others have none if definitions are switched
off. -/
theorem pointers_eq_false {root : Schema} (hbackend : backend ≠ .gbnf) :
    (styleFor root backend named settings).pointers = false ↔ backend = .gemini ∨
      (backend = .jsonSchema ∨ backend = .openai) ∧ settings.useDefinitions = false := by
  cases backend with
  | gbnf => exact absurd rfl hbackend
  | _ => simp [styleFor, Backend.supportsPointers]

theorem unprojectable_of_render (hg : g.Anchored) (hnamed : NamedSchemas.collect g = .ok named)
    (hbackend : backend ≠ .gbnf) (h : render g.root backend named settings = .error fault) :
    g.Unprojectable backend settings fault := by
  have hblamed (hfault : Blamed (styleFor g.root backend named settings) g.root fault) :
      g.Unprojectable backend settings fault := by
    cases hfault with
    | empty within => exact .empty (.within .root within)
    | recursive inline within => exact .recursive ((pointers_eq_false hbackend).mp inline) within
  unfold render at h
  dsimp only at h
  split_ifs at h with hrefused
  · cases h
    simp only [Bool.and_eq_true, beq_iff_eq] at hrefused
    refine .root hrefused.1 fun name description properties hroot => ?_
    simp [hroot] at hrefused
  · rcases Outcome.bind_eq_error.mp h with h | ⟨members, -, h⟩
    · exact hblamed (blamed_of_body h)
    · cases h
  · rcases Outcome.bind_eq_error.mp h with h | ⟨members, -, h⟩
    · exact hblamed (blamed_of_body h)
    rcases Outcome.bind_eq_error.mp h with h | ⟨defs, -, h⟩
    · refine hblamed (blamed_of_definitions (fun name hname => ?_) h)
      obtain ⟨r, hr⟩ := exists_of_mem_definitions hname
      exact ⟨r, hr, (NamedSchemas.recorded_of_collect hg hnamed name r hr).1⟩
    · cases h

theorem not_unprojectable_of_render (hg : g.Anchored)
    (hnamed : NamedSchemas.collect g = .ok named) (hbackend : backend ≠ .gbnf)
    (h : render g.root backend named settings = .ok document) :
    ¬ g.Unprojectable backend settings fault := by
  obtain ⟨hroot, members, hmembers, -⟩ := render_eq_ok_iff.mp h
  rintro (@⟨name, hclashes⟩ | hempty | ⟨rfl, hother⟩ | ⟨hinline, hoccurs⟩ | ⟨hgbnf, -, -⟩)
  · exact NamedSchemas.not_clashes_of_collect hg hnamed name hclashes
  · -- Something is written for an equal node, which is without alternatives as well.
    obtain ⟨t, -, hsame, full, hfull⟩ :=
      exists_body_of_render hg hnamed h (hg.reaches_iff_within.mp hempty)
    cases Schema.same_iff.mp hsame with
    | union _ _ each =>
      cases each
      cases hfull
  · cases hobject : g.root with
    | object name description properties => exact hother name description properties hobject
    | _ => simp [hobject] at hroot
  · exact unreferring_of_body ((pointers_eq_false hbackend).mpr hinline) hmembers _ hoccurs
  · exact hbackend hgbnf

end Document

/-! ### Grammars -/

namespace Grammar

theorem unprojectable_of_rulesOf (hg : g.Anchored) (hnamed : NamedSchemas.collect g = .ok named)
    (h : rulesOf g named = .error fault) : g.Unprojectable .gbnf settings fault := by
  cases blamed_of_rulesOf hg hnamed h with
  | unsayable within unsayable => exact .unsayable rfl (.within .root within) unsayable
  | empty within => exact .empty (.within .root within)

theorem not_unprojectable_of_rulesOf {rules : List Rule} (hg : g.Anchored)
    (hnamed : NamedSchemas.collect g = .ok named) (h : rulesOf g named = .ok rules) :
    ¬ g.Unprojectable .gbnf settings fault := by
  have hfine (fault : ProjectionFault) : ¬ Blamed g fault := not_blamed_of_rulesOf hg hnamed h
  rintro (@⟨name, hclashes⟩ | hempty | ⟨hopenai, -⟩ | ⟨hinline, -⟩ | ⟨-, hreached, hunsayable⟩)
  · exact NamedSchemas.not_clashes_of_collect hg hnamed name hclashes
  · exact hfine _ (.empty (hg.reaches_iff_within.mp hempty))
  · cases hopenai
  · rcases hinline with hgemini | ⟨hpointers | hpointers, -⟩
    · cases hgemini
    · cases hpointers
    · cases hpointers
  · exact hfine fault (.unsayable (hg.reaches_iff_within.mp hreached) hunsayable)

end Grammar

/-! ### All backends -/

theorem SchemaGraph.unprojectable_of_project (hg : g.Anchored)
    (h : g.project backend settings = .error fault) : g.Unprojectable backend settings fault := by
  rcases Outcome.bind_eq_error.mp h with h | ⟨named, hnamed, h⟩
  · obtain ⟨name, hclashes, rfl⟩ := NamedSchemas.clashes_of_collect hg h
    exact .clash hclashes
  dsimp only at h
  split_ifs at h with hbackend
  · subst hbackend
    rcases Outcome.bind_eq_error.mp h with h | ⟨projected, -, h⟩
    · exact Grammar.unprojectable_of_rulesOf hg hnamed (Outcome.map_eq_error.mp h)
    · cases h
  · rcases Outcome.bind_eq_error.mp h with h | ⟨projected, -, h⟩
    · exact Document.unprojectable_of_render hg hnamed hbackend (Outcome.map_eq_error.mp h)
    · cases h

theorem SchemaGraph.not_unprojectable_of_project {projected : Projected} {notices : List Notice}
    (hg : g.Anchored) (h : g.project backend settings = .ok (projected, notices)) :
    ¬ g.Unprojectable backend settings fault := by
  by_cases hbackend : backend = .gbnf
  · subst hbackend
    obtain ⟨named, hnamed, h⟩ := Outcome.bind_eq_ok.mp h
    rw [if_pos rfl] at h
    obtain ⟨projected, hprojected, -⟩ := Outcome.bind_eq_ok.mp h
    obtain ⟨rules, hrules, -⟩ := Outcome.map_eq_ok.mp hprojected
    exact Grammar.not_unprojectable_of_rulesOf hg hnamed hrules
  · obtain ⟨named, document, hnamed, hdocument, -⟩ := (project_eq_ok_iff hbackend).mp h
    exact Document.not_unprojectable_of_render hg hnamed hbackend hdocument

/-- Where references resolve to what defines their names in the schema, a schema cannot be written
for a backend exactly if there is a reason not to, and the fault that is reported is such a reason:
no reference is ever found to stand for nothing. -/
theorem project_fails_iff_unprojectable (hg : g.Anchored) :
    ((∃ fault, g.project backend settings = .error fault) ↔
        ∃ fault, g.Unprojectable backend settings fault) ∧
      ∀ fault, g.project backend settings = .error fault →
        g.Unprojectable backend settings fault ∧ ∀ name, fault ≠ .dangling name := by
  have hreason (fault : ProjectionFault) (h : g.project backend settings = .error fault) :
      g.Unprojectable backend settings fault := g.unprojectable_of_project hg h
  refine ⟨⟨fun ⟨fault, h⟩ => ⟨fault, hreason fault h⟩, fun ⟨fault, hfault⟩ => ?_⟩,
    fun fault h => ⟨hreason fault h, ?_⟩⟩
  · cases hproject : g.project backend settings with
    | error first => exact ⟨first, rfl⟩
    | ok result => exact absurd hfault (g.not_unprojectable_of_project hg hproject)
  · rintro name rfl
    cases hreason _ h with
    | unsayable _ _ unsayable => cases unsayable

open Chain in
theorem project_fails_iff_unprojectable_chain :
    graph.Anchored ∧ graph.project .gemini .standard = .error (.recursive "Chain") ∧
      ((∃ fault, graph.project .gemini .standard = .error fault) ↔
        ∃ fault, graph.Unprojectable .gemini .standard fault) ∧
      ∀ fault, graph.project .gemini .standard = .error fault →
        graph.Unprojectable .gemini .standard fault ∧ ∀ name, fault ≠ .dangling name :=
  ⟨anchored, rfl, project_fails_iff_unprojectable anchored⟩

end StructuredOutput

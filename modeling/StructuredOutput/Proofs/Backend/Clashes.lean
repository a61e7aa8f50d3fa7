import StructuredOutput.Proofs.Backend.Visits
import StructuredOutput.Proofs.Schema.Arrangement

/-!
When the named schemas of a schema can be collected: unless two that differ have the same name. What
is collected is complete if no node differs from the one that a reference to its name stands for.
Otherwise it depends on the order in which nodes are visited whether the clash is found, since
references are not followed any more once their names are known.
-/

namespace StructuredOutput

namespace NamedSchemas

variable {g : SchemaGraph} {n n' : NamedSchemas} {s t : Schema} {pending : List Schema}
  {fault : ProjectionFault} {name : String}

/-! ### Failures -/

theorem clashes_of_meet (hn : Met g n) (hs : g.Reaches s) (hdefines : s.defines = true)
    (hname : s.name? = some name) (h : n.meet name s = .error fault) :
    g.Clashes name ∧ fault = .sharedName name := by
  unfold meet at h
  dsimp only at h
  split at h
  · cases h
  next known hknown =>
  split at h
  · cases h
  next hdiffer =>
  cases h
  obtain ⟨hreached, hdefines', hname'⟩ := hn.schemas name known hknown
  exact ⟨.intro hreached hs hdefines' hdefines hname' hname
    (Bool.eq_false_of_not_eq_true hdiffer), rfl⟩

theorem clashes_of_visit (hg : g.Resolving) (hn : Met g n) (hs : g.Reaches s)
    (h : n.visit g s = .error fault) : ∃ name, g.Clashes name ∧ fault = .sharedName name := by
  cases s with
  | object name => exact ⟨name, clashes_of_meet hn hs rfl rfl h⟩
  | union name => exact ⟨name, clashes_of_meet hn hs rfl rfl h⟩
  | ref name =>
    obtain ⟨node, hnode, -⟩ := hg name hs
    rw [visit] at h
    dsimp only at h
    split at h
    · cases h
    · rw [hnode] at h
      cases h
  | _ => cases h

theorem Ends.clashes {result : Except ProjectionFault NamedSchemas} (h : Ends g n pending result)
    (hg : g.Resolving) (hn : Met g n) (hpending : ∀ s ∈ pending, g.Reaches s)
    (hresult : result = .error fault) : ∃ name, g.Clashes name ∧ fault = .sharedName name := by
  induction h with
  | done => cases hresult
  | failed visit =>
    cases hresult
    exact clashes_of_visit hg hn (hpending _ List.mem_cons_self) visit
  | visited visit _ ih =>
    have hs := hpending _ List.mem_cons_self
    refine ih (hn.visit hs visit) (List.forall_mem_append.mpr ⟨?_, ?_⟩) hresult
    · exact (visits_of_visit visit).next_reached hs
    · exact fun t ht => hpending t (List.mem_cons_of_mem _ ht)

/-- The named schemas of a schema fail to be collected because of a clash only. -/
theorem clashes_of_resolving (hg : g.Resolving) (h : collect g = .error fault) :
    ∃ name, g.Clashes name ∧ fault = .sharedName name :=
  (visitAll_root_ends hg (Nat.le_refl _)).clashes hg (met_none g)
    (fun _ hs => List.mem_singleton.mp hs ▸ .root) h

theorem clashes_of_collect (hg : g.Anchored) (h : collect g = .error fault) :
    ∃ name, g.Clashes name ∧ fault = .sharedName name :=
  clashes_of_resolving hg.resolving h

/-! ### Clashes -/

/-- Where the named schemas of a schema can be collected, nodes that define one name are equal. -/
theorem same_of_collect (hg : g.Anchored) (h : collect g = .ok n)
    (hs : s.Within g.root) (ht : t.Within g.root) (hsDefines : s.defines = true)
    (htDefines : t.defines = true) (hsName : s.name? = some name)
    (htName : t.name? = some name) : s.same t = true := by
  obtain ⟨r, hr, -, hrs, -⟩ := exists_recorded_of_collect hg h hs hsName
  obtain ⟨r', hr', -, hrt, -⟩ := exists_recorded_of_collect hg h ht htName
  obtain rfl : r = r' := Option.some.inj (hr.symm.trans hr')
  exact Schema.same_trans (Schema.same_symm (hrs hsDefines)) (hrt htDefines)

theorem not_clashes_of_collect (hg : g.Anchored) (h : collect g = .ok n) (name : String) :
    ¬ g.Clashes name := by
  rintro ⟨hs, ht, hsDefines, htDefines, hsName, htName, hdiffer⟩
  rw [hg.reaches_iff_within] at hs ht
  rw [same_of_collect hg h hs ht hsDefines htDefines hsName htName] at hdiffer
  cases hdiffer

/-! ### What is collected -/

/-- Whether all named schemas that a schema reaches are recorded, all references that it reaches are
noted, and nothing else. -/
structure Complete (g : SchemaGraph) (n : NamedSchemas) : Prop where
  names (name : String) : name ∈ Entries.names n.schemas ↔
    ∃ s, g.Reaches s ∧ s.defines = true ∧ s.name? = some name
  recorded (name : String) (s : Schema) : g.Reaches s → s.defines = true → s.name? = some name →
    ∃ r, Entries.get? n.schemas name = some r ∧ r.same s = true
  referenced (name : String) : name ∈ n.referenced ↔ g.Reaches (.ref name)

/-- What is reached has been visited, or something equal has. -/
theorem covered_of_reaches (hg : g.Resolving) (hagree : g.Agreeing) (h : collect g = .ok n)
    (hs : g.Reaches s) : Covered n s := by
  obtain ⟨hclosed, hroot⟩ := covered_root_of_collect hg h
  induction hs with
  | root => exact hroot
  | part _ inside ih => exact ih.part hclosed inside
  | @resolved name node reached found ih =>
    -- Under the name of a reference something is recorded, if not what the reference stands for.
    have hrefName : (Schema.ref name).name? = some name := rfl
    obtain ⟨r, hr, -⟩ := ih.exists_recorded hrefName
    obtain ⟨hreached, hdefines, hname⟩ := (met_of_collect h).schemas name r hr
    obtain ⟨node', hnode', hnodeDefines, hnodeName⟩ := hg name reached
    obtain rfl : node = node' := Option.some.inj (found.symm.trans hnode')
    have hsame : node.same r = true := hagree name node r reached found hreached hdefines hname
    exact ⟨node, .known hnodeName hnodeDefines hr (Schema.same_symm hsame), node.same_refl⟩

theorem complete_of_agreeing (hg : g.Resolving) (hagree : g.Agreeing) (h : collect g = .ok n) :
    Complete g n := by
  have hmet : Met g n := met_of_collect h
  have hcovered {s : Schema} (hs : g.Reaches s) : Covered n s :=
    covered_of_reaches hg hagree h hs
  refine ⟨fun name => ⟨fun hmem => ?_, fun ⟨s, hs, hdefines, hname⟩ => ?_⟩,
    fun name s hs hdefines hname => ?_, fun name => ⟨hmet.referenced name, fun href => ?_⟩⟩
  · obtain ⟨r, hr⟩ := Option.ne_none_iff_exists'.mp (mt Entries.get?_eq_none.mp (not_not.mpr hmem))
    exact ⟨r, hmet.schemas name r hr⟩
  · obtain ⟨r, hr, -⟩ := (hcovered hs).exists_recorded hname
    exact not_not.mp (mt Entries.get?_eq_none.mpr (hr ▸ Option.some_ne_none r))
  · obtain ⟨r, hr, hsame, -⟩ := (hcovered hs).exists_recorded hname
    exact ⟨r, hr, hsame hdefines⟩
  · have hname : (Schema.ref name).name? = some name := rfl
    obtain ⟨r, -, -, hreferenced⟩ := (hcovered href).exists_recorded hname
    exact hreferenced rfl

theorem Complete.not_clashes (hn : Complete g n) (name : String) : ¬ g.Clashes name := by
  rintro ⟨hs, ht, hsDefines, htDefines, hsName, htName, hdiffer⟩
  obtain ⟨r, hr, hrs⟩ := hn.recorded name _ hs hsDefines hsName
  obtain ⟨r', hr', hrt⟩ := hn.recorded name _ ht htDefines htName
  obtain rfl : r = r' := Option.some.inj (hr.symm.trans hr')
  cases hdiffer.symm.trans (Schema.same_trans (Schema.same_symm hrs) hrt)

/-- Where nothing clashes, references stand for what is equal to all of their names. -/
theorem agreeing_of_not_clashes (hg : g.Resolving) (h : ∀ name, ¬ g.Clashes name) :
    g.Agreeing := by
  intro name node s href hnode hs hdefines hname
  obtain ⟨node', hnode', hnodeDefines, hnodeName⟩ := hg name href
  obtain rfl : node = node' := Option.some.inj (hnode.symm.trans hnode')
  by_contra hdiffer
  exact h name (.intro (href.resolved hnode) hs hnodeDefines hdefines hnodeName hname
    (Bool.eq_false_of_not_eq_true hdiffer))

theorem complete_iff_agreeing (hg : g.Resolving) (h : collect g = .ok n) :
    Complete g n ↔ g.Agreeing :=
  ⟨fun hn => agreeing_of_not_clashes hg hn.not_clashes, fun hagree =>
    complete_of_agreeing hg hagree h⟩

/-- Where references stand for what all of their names are, all clashes are found. -/
theorem collect_fails_iff (hg : g.Resolving) (hagree : g.Agreeing) :
    (∃ fault, collect g = .error fault) ↔ ∃ name, g.Clashes name := by
  constructor
  · rintro ⟨fault, h⟩
    exact (clashes_of_resolving hg h).imp fun _ => And.left
  · rintro ⟨name, hclashes⟩
    cases h : collect g with
    | error fault => exact ⟨fault, rfl⟩
    | ok n => exact absurd hclashes ((complete_of_agreeing hg hagree h).not_clashes name)

end NamedSchemas

open NamedSchemas in
/-- Collecting the named schemas of a schema comes to an end, with a failure only if there is a
clash. Otherwise what is collected is complete exactly if no node differs from what a reference to
its name stands for. If so, all clashes are found, in every order of properties and alternatives. -/
theorem collect_complete_iff (g : SchemaGraph) (hg : g.Resolving) :
    Ends g .none [g.root] (collect g) ∧
    (∀ fault, collect g = .error fault → ∃ name, g.Clashes name ∧ fault = .sharedName name) ∧
    (∀ n, collect g = .ok n → (Complete g n ↔ g.Agreeing)) ∧
    (g.Agreeing → ((∃ fault, collect g = .error fault) ↔ ∃ name, g.Clashes name) ∧
      ∀ a : Arrangement, (∃ fault, collect (g.arranged a) = .error fault) ↔
        ∃ fault, collect g = .error fault) := by
  refine ⟨visitAll_root_ends hg (Nat.le_refl _), fun fault => clashes_of_resolving hg,
    fun n => complete_iff_agreeing hg, fun hagree => ⟨collect_fails_iff hg hagree, fun a => ?_⟩⟩
  rw [collect_fails_iff hg hagree, collect_fails_iff (hg.arranged a) (hagree.arranged a)]
  simp only [SchemaGraph.clashes_arranged_iff]

namespace Impostor

/-- The object that the reference stands for. -/
def meant : Schema := .object "A" none [⟨"q", .integer [], none, false⟩]

/-- An object with the name of the reference that is met before it. -/
def impostor : Schema := .object "A" none [⟨"p", .string [], none, false⟩]

def root : Schema :=
  .object "Root" none [⟨"x", impostor, none, false⟩, ⟨"y", .ref "A", none, false⟩]

def graph : SchemaGraph := ⟨root, [("A", meant)]⟩

def nodes : List Schema := [root, impostor, meant, .ref "A", .string [], .integer []]

theorem eq_of_reaches_ref {name : String} (h : graph.Reaches (.ref name)) : name = "A" := by
  have hroot : graph.root ∈ nodes := List.mem_cons_self
  have hparts : ∀ t ∈ nodes, t.parts ⊆ nodes := by
    simp [nodes, root, impostor, meant, Schema.parts, Schema.children]
  have htable : ∀ e ∈ graph.table, e.2 ∈ nodes := by simp [graph, nodes]
  simpa [nodes, root, impostor, meant] using h.mem hroot hparts htable

theorem resolving : graph.Resolving := by
  intro name href
  obtain rfl := eq_of_reaches_ref href
  exact ⟨meant, rfl, rfl, rfl⟩

theorem clashes : graph.Clashes "A" := by
  have hroot : graph.Reaches root := .root
  have himpostor : graph.Reaches impostor := hroot.part (List.mem_cons_self)
  have href : graph.Reaches (.ref "A") := hroot.part (List.mem_cons_of_mem _ List.mem_cons_self)
  exact .intro himpostor (href.resolved rfl) rfl rfl rfl rfl rfl

end Impostor

/-- The theorem applies where an object has the name of what a reference stands for. -/
theorem collect_complete_iff_impostor :
    Impostor.graph.Resolving ∧
    (∀ n, NamedSchemas.collect Impostor.graph = .ok n →
      (NamedSchemas.Complete Impostor.graph n ↔ Impostor.graph.Agreeing)) :=
  ⟨Impostor.resolving, (collect_complete_iff Impostor.graph Impostor.resolving).2.2.1⟩

/-- The clash is not found, and what is collected is not complete, but it is found in the reverse
order. -/
theorem not_complete_impostor :
    Impostor.graph.Resolving ∧ Impostor.graph.Clashes "A" ∧
    (∃ n, NamedSchemas.collect Impostor.graph = .ok n ∧
      ¬ NamedSchemas.Complete Impostor.graph n) ∧
    NamedSchemas.collect (Impostor.graph.arranged .reversed) = .error (.sharedName "A") :=
  ⟨Impostor.resolving, Impostor.clashes,
    ⟨_, rfl, fun hn => hn.not_clashes "A" Impostor.clashes⟩, rfl⟩

end StructuredOutput

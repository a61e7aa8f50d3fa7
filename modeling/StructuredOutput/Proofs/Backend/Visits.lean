import StructuredOutput.Proofs.Schema.Reachable

/-!
How the named schemas of a schema are visited. Nothing that has been recorded is given up, and when
nothing is pending any more, every object and every union in the schema equals the one that is
recorded under its name, and so does what a reference stands for.
-/

namespace StructuredOutput

namespace NamedSchemas

variable {g : SchemaGraph} {n n' : NamedSchemas} {s t : Schema} {next pending rest : List Schema}

/-! ### One visit -/

/-- What a visit of a node does to the schemas that are recorded, and which nodes are next. -/
inductive Visits (g : SchemaGraph) (n : NamedSchemas) :
    Schema → NamedSchemas → List Schema → Prop
  | scalar {s : Schema} (plain : s.IsScalar) : Visits g n s n []
  | array (item : Schema) (counts : List Span) : Visits g n (.array item counts) n [item]
  | first {s : Schema} {n' : NamedSchemas} {name : String} (named : s.name? = some name)
      (defines : s.defines = true) (unknown : Entries.get? n.schemas name = .none)
      (schemas : n'.schemas = n.schemas ++ [(name, s)])
      (referenced : n'.referenced = n.referenced) : Visits g n s n' s.parts
  | again {s r : Schema} {n' : NamedSchemas} {name : String} (named : s.name? = some name)
      (defines : s.defines = true) (known : Entries.get? n.schemas name = some r)
      (same : r.same s = true) (schemas : n'.schemas = n.schemas)
      (referenced : n'.referenced = n.referenced) : Visits g n s n' []
  | ref {n' : NamedSchemas} {name : String} {r : Schema} (known : Entries.get? n.schemas name = some r)
      (schemas : n'.schemas = n.schemas) (kept : n.referenced ⊆ n'.referenced)
      (added : name ∈ n'.referenced) : Visits g n (.ref name) n' []
  | resolve {n' : NamedSchemas} {name : String} {node : Schema}
      (unknown : Entries.get? n.schemas name = .none) (resolved : g.resolve? name = some node)
      (schemas : n'.schemas = n.schemas) (kept : n.referenced ⊆ n'.referenced)
      (added : name ∈ n'.referenced) : Visits g n (.ref name) n' [node]

theorem visits_of_meet {name : String} (hname : s.name? = some name) (hdefines : s.defines = true)
    (h : n.meet name s = .ok (n', next)) : Visits g n s n' next := by
  unfold meet at h
  dsimp only at h
  split at h
  · next hunknown =>
    cases h
    have hparts : s.children = s.parts := by
      cases s with
      | object | union => rfl
      | _ => cases hdefines
    exact hparts ▸ .first hname hdefines hunknown rfl rfl
  · next known hknown =>
    split at h
    · next hsame =>
      cases h
      exact .again hname hdefines hknown hsame rfl rfl
    · cases h

theorem visits_of_visit (h : n.visit g s = .ok (n', next)) : Visits g n s n' next := by
  cases s with
  | object => exact visits_of_meet rfl rfl h
  | union => exact visits_of_meet rfl rfl h
  | array item counts =>
    cases h
    exact .array item counts
  | ref name =>
    rw [visit] at h
    dsimp only at h
    generalize hadded :
      (if n.referenced.contains name then n.referenced else n.referenced ++ [name]) = added at h
    have hkept : n.referenced ⊆ added ∧ name ∈ added := by
      subst hadded
      split
      · next hmem => exact ⟨List.Subset.refl _, by simpa using hmem⟩
      · exact ⟨List.subset_append_left _ _, List.mem_append_right _ (List.mem_singleton_self _)⟩
    split at h
    · next hknown =>
      cases h
      obtain ⟨r, hr⟩ := Option.isSome_iff_exists.mp hknown
      exact .ref hr rfl hkept.1 hkept.2
    next hunknown =>
    split at h
    · next node hnode =>
      cases h
      exact .resolve (by simpa using hunknown) hnode rfl hkept.1 hkept.2
    · cases h
  | string | integer | number | boolean =>
    cases h
    exact .scalar ⟨rfl, rfl⟩

/-- Every schema that is recorded in one table is recorded in another. -/
def Extends (n' n : NamedSchemas) : Prop :=
  ∀ name r, Entries.get? n.schemas name = some r → Entries.get? n'.schemas name = some r

namespace Visits

theorem extended (h : Visits g n s n' next) : n'.Extends n := by
  intro name r hr
  cases h with
  | scalar | array => exact hr
  | first _ _ _ schemas => rw [schemas, Entries.get?_append, hr, Option.some_or]
  | again _ _ _ _ schemas | ref _ schemas | resolve _ _ schemas => rw [schemas, hr]

theorem kept (h : Visits g n s n' next) : n.referenced ⊆ n'.referenced := by
  cases h with
  | scalar | array => exact List.Subset.refl _
  | first _ _ _ _ referenced | again _ _ _ _ _ referenced =>
    exact referenced ▸ List.Subset.refl _
  | ref _ _ kept | resolve _ _ _ kept => exact kept

/-- What is recorded after a visit was recorded before, or it is the node that is visited. -/
theorem recorded (h : Visits g n s n' next) {name : String} {r : Schema}
    (hr : Entries.get? n'.schemas name = some r) :
    Entries.get? n.schemas name = some r ∨
      s.name? = some name ∧ s.defines = true ∧ r = s ∧ next = s.parts := by
  cases h with
  | scalar | array => exact .inl hr
  | first named defines unknown schemas =>
    rw [schemas, Entries.get?_append] at hr
    cases hget : Entries.get? n.schemas name with
    | some u => exact .inl (by rwa [hget, Option.some_or] at hr)
    | none =>
      rw [hget, Option.none_or] at hr
      obtain ⟨rfl, rfl⟩ := Prod.mk.inj (List.mem_singleton.mp (Entries.mem_of_get? hr))
      exact .inr ⟨named, defines, rfl, rfl⟩
  | again _ _ _ _ schemas | ref _ schemas | resolve _ _ schemas => exact .inl (schemas ▸ hr)

end Visits

/-! ### What need not be visited -/

/-- Whether a schema has been visited as far as it must be: it is pending, it is equal to what is
recorded under its name, what it refers to is recorded or pending, or there is nothing in it to
visit. -/
inductive Settled (n : NamedSchemas) (pending : List Schema) : Schema → Prop
  | pending {s : Schema} (h : s ∈ pending) : Settled n pending s
  | scalar {s : Schema} (plain : s.IsScalar) : Settled n pending s
  | ref {name : String} (referenced : name ∈ n.referenced)
      (found : (∃ r, Entries.get? n.schemas name = some r) ∨
        ∃ node ∈ pending, node.defines = true ∧ node.name? = some name) :
      Settled n pending (.ref name)
  | array {item : Schema} (items : Settled n pending item) (counts : List Span) :
      Settled n pending (.array item counts)
  | known {s r : Schema} {name : String} (named : s.name? = some name) (defines : s.defines = true)
      (recorded : Entries.get? n.schemas name = some r) (same : r.same s = true) :
      Settled n pending s

/-- The parts of what is recorded are settled. -/
def Closed (n : NamedSchemas) (pending : List Schema) : Prop :=
  ∀ name r, Entries.get? n.schemas name = some r → ∀ c ∈ r.parts, Settled n pending c

/-- What defines a name is recorded under it or pending, when it is settled. -/
theorem Settled.found (h : Settled n pending s) (hdefines : s.defines = true) {name : String}
    (hname : s.name? = some name) : (∃ r, Entries.get? n.schemas name = some r) ∨
      ∃ node ∈ pending, node.defines = true ∧ node.name? = some name := by
  cases h with
  | pending hmem => exact .inr ⟨s, hmem, hdefines, hname⟩
  | scalar plain => cases plain.not_defines.symm.trans hdefines
  | ref | array => cases hdefines
  | known named _ recorded =>
    cases named.symm.trans hname
    exact .inl ⟨_, recorded⟩

theorem Settled.mono (h : Settled n pending s) (hextends : n'.Extends n)
    (hkept : n.referenced ⊆ n'.referenced) (hpending : ∀ t ∈ pending, Settled n' next t) :
    Settled n' next s := by
  induction h with
  | pending hmem => exact hpending _ hmem
  | scalar plain => exact .scalar plain
  | ref referenced found =>
    refine .ref (hkept referenced) ?_
    rcases found with ⟨r, hr⟩ | ⟨node, hnode, hdefines, hname⟩
    · exact .inl ⟨r, hextends _ r hr⟩
    · exact (hpending node hnode).found hdefines hname
  | array _ counts ih => exact .array ih counts
  | known named defines recorded same => exact .known named defines (hextends _ _ recorded) same

/-- A visit settles its node, where references resolve to what defines their names. -/
theorem Visits.settled (h : Visits g n s n' next) (hg : g.Resolving) (hs : g.Reaches s)
    (rest : List Schema) : Settled n' (next ++ rest) s := by
  cases h with
  | scalar plain => exact .scalar plain
  | array item counts => exact .array (.pending List.mem_cons_self) counts
  | first named defines unknown schemas =>
    refine .known named defines (r := s) ?_ s.same_refl
    rw [schemas, Entries.get?_append, unknown, Option.none_or, Entries.get?_cons_self]
  | again named defines known same schemas => exact .known named defines (schemas ▸ known) same
  | ref known schemas _ added => exact .ref added (.inl ⟨_, schemas ▸ known⟩)
  | @resolve _ name node _ resolved _ _ added =>
    obtain ⟨node', hnode', hdefines, hname⟩ := hg name hs
    obtain rfl : node = node' := Option.some.inj (resolved.symm.trans hnode')
    exact .ref added (.inr ⟨node, List.mem_cons_self, hdefines, hname⟩)

/-- What has been settled stays so in a visit. -/
theorem Visits.keeps_settled (h : Visits g n s n' next) (hg : g.Resolving) (hs : g.Reaches s)
    (ht : Settled n (s :: rest) t) : Settled n' (next ++ rest) t := by
  refine ht.mono h.extended h.kept fun u hu => ?_
  rcases List.mem_cons.mp hu with rfl | hu
  · exact h.settled hg hs rest
  · exact .pending (List.mem_append_right next hu)

theorem Visits.closed (h : Visits g n s n' next) (hg : g.Resolving) (hs : g.Reaches s)
    (hn : Closed n (s :: rest)) : Closed n' (next ++ rest) := by
  intro name r hr c hc
  rcases h.recorded hr with hr | ⟨-, -, rfl, rfl⟩
  · exact h.keeps_settled hg hs (hn name r hr c hc)
  · exact .pending (List.mem_append_left rest hc)

/-- A visit of what is reached yields what is reached. -/
theorem Visits.next_reached (h : Visits g n s n' next) (hs : g.Reaches s) :
    ∀ c ∈ next, g.Reaches c := by
  intro c hc
  cases h with
  | scalar | again | ref => cases hc
  | array item counts =>
    obtain rfl := List.mem_singleton.mp hc
    exact hs.part (List.mem_singleton_self _)
  | first => exact hs.part hc
  | resolve _ resolved =>
    obtain rfl := List.mem_singleton.mp hc
    exact hs.resolved resolved

/-! ### How long visits go on -/

/-- The number of nodes in several schemas. -/
def weight (pending : List Schema) : Nat := (pending.map Schema.size).sum

theorem weight_cons (s : Schema) (rest : List Schema) : weight (s :: rest) = s.size + weight rest := by
  rw [weight, List.map_cons, List.sum_cons]
  rfl

theorem weight_append (ss rest : List Schema) : weight (ss ++ rest) = weight ss + weight rest := by
  simp only [weight, List.map_append, List.sum_append]

/-- The number of nodes in the entries of a table under names that have not been met. -/
def unmet (n : NamedSchemas) (table : List (String × Schema)) : Nat :=
  ((table.filter fun e => (Entries.get? n.schemas e.1).isNone).map fun e => e.2.size).sum

theorem unmet_cons (n : NamedSchemas) (e : String × Schema) (table : List (String × Schema)) :
    unmet n (e :: table) =
      (if (Entries.get? n.schemas e.1).isNone then e.2.size else 0) + unmet n table := by
  unfold unmet
  rw [List.filter_cons]
  split
  · rw [List.map_cons, List.sum_cons]
  · rw [Nat.zero_add]

theorem unmet_le (h : n'.Extends n) (table : List (String × Schema)) :
    unmet n' table ≤ unmet n table := by
  induction table with
  | nil => exact Nat.le_refl _
  | cons e table ih =>
    rw [unmet_cons, unmet_cons]
    cases hget : Entries.get? n.schemas e.1 with
    | none => split <;> simp <;> omega
    | some r =>
      rw [h _ _ hget]
      simpa using ih

/-- The entry of a name that is met need not be visited any more. -/
theorem unmet_add_size_le (h : n'.Extends n) {name : String} {node r : Schema}
    {table : List (String × Schema)} (hnode : Entries.get? table name = some node)
    (hunknown : Entries.get? n.schemas name = .none) (hknown : Entries.get? n'.schemas name = some r) :
    unmet n' table + node.size ≤ unmet n table := by
  induction table with
  | nil => cases hnode
  | cons e table ih =>
    obtain ⟨m, s⟩ := e
    rw [unmet_cons, unmet_cons]
    by_cases hm : m = name
    · subst hm
      rw [Entries.get?_cons_self, Option.some.injEq] at hnode
      subst hnode
      have hle := unmet_le h table
      simp only [hunknown, hknown, Option.isNone_none, Option.isNone_some, Bool.false_eq_true,
        if_true, if_false]
      omega
    · rw [Entries.get?_cons_of_ne _ _ hm] at hnode
      have hrest := ih hnode
      cases hget : Entries.get? n.schemas m with
      | none => split <;> simp <;> omega
      | some r' =>
        rw [h _ _ hget]
        simpa using hrest

theorem unmet_pos {name : String} {node : Schema} {table : List (String × Schema)}
    (hnode : Entries.get? table name = some node)
    (hunknown : Entries.get? n.schemas name = .none) : 0 < unmet n table := by
  have hmem : (name, node) ∈ table.filter fun e => (Entries.get? n.schemas e.1).isNone :=
    List.mem_filter.mpr ⟨Entries.mem_of_get? hnode, by simp [hunknown]⟩
  exact Nat.lt_of_lt_of_le node.size_pos (List.le_sum_of_mem (List.mem_map_of_mem hmem))

/-- A visit leaves less to visit, unless it resolves a reference. -/
theorem Visits.weight_le (h : Visits g n s n' next) (rest : List Schema) :
    weight (next ++ rest) + unmet n' g.table + 1 ≤ weight (s :: rest) + unmet n g.table ∨
      ∃ name node, s = .ref name ∧ next = [node] ∧ Entries.get? n.schemas name = .none ∧
        g.resolve? name = some node ∧ n'.schemas = n.schemas := by
  have hsize : s.size = weight s.parts + 1 := Schema.size_eq s
  have hle := unmet_le h.extended g.table
  rw [weight_append, weight_cons]
  cases h with
  | scalar | again | ref =>
    left
    have hempty : weight [] = 0 := rfl
    omega
  | array item counts =>
    left
    change _ = weight [item] + 1 at hsize
    omega
  | first =>
    left
    omega
  | resolve unknown resolved schemas => exact .inr ⟨_, _, rfl, rfl, unknown, resolved, schemas⟩

/-- The node that a reference resolves to is met in the next visit, and its entry with it. -/
theorem Visits.meets {name : String} {node : Schema} (h : Visits g n node n' next)
    (hnode : g.resolve? name = some node) (hunknown : Entries.get? n.schemas name = .none)
    (hdefines : node.defines = true) (hname : node.name? = some name) :
    weight next + 1 = node.size ∧ unmet n' g.table + node.size ≤ unmet n g.table := by
  cases h with
  | scalar plain => cases plain.not_defines.symm.trans hdefines
  | array | ref | resolve => cases hdefines
  | again named _ known =>
    cases hname.symm.trans named
    cases hunknown.symm.trans known
  | first named _ _ schemas =>
    cases hname.symm.trans named
    refine ⟨(Schema.size_eq node).symm, unmet_add_size_le (r := node) ?_ hnode hunknown ?_⟩
    · intro m r hr
      rw [schemas, Entries.get?_append, hr, Option.some_or]
    · rw [schemas, Entries.get?_append, hunknown, Option.none_or, Entries.get?_cons_self]

/-! ### A run of visits -/

/-- How a run of visits ends: nothing is pending any more, or a visit fails. -/
inductive Ends (g : SchemaGraph) :
    NamedSchemas → List Schema → Except ProjectionFault NamedSchemas → Prop
  | done (n : NamedSchemas) : Ends g n [] (.ok n)
  | failed {n : NamedSchemas} {s : Schema} {fault : ProjectionFault}
      (visit : n.visit g s = .error fault) (rest : List Schema) : Ends g n (s :: rest) (.error fault)
  | visited {n n' : NamedSchemas} {s : Schema} {next rest : List Schema}
      {result : Except ProjectionFault NamedSchemas} (visit : n.visit g s = .ok (n', next))
      (ends : Ends g n' (next ++ rest) result) : Ends g n (s :: rest) result

/-- A run ends before the fuel does, where references resolve to what defines their names. -/
theorem visitAll_ends (hg : g.Resolving) {fuel : Nat}
    (hfuel : weight pending + unmet n g.table ≤ fuel) (hpending : ∀ s ∈ pending, g.Reaches s) :
    Ends g n pending (visitAll g fuel n pending) := by
  induction fuel using Nat.strongRecOn generalizing n pending with
  | ind fuel ih =>
    cases pending with
    | nil => cases fuel <;> exact .done n
    | cons s pending =>
    have hpos := s.size_pos
    have hcons := weight_cons s pending
    obtain ⟨fuel, rfl⟩ : ∃ below, fuel = below + 1 := ⟨fuel - 1, by omega⟩
    have hs : g.Reaches s := hpending s List.mem_cons_self
    have hothers : ∀ t ∈ pending, g.Reaches t :=
      fun t ht => hpending t (List.mem_cons_of_mem s ht)
    rw [visitAll]
    cases hvisit : n.visit g s with
    | error fault => exact .failed hvisit pending
    | ok visited =>
    obtain ⟨n₁, next⟩ := visited
    have hvisits : Visits g n s n₁ next := visits_of_visit hvisit
    have hnext : ∀ t ∈ next ++ pending, g.Reaches t :=
      List.forall_mem_append.mpr ⟨hvisits.next_reached hs, hothers⟩
    refine .visited hvisit ?_
    rcases hvisits.weight_le pending with hweight | ⟨name, node, rfl, rfl, hunknown, hnode, hsame⟩
    · exact ih fuel (Nat.lt_succ_self fuel) (by omega) hnext
    -- A reference adds a node, but with it a name is met that was not met before.
    obtain ⟨node', hnode', hdefines, hname⟩ := hg name hs
    obtain rfl : node = node' := Option.some.inj (hnode.symm.trans hnode')
    have hunmet : unmet n₁ g.table = unmet n g.table := by rw [unmet, unmet, hsame]
    rw [← hsame] at hunknown
    have htable : 0 < unmet n₁ g.table := unmet_pos hnode hunknown
    obtain ⟨fuel, rfl⟩ : ∃ below, fuel = below + 1 := ⟨fuel - 1, by omega⟩
    change Ends g n₁ (node :: pending) (visitAll g (fuel + 1) n₁ (node :: pending))
    rw [visitAll]
    cases hvisit₂ : n₁.visit g node with
    | error fault => exact .failed hvisit₂ pending
    | ok visited =>
    obtain ⟨n₂, next₂⟩ := visited
    have hvisits₂ : Visits g n₁ node n₂ next₂ := visits_of_visit hvisit₂
    obtain ⟨hparts, hmet⟩ := hvisits₂.meets hnode hunknown hdefines hname
    refine .visited hvisit₂ (ih fuel (by omega) ?_ ?_)
    · have happend := weight_append next₂ pending
      omega
    · exact List.forall_mem_append.mpr ⟨hvisits₂.next_reached (hs.resolved hnode), hothers⟩

/-- What visits leave: all of the schemas are settled, and so are the parts of all that is
recorded. -/
theorem Ends.settles {result : Except ProjectionFault NamedSchemas} (h : Ends g n pending result)
    (hg : g.Resolving) (hpending : ∀ s ∈ pending, g.Reaches s) (hn : Closed n pending)
    (hresult : result = .ok n') :
    Closed n' [] ∧ ∀ s, Settled n pending s → Settled n' [] s := by
  induction h with
  | done =>
    cases hresult
    exact ⟨hn, fun _ hs => hs⟩
  | failed => cases hresult
  | @visited n n₁ s next rest _ visit _ ih =>
    have hvisits : Visits g n s n₁ next := visits_of_visit visit
    have hs : g.Reaches s := hpending s List.mem_cons_self
    have hnext : ∀ t ∈ next ++ rest, g.Reaches t := List.forall_mem_append.mpr
      ⟨hvisits.next_reached hs, fun t ht => hpending t (List.mem_cons_of_mem s ht)⟩
    obtain ⟨hclosed, hsettled⟩ := ih hnext (hvisits.closed hg hs hn) hresult
    exact ⟨hclosed, fun t ht => hsettled t (hvisits.keeps_settled hg hs ht)⟩

/-! ### What is recorded -/

/-- Every schema that has been met is reached and defines the name that it is kept under, and every
reference that is noted is reached. -/
structure Met (g : SchemaGraph) (n : NamedSchemas) : Prop where
  schemas : ∀ name s, Entries.get? n.schemas name = some s →
    g.Reaches s ∧ s.defines = true ∧ s.name? = some name
  referenced : ∀ name ∈ n.referenced, g.Reaches (.ref name)

theorem met_none (g : SchemaGraph) : Met g none :=
  ⟨fun _ _ hget => (by cases hget), fun _ hname => absurd hname List.not_mem_nil⟩

/-- A visit notes no reference but its node. -/
theorem mem_referenced_visit (h : n.visit g s = .ok (n', next)) {name : String}
    (hname : name ∈ n'.referenced) : name ∈ n.referenced ∨ s = .ref name := by
  have hmeet {m : String} (h : n.meet m s = .ok (n', next)) : name ∈ n.referenced := by
    unfold meet at h
    dsimp only at h
    split at h
    · cases h
      exact hname
    · split at h <;> cases h
      exact hname
  cases s with
  | object => exact .inl (hmeet h)
  | union => exact .inl (hmeet h)
  | ref m =>
    have hnoted : name ∈ (if n.referenced.contains m then n.referenced else n.referenced ++ [m]) := by
      rw [visit] at h
      dsimp only at h
      split at h
      · cases h
        exact hname
      · split at h <;> cases h
        exact hname
    split at hnoted
    · exact .inl hnoted
    · rcases List.mem_append.mp hnoted with hold | hnew
      · exact .inl hold
      · exact .inr (List.mem_singleton.mp hnew ▸ rfl)
  | _ =>
    cases h
    exact .inl hname

theorem Met.visit (hn : Met g n) (hs : g.Reaches s) (h : n.visit g s = .ok (n', next)) :
    Met g n' where
  schemas name r hr := by
    rcases (visits_of_visit h).recorded hr with hr | ⟨hname, hdefines, rfl, -⟩
    · exact hn.schemas name r hr
    · exact ⟨hs, hdefines, hname⟩
  referenced name hname := by
    rcases mem_referenced_visit h hname with hold | rfl
    · exact hn.referenced name hold
    · exact hs

theorem visitAll_met {fuel : Nat} (hn : Met g n) (hpending : ∀ s ∈ pending, g.Reaches s)
    (h : visitAll g fuel n pending = .ok n') : Met g n' := by
  induction fuel generalizing n pending with
  | zero =>
    cases h
    exact hn
  | succ fuel ih =>
    cases pending with
    | nil =>
      cases h
      exact hn
    | cons s pending =>
      obtain ⟨⟨n₁, next⟩, hvisit, hrest⟩ := Outcome.bind_eq_ok.mp h
      have hs : g.Reaches s := hpending s List.mem_cons_self
      refine ih (hn.visit hs hvisit) (List.forall_mem_append.mpr ⟨?_, ?_⟩) hrest
      · exact (visits_of_visit hvisit).next_reached hs
      · exact fun t ht => hpending t (List.mem_cons_of_mem s ht)

/-- Every schema that has been met is a node of the schema and defines the name that it is kept
under. -/
def Recorded (g : SchemaGraph) (n : NamedSchemas) : Prop :=
  ∀ name s, Entries.get? n.schemas name = some s →
    s.Within g.root ∧ s.defines = true ∧ s.name? = some name

/-! ### What is equal to something settled -/

/-- Whether a schema is equal to one that is settled. It need not have been visited. -/
def Covered (n : NamedSchemas) (s : Schema) : Prop := ∃ t, Settled n [] t ∧ t.same s = true

theorem Covered.part {part : Schema} (h : Covered n s) (hn : Closed n []) (hpart : part ∈ s.parts) :
    Covered n part := by
  obtain ⟨t, ht, hsame⟩ := h
  have heach {r : Schema} (hr : r.same s = true) (hparts : ∀ c ∈ r.parts, Settled n [] c) :
      Covered n part := by
    obtain ⟨c, hc, hcpart⟩ := Outcome.exists_mem_left (Schema.same_iff.mp hr).parts hpart
    exact ⟨c, hparts c hc, hcpart⟩
  cases ht with
  | pending hmem => cases hmem
  | scalar plain => exact heach hsame fun c hc => by rw [plain.1] at hc; cases hc
  | ref => exact heach hsame fun c hc => absurd hc List.not_mem_nil
  | array items => exact heach hsame fun c hc => List.mem_singleton.mp hc ▸ items
  | known _ _ recorded same => exact heach (Schema.same_trans same hsame) (hn _ _ recorded)

theorem Covered.within (h : Covered n t) (hn : Closed n []) (hs : s.Within t) : Covered n s := by
  obtain ⟨position, hposition⟩ := hs
  induction position generalizing t with
  | nil => exact Option.some.inj hposition ▸ h
  | cons i position ih =>
    rw [Schema.at?] at hposition
    obtain ⟨part, hpart, hrest⟩ := Option.bind_eq_some_iff.mp hposition
    exact ih (h.part hn (List.mem_of_getElem? hpart)) hrest

/-- In what is settled, whatever defines a name is equal to what is recorded under the name, and
so something is recorded under the name of every reference. -/
theorem Covered.exists_recorded (h : Covered n s) {name : String} (hname : s.name? = some name) :
    ∃ r, Entries.get? n.schemas name = some r ∧ (s.defines = true → r.same s = true) ∧
      (s.defines = false → name ∈ n.referenced) := by
  obtain ⟨t, ht, hsame⟩ := h
  have hmatches := Schema.same_iff.mp hsame
  have hname' : t.name? = some name := hmatches.name?_eq.trans hname
  cases ht with
  | pending hmem => cases hmem
  | scalar plain => cases plain.2.symm.trans hname'
  | array => cases hname'
  | ref referenced found =>
    cases hname'
    obtain ⟨r, hr⟩ := found.resolve_right fun ⟨_, hmem, _⟩ => List.not_mem_nil hmem
    refine ⟨r, hr, fun hdefines => ?_, fun _ => referenced⟩
    cases hmatches.defines_eq.trans hdefines
  | known named defines recorded same =>
    cases named.symm.trans hname'
    refine ⟨_, recorded, fun _ => Schema.same_trans same hsame, fun hnot => ?_⟩
    cases (hmatches.defines_eq.trans hnot).symm.trans defines

/-! ### All named schemas of a schema -/

/-- The visits of a whole schema are as many as its nodes and those of its table at most. -/
theorem weight_root (g : SchemaGraph) : weight [g.root] + unmet none g.table = g.size := by
  have hfold (table : List (String × Schema)) (start : Nat) :
      start + unmet none table = table.foldl (fun n e => n + e.2.size) start := by
    induction table generalizing start with
    | nil => rfl
    | cons e table ih =>
      have hnew : (Entries.get? none.schemas e.1).isNone = true := rfl
      rw [List.foldl_cons, ← ih, unmet_cons, if_pos hnew, Nat.add_assoc]
  exact hfold g.table g.root.size

/-- A run from the root ends before the fuel does. -/
theorem visitAll_root_ends (hg : g.Resolving) {fuel : Nat} (hfuel : 2 * g.size + 2 ≤ fuel) :
    Ends g none [g.root] (visitAll g fuel none [g.root]) := by
  have hsize := weight_root g
  exact visitAll_ends hg (by omega) fun t ht => List.mem_singleton.mp ht ▸ .root

/-- What is met when the named schemas of a schema are collected. -/
theorem met_of_collect (h : collect g = .ok n) : Met g n :=
  visitAll_met (met_none g) (fun _ hs => List.mem_singleton.mp hs ▸ .root) h

/-- Nothing is left to visit when the named schemas of a schema have been collected. -/
theorem covered_root_of_collect (hg : g.Resolving) (h : collect g = .ok n) :
    Closed n [] ∧ Covered n g.root := by
  have hroot : ∀ t ∈ [g.root], g.Reaches t := fun t ht => List.mem_singleton.mp ht ▸ .root
  obtain ⟨hclosed, hsettled⟩ := (visitAll_root_ends hg (Nat.le_refl _)).settles hg hroot
    (fun _ _ hget => by cases hget) h
  exact ⟨hclosed, g.root, hsettled g.root (.pending (List.mem_singleton_self _)), g.root.same_refl⟩

/-- What is recorded when the named schemas of a schema are collected. -/
theorem recorded_of_collect (hg : g.Anchored) (h : collect g = .ok n) : Recorded g n :=
  fun name s hs => ((met_of_collect h).schemas name s hs).imp_left hg.reaches_iff_within.mp

/-- Collecting the named schemas of a schema records one for every name: a node of the schema that
is equal to every node which defines the name. What is referred to is noted. -/
theorem exists_recorded_of_collect (hg : g.Anchored) (h : collect g = .ok n)
    (hs : s.Within g.root) {name : String} (hname : s.name? = some name) :
    ∃ r, Entries.get? n.schemas name = some r ∧ r.Within g.root ∧
      (s.defines = true → r.same s = true) ∧ (s.defines = false → name ∈ n.referenced) := by
  obtain ⟨hclosed, hroot⟩ := covered_root_of_collect hg.resolving h
  obtain ⟨r, hr, hsame, hreferenced⟩ := (hroot.within hclosed hs).exists_recorded hname
  exact ⟨r, hr, (recorded_of_collect hg h _ r hr).1, hsame, hreferenced⟩

/-- No object or union inside the root of a schema has the name of the root. -/
theorem name?_ne_root_of_collect (hg : g.Anchored) (h : collect g = .ok n)
    (hrootDefines : g.root.defines = true) (ht : t.Within g.root) (hs : s ∈ t.parts)
    (hdefines : s.defines = true) : s.name? ≠ g.root.name? := by
  intro heq
  obtain ⟨name, hname⟩ := Schema.exists_name_of_defines hdefines
  have hwithin : s.Within g.root := ht.part hs
  obtain ⟨r, hr, -, hsame, -⟩ := exists_recorded_of_collect hg h hwithin hname
  obtain ⟨r', hr', -, hsame', -⟩ :=
    exists_recorded_of_collect hg h (.refl g.root) (heq ▸ hname)
  obtain rfl : r = r' := Option.some.inj (hr.symm.trans hr')
  have hsize : s.size = g.root.size := (Schema.size_eq_of_same (hsame hdefines)).symm.trans
    (Schema.size_eq_of_same (hsame' hrootDefines))
  have hlt := Schema.size_lt_of_part hs
  have hle := Schema.size_le_of_within ht
  omega

end NamedSchemas

end StructuredOutput

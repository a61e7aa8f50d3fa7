import StructuredOutput.Proofs.Stream.Merge
import StructuredOutput.Proofs.Stream.Observed

/-!
What a later snapshot keeps of an earlier one. Snapshots of one shape are built alike, so that their
join keeps the earlier one; a value that is known at a place is lost only where null or another case
of a union took the place of what encloses it.
-/

namespace StructuredOutput

variable {ds : Declarations}

namespace Value

/-- What a later snapshot keeps of an earlier one: of paired values every slot or every item, and of
others that something is known. -/
inductive Keeps : Value → Value → Prop
  | unknown (later : Value) : Keeps .unknown later
  | slots {id : String} {ps ms : List (String × Value)}
      (names : Entries.names ms = Entries.names ps)
      (each : ∀ name, Keeps (inSlot ps name) (inSlot ms name)) : Keeps (.slots id ps) (.slots id ms)
  | tuple {ps ms : List Value} (longer : ps.length ≤ ms.length)
      (each : ∀ index < ps.length, Keeps (atIndex ps index) (atIndex ms index)) :
      Keeps (.tuple ps) (.tuple ms)
  | other {earlier later : Value} (unpaired : ¬ Paired earlier later) (known : later ≠ .unknown) :
      Keeps earlier later

end Value

namespace Shape

/-- Whether values of a shape have no parts. -/
def isLeaf : Shape → Bool
  | primitive _ _ | literal _ _ | enum _ _ _ => true
  | _ => false

end Shape

open Value

/-- A value that content of some kind can tell about a shape, part by part. -/
inductive Observes (ds : Declarations) : Shape → Value → Prop
  | unknown (shape : Shape) : Observes ds shape .unknown
  | null {shape : Shape} (optional : shape.isOptional = true) : Observes ds shape .null
  | leaf {shape : Shape} {v : Value} (isLeaf : shape.core.isLeaf = true)
      (whole : v.hasParts = false) : Observes ds shape v
  | tuple {shape item : Shape} {container : Container} {constraints : List Constraint}
      {items : List Value} (core : shape.core = .array item container constraints)
      (each : ∀ v ∈ items, Observes ds item v) : Observes ds shape (.tuple items)
  | slots {shape : Shape} {id : String} {fields : List FieldShape} {vs : List (String × Value)}
      (mem : id ∈ shape.core.records) (resolved : ds.fieldShapes id = .ok fields)
      (names : Entries.names vs = fields.map (·.attr))
      (each : ∀ f ∈ fields, Observes ds f.whole (inSlot vs f.attr)) :
      Observes ds shape (.slots id vs)

namespace Observes

theorem of_tuple {shape item : Shape} {container : Container} {constraints : List Constraint}
    {items : List Value} (h : Observes ds shape (.tuple items))
    (hcore : shape.core = .array item container constraints) : ∀ v ∈ items, Observes ds item v := by
  cases h with
  | leaf isLeaf whole => cases whole
  | tuple core each =>
    rw [hcore] at core
    cases core
    exact each

theorem of_slots {shape : Shape} {id : String} {fields : List FieldShape}
    {vs : List (String × Value)} (h : Observes ds shape (.slots id vs))
    (hfields : ds.fieldShapes id = .ok fields) :
    Entries.names vs = fields.map (·.attr) ∧
      ∀ f ∈ fields, Observes ds f.whole (inSlot vs f.attr) := by
  cases h with
  | leaf isLeaf whole => cases whole
  | slots mem resolved names each =>
    rw [hfields] at resolved
    cases resolved
    exact ⟨names, each⟩

/-- A snapshot keeps itself. -/
theorem keeps {shape : Shape} {v : Value} (h : Observes ds shape v) : Keeps v v := by
  induction h with
  | unknown => exact .unknown _
  | null => exact .other (fun h => h) (by simp)
  | @leaf shape v isLeaf whole =>
    cases v with
    | unknown => exact .unknown _
    | slots | tuple => cases whole
    | _ => exact .other (fun h => h) (by simp)
  | @tuple shape item container constraints items core each ih =>
    exact .tuple (Nat.le_refl _) fun index hindex => ih _ (atIndex_mem hindex)
  | @slots shape id fields vs mem resolved names each ih =>
    refine .slots rfl fun name => ?_
    by_cases hname : name ∈ Entries.names vs
    · rw [names] at hname
      obtain ⟨f, hf, rfl⟩ := List.mem_map.mp hname
      exact ih f hf
    · rw [inSlot_of_not_mem hname]
      exact .unknown _

end Observes

namespace Snapshot

open Content (members_induction)

/-! ### What content tells is observed -/

theorem hasParts_leaf (shape : Shape) (c : Content) : (leaf ds shape c).hasParts = false := by
  unfold leaf primitive EnumDecl.memberValue
  dsimp only
  repeat' split
  all_goals rfl

theorem observes_leaf {shape : Shape} (c : Content) :
    Observes ds shape (leaf ds shape.core c) := by
  by_cases h : shape.core.isLeaf = true
  · exact .leaf h (hasParts_leaf _ c)
  · have hunknown : leaf ds shape.core c = .unknown := by
      unfold leaf
      split <;> first | rfl | simp_all [Shape.isLeaf]
    rw [hunknown]
    exact .unknown shape

theorem observes_known {items : List Content} {item : Shape}
    (each : ∀ c ∈ items, ∀ v, value ds c item = .ok v → Observes ds item v) {vs : List Value}
    (h : known ds items item = .ok vs) : ∀ v ∈ vs, Observes ds item v := by
  induction items generalizing vs with
  | nil =>
    rw [known] at h
    cases h
    simp
  | cons c cs ih =>
    rw [known] at h
    obtain ⟨v, hv, h⟩ := Outcome.bind_eq_ok.mp h
    split at h
    · cases h
      simp
    · obtain ⟨rest, hrest, h⟩ := Outcome.bind_eq_ok.mp h
      cases h
      refine List.forall_mem_cons.mpr ⟨each c List.mem_cons_self v hv, ?_⟩
      exact ih (fun c hc => each c (List.mem_cons_of_mem _ hc)) hrest

theorem observes_slot {entries : List (String × Content)} {f : FieldShape} {v : Value}
    (each : ∀ e ∈ entries, ∀ v, value ds e.2 f.whole = .ok v → Observes ds f.whole v)
    (h : slot ds entries f = .ok v) : Observes ds f.whole v := by
  rw [slot_eq] at h
  cases hget : Entries.get? entries f.key with
  | none =>
    rw [hget] at h
    cases h
    exact .unknown _
  | some c =>
    rw [hget] at h
    exact each (f.key, c) (Entries.mem_of_get? hget) v h

theorem observes_value (c : Content) {shape : Shape} {v : Value} (h : value ds c shape = .ok v) :
    Observes ds shape v := by
  induction c using members_induction generalizing shape v with
  | null =>
    cases tells_of_value h with
    | null optional => exact .null optional
    | leaf => exact observes_leaf _
  | bool | number | string =>
    cases tells_of_value h with
    | leaf => exact observes_leaf _
  | array items ih =>
    cases tells_of_value h with
    | leaf scalar => cases scalar
    | noItems => exact .unknown shape
    | items core hknown => exact .tuple core (observes_known (fun c hc _ hv => ih c hc hv) hknown)
  | object entries ih =>
    cases tells_of_value h with
    | leaf scalar => cases scalar
    | noInstance => exact .unknown shape
    | slots belongs resolved names each =>
      refine .slots (mem_of_instanceOf? belongs) resolved names fun f hf => ?_
      exact observes_slot (fun e he _ hv => ih e he hv) (each f hf)

/-! ### Joins -/

theorem observes_merge_of_unpaired {shape : Shape} {previous current : Value}
    (hprevious : Observes ds shape previous) (hcurrent : Observes ds shape current)
    (h : ¬ Paired previous current) : Observes ds shape (merge previous current) := by
  by_cases hknown : current = .unknown
  · rw [hknown, merge_unknown]
    exact hprevious
  · rw [merge_of_unpaired h hknown]
    exact hcurrent

/-- The join of two snapshots of a shape is one. -/
theorem observes_merge {shape : Shape} {previous current : Value}
    (hprevious : Observes ds shape previous) (hcurrent : Observes ds shape current) :
    Observes ds shape (merge previous current) := by
  induction hcurrent generalizing previous with
  | unknown shape => simpa using hprevious
  | null optional =>
    apply observes_merge_of_unpaired hprevious (.null optional)
    intro h
    cases hasParts_of_paired h
  | @leaf shape v isLeaf whole =>
    apply observes_merge_of_unpaired hprevious (.leaf isLeaf whole)
    intro h
    exact absurd (hasParts_of_paired h) (by simp [whole])
  | @tuple shape item container constraints ms core each ih =>
    cases previous with
    | tuple ps =>
      rw [merge_tuple]
      refine .tuple core fun v hv => ?_
      obtain ⟨p, m, hp, hm, rfl⟩ := mem_mergeItems hv
      have hpobserves : Observes ds item p := by
        rcases hp with hp | rfl
        · exact hprevious.of_tuple core p hp
        · exact .unknown item
      rcases hm with hm | rfl
      · exact ih m hm hpobserves
      · simpa using hpobserves
    | _ => exact observes_merge_of_unpaired hprevious (.tuple core each) id
  | @slots shape id' fields ms mem resolved names each ih =>
    cases previous with
    | slots id ps =>
      by_cases h : id = id'
      · subst h
        rw [merge_slots]
        refine .slots mem resolved ((names_mergeSlots ps ms).trans names) fun f hf => ?_
        have hname : f.attr ∈ Entries.names ms := names ▸ List.mem_map_of_mem hf
        rw [inSlot_mergeSlots ps hname]
        exact ih f hf ((hprevious.of_slots resolved).2 f hf)
      · exact observes_merge_of_unpaired hprevious (.slots mem resolved names each) h
    | _ => exact observes_merge_of_unpaired hprevious (.slots mem resolved names each) id

theorem keeps_merge_of_unpaired {shape : Shape} {previous current : Value}
    (hprevious : Observes ds shape previous) (h : ¬ Paired previous current) :
    Keeps previous (merge previous current) := by
  by_cases hknown : current = .unknown
  · rw [hknown, merge_unknown]
    exact hprevious.keeps
  · rw [merge_of_unpaired h hknown]
    exact .other h hknown

/-- A join keeps the earlier one of two snapshots of a shape. -/
theorem keeps_merge {shape : Shape} {previous current : Value}
    (hprevious : Observes ds shape previous) (hcurrent : Observes ds shape current) :
    Keeps previous (merge previous current) := by
  induction hcurrent generalizing previous with
  | unknown shape => simpa using hprevious.keeps
  | null optional =>
    apply keeps_merge_of_unpaired hprevious
    intro h
    cases hasParts_of_paired h
  | @leaf shape v isLeaf whole =>
    apply keeps_merge_of_unpaired hprevious
    intro h
    exact absurd (hasParts_of_paired h) (by simp [whole])
  | @tuple shape item container constraints ms core each ih =>
    cases previous with
    | tuple ps =>
      rw [merge_tuple]
      refine .tuple (by rw [length_mergeItems]; omega) fun index hindex => ?_
      rw [atIndex_mergeItems]
      have hp := hprevious.of_tuple core _ (atIndex_mem hindex)
      by_cases hm : index < ms.length
      · exact ih _ (atIndex_mem hm) hp
      · rw [atIndex_of_le (Nat.not_lt.mp hm), merge_unknown]
        exact hp.keeps
    | _ => exact keeps_merge_of_unpaired hprevious id
  | @slots shape id' fields ms mem resolved names each ih =>
    cases previous with
    | slots id ps =>
      by_cases h : id = id'
      · subst h
        rw [merge_slots]
        obtain ⟨hnames, hparts⟩ := hprevious.of_slots resolved
        have hsame : Entries.names ms = Entries.names ps := names.trans hnames.symm
        refine .slots ((names_mergeSlots ps ms).trans hsame) fun name => ?_
        by_cases hname : name ∈ Entries.names ms
        · rw [inSlot_mergeSlots ps hname]
          rw [names] at hname
          obtain ⟨f, hf, rfl⟩ := List.mem_map.mp hname
          exact ih f hf (hparts f hf)
        · rw [inSlot_of_not_mem (hsame ▸ hname)]
          exact .unknown _
      · exact keeps_merge_of_unpaired hprevious h
    | _ => exact keeps_merge_of_unpaired hprevious id

end Snapshot

end StructuredOutput

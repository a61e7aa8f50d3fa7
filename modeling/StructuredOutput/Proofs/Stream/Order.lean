import StructuredOutput.Proofs.Stream.Keeps

/-!
The order in which snapshots grow, and that joining a snapshot with one above it yields the latter.
-/

namespace StructuredOutput

variable {ds : Declarations}

namespace Value

/-- What a snapshot may grow to: a text goes on, an array gets more items, and a record knows more in
its slots. Nothing else changes once it is known. -/
inductive Le : Value → Value → Prop
  | unknown (later : Value) : Le .unknown later
  | same (v : Value) : Le v v
  | text {s t : String} (h : s.toList <+: t.toList) : Le (.text s) (.text t)
  | tuple {ps ms : List Value} (longer : ps.length ≤ ms.length)
      (each : ∀ index < ps.length, Le (atIndex ps index) (atIndex ms index)) :
      Le (.tuple ps) (.tuple ms)
  | slots {id : String} {ps ms : List (String × Value)}
      (names : Entries.names ms = Entries.names ps)
      (each : ∀ name, Le (inSlot ps name) (inSlot ms name)) : Le (.slots id ps) (.slots id ms)

theorem isUnknown_eq_false {v : Value} : v.isUnknown = false ↔ v ≠ .unknown := by
  cases v <;> simp [isUnknown]

theorem Le.ne_unknown {p m : Value} (h : Le p m) (hknown : p ≠ .unknown) : m ≠ .unknown := by
  cases h with
  | unknown => exact absurd rfl hknown
  | same => exact hknown
  | text | tuple | slots => simp

theorem le_unknown {p : Value} (h : Le p .unknown) : p = .unknown := by
  cases h <;> rfl

end Value

open Value

/-! ### Joins -/

namespace Snapshot

theorem mergeSlots_eq {ps ms : List (String × Value)} (hnodup : (Entries.names ms).Nodup)
    (each : ∀ name ∈ Entries.names ms, merge (inSlot ps name) (inSlot ms name) = inSlot ms name) :
    mergeSlots ps ms = ms := by
  induction ms with
  | nil => simp [mergeSlots]
  | cons m ms ih =>
    obtain ⟨n, v⟩ := m
    rw [Entries.names_cons, List.nodup_cons] at hnodup
    have hhead := each n List.mem_cons_self
    rw [inSlot_of_get? (Entries.get?_cons_self n v ms)] at hhead
    have htail (name : String) (hname : name ∈ Entries.names ms) :
        inSlot ((n, v) :: ms) name = inSlot ms name := by
      have hne : n ≠ name := by
        rintro rfl
        exact hnodup.1 hname
      rw [inSlot, Entries.get?_cons_of_ne v ms hne, inSlot]
    have hrest := ih hnodup.2 fun name hname => by
      rw [← htail name hname]
      exact each name (List.mem_cons_of_mem n hname)
    rw [mergeSlots, hrest]
    exact congrArg (fun w => (n, w) :: ms) hhead

theorem mergeItems_eq {ps ms : List Value} (hlength : ps.length ≤ ms.length)
    (each : ∀ index < ms.length, merge (atIndex ps index) (atIndex ms index) = atIndex ms index) :
    mergeItems ps ms = ms := by
  induction ms generalizing ps with
  | nil =>
    obtain rfl := List.length_eq_zero_iff.mp (Nat.le_zero.mp hlength)
    simp [mergeItems]
  | cons m ms ih =>
    cases ps with
    | nil => simp [mergeItems]
    | cons p ps =>
      have hhead := each 0 (Nat.zero_lt_succ _)
      have hrest := ih (Nat.le_of_succ_le_succ hlength) fun index hindex => by
        simpa using each (index + 1) (Nat.succ_lt_succ hindex)
      rw [mergeItems, hrest]
      simpa using hhead

/-- Joining a snapshot with what it has grown to yields the latter. -/
theorem merge_of_le {shape : Shape} {previous current : Value} (hcurrent : Observes ds shape current)
    (h : Le previous current) : merge previous current = current := by
  induction hcurrent generalizing previous with
  | unknown =>
    rw [le_unknown h]
    exact merge_unknown _
  | null =>
    cases h with
    | unknown => exact unknown_merge _
    | same => exact merge_of_unpaired (fun hpaired => hpaired) (by simp)
  | @leaf shape v isLeaf whole =>
    by_cases hknown : v = .unknown
    · subst hknown
      rw [le_unknown h]
      exact merge_unknown _
    · apply merge_of_unpaired _ hknown
      intro hpaired
      rw [hasParts_of_paired hpaired] at whole
      cases whole
  | @tuple shape item container constraints ms core each ih =>
    have hitems {ps : List Value} (hlength : ps.length ≤ ms.length)
        (hparts : ∀ index < ps.length, Le (atIndex ps index) (atIndex ms index)) :
        merge (.tuple ps) (.tuple ms) = .tuple ms := by
      rw [merge_tuple, mergeItems_eq hlength]
      intro index hindex
      by_cases hp : index < ps.length
      · exact ih _ (atIndex_mem hindex) (hparts index hp)
      -- the earlier snapshot does not have the item yet
      · rw [atIndex_of_le (Nat.not_lt.mp hp), unknown_merge]
    cases h with
    | unknown => exact unknown_merge _
    | same => exact hitems (Nat.le_refl _) fun index _ => .same _
    | tuple longer hparts => exact hitems longer hparts
  | @slots shape id fields ms mem resolved names each ih =>
    have hnodup : (Entries.names ms).Nodup := by
      rw [names]
      exact (Declarations.fielded_of_fieldShapes resolved).attrs_nodup
    have hslots {ps : List (String × Value)}
        (hparts : ∀ name, Le (inSlot ps name) (inSlot ms name)) :
        merge (.slots id ps) (.slots id ms) = .slots id ms := by
      rw [merge_slots, mergeSlots_eq hnodup]
      intro name hname
      rw [names] at hname
      obtain ⟨f, hf, rfl⟩ := List.mem_map.mp hname
      exact ih f hf (hparts f.attr)
    cases h with
    | unknown => exact unknown_merge _
    | same => exact hslots fun name => .same _
    | slots _ hparts => exact hslots hparts

end Snapshot

end StructuredOutput

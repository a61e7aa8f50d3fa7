import StructuredOutput.Proofs.Entries
import StructuredOutput.Stream.Snapshot

/-!
How two snapshots join: nothing is added to what is not known, slots join name by name and items
place by place, and of values that do not match the later one remains.
-/

namespace StructuredOutput

namespace Value

/-- What is known in a slot. -/
def inSlot (fields : List (String × Value)) (name : String) : Value :=
  (Entries.get? fields name).getD .unknown

/-- What is known of an item. -/
def atIndex (items : List Value) (index : Nat) : Value := items[index]?.getD .unknown

/-- Whether values are joined part by part: slots of one record, or the items of arrays. -/
def Paired : Value → Value → Prop
  | slots id _, slots id' _ => id = id'
  | tuple _, tuple _ => True
  | _, _ => False

/-- Whether a value has parts of which something can be known. -/
def hasParts : Value → Bool
  | slots _ _ | tuple _ => true
  | _ => false

theorem hasParts_of_paired {p m : Value} (h : Paired p m) : m.hasParts = true := by
  unfold Paired at h
  split at h
  · rfl
  · rfl
  · exact h.elim

theorem inSlot_of_get? {fields : List (String × Value)} {name : String} {v : Value}
    (h : Entries.get? fields name = some v) : inSlot fields name = v := by
  simp [inSlot, h]

theorem inSlot_of_not_mem {fields : List (String × Value)} {name : String}
    (h : name ∉ Entries.names fields) : inSlot fields name = .unknown := by
  simp [inSlot, Entries.get?_eq_none.mpr h]

@[simp] theorem atIndex_nil (index : Nat) : atIndex [] index = .unknown := rfl

@[simp] theorem atIndex_zero (v : Value) (vs : List Value) : atIndex (v :: vs) 0 = v := rfl

@[simp] theorem atIndex_succ (v : Value) (vs : List Value) (index : Nat) :
    atIndex (v :: vs) (index + 1) = atIndex vs index := by
  simp [atIndex]

theorem atIndex_mem {items : List Value} {index : Nat} (h : index < items.length) :
    atIndex items index ∈ items := by
  simp [atIndex, h]

theorem atIndex_of_le {items : List Value} {index : Nat} (h : items.length ≤ index) :
    atIndex items index = .unknown := by
  simp [atIndex, h]

end Value

namespace Snapshot

open Value

@[simp] theorem merge_unknown (v : Value) : merge v .unknown = v := by
  rw [merge]

@[simp] theorem unknown_merge (v : Value) : merge .unknown v = v := by
  cases v <;> simp [merge]

theorem merge_slots (id : String) (ps ms : List (String × Value)) :
    merge (.slots id ps) (.slots id ms) = .slots id (mergeSlots ps ms) := by
  simp [merge]

/-- Of values that are not joined part by part the later one remains, if anything is known of it. -/
theorem merge_of_unpaired {previous current : Value} (h : ¬ Paired previous current)
    (hknown : current ≠ .unknown) : merge previous current = current := by
  unfold merge
  split
  · exact absurd rfl hknown
  · split
    · rw [if_neg]
      intro heq
      exact h (of_decide_eq_true heq).symm
    · rfl
  · split
    · exact absurd trivial h
    · rfl
  · rfl

theorem merge_tuple (ps ms : List Value) :
    merge (.tuple ps) (.tuple ms) = .tuple (mergeItems ps ms) := by
  simp [merge]

/-! ### Slots -/

theorem names_mergeSlots (ps ms : List (String × Value)) :
    Entries.names (mergeSlots ps ms) = Entries.names ms := by
  induction ms with
  | nil => simp [mergeSlots]
  | cons m ms ih =>
    obtain ⟨n, v⟩ := m
    simp [mergeSlots, ih]

theorem get?_mergeSlots (ps ms : List (String × Value)) (name : String) :
    Entries.get? (mergeSlots ps ms) name =
      (Entries.get? ms name).map (merge (inSlot ps name)) := by
  induction ms with
  | nil => simp [mergeSlots, Entries.get?]
  | cons m ms ih =>
    obtain ⟨n, v⟩ := m
    by_cases h : n = name
    · subst h
      simp [mergeSlots, Entries.get?, inSlot]
    · simp [mergeSlots, Entries.get?, h, ih]

/-- A slot that the later snapshot has holds both values joined. -/
theorem inSlot_mergeSlots (ps : List (String × Value)) {ms : List (String × Value)} {name : String}
    (h : name ∈ Entries.names ms) :
    inSlot (mergeSlots ps ms) name = merge (inSlot ps name) (inSlot ms name) := by
  cases hm : Entries.get? ms name with
  | none => exact absurd h (Entries.get?_eq_none.mp hm)
  | some v => simp [inSlot, get?_mergeSlots, hm]

/-! ### Items -/

theorem length_mergeItems (ps ms : List Value) :
    (mergeItems ps ms).length = max ps.length ms.length := by
  induction ps generalizing ms with
  | nil => simp [mergeItems]
  | cons p ps ih =>
    cases ms with
    | nil => simp [mergeItems]
    | cons m ms =>
      simp only [mergeItems, List.length_cons, ih]
      omega

/-- An item that either snapshot has is that of both joined. -/
theorem atIndex_mergeItems (ps ms : List Value) (index : Nat) :
    atIndex (mergeItems ps ms) index = merge (atIndex ps index) (atIndex ms index) := by
  induction ps generalizing ms index with
  | nil => simp [mergeItems]
  | cons p ps ih =>
    cases ms with
    | nil => simp [mergeItems]
    | cons m ms =>
      cases index with
      | zero => simp [mergeItems]
      | succ index => simpa [mergeItems] using ih ms index

theorem mem_mergeItems {ps ms : List Value} {v : Value} (h : v ∈ mergeItems ps ms) :
    ∃ p m, (p ∈ ps ∨ p = .unknown) ∧ (m ∈ ms ∨ m = .unknown) ∧ v = merge p m := by
  induction ps generalizing ms with
  | nil => exact ⟨.unknown, v, .inr rfl, .inl (by simpa [mergeItems] using h), by simp⟩
  | cons p ps ih =>
    cases ms with
    | nil => exact ⟨v, .unknown, .inl (by simpa [mergeItems] using h), .inr rfl, by simp⟩
    | cons m ms =>
      simp only [mergeItems, List.mem_cons] at h
      rcases h with rfl | h
      · exact ⟨p, m, .inl List.mem_cons_self, .inl List.mem_cons_self, rfl⟩
      · obtain ⟨p', m', hp, hm, rfl⟩ := ih h
        exact ⟨p', m', hp.imp_left (List.mem_cons_of_mem p), hm.imp_left (List.mem_cons_of_mem m),
          rfl⟩

end Snapshot

end StructuredOutput

import Mathlib.Tactic.Common
import StructuredOutput.Content
import StructuredOutput.Proofs.Entries

/-!
The members of content trees: induction over trees, how deep members are nested, and whether the
keys of the objects among them differ.
-/

namespace StructuredOutput.Content

/-- What holds of a container when it holds of its members, and of everything else, holds of every
tree. -/
theorem members_induction {P : Content → Prop} (null : P null) (bool : ∀ b, P (bool b))
    (number : ∀ x, P (number x)) (string : ∀ s, P (string s))
    (array : ∀ items, (∀ c ∈ items, P c) → P (array items))
    (object : ∀ entries, (∀ e ∈ entries, P e.2) → P (object entries)) (c : Content) : P c := by
  match c with
  | .null => exact null
  | .bool b => exact bool b
  | .number x => exact number x
  | .string s => exact string s
  | .array items =>
    exact array items fun c _ => members_induction null bool number string array object c
  | .object entries =>
    exact object entries fun (_, c) _ =>
      members_induction null bool number string array object c
termination_by sizeOf c
decreasing_by
  · next hc =>
    have := List.sizeOf_lt_of_mem hc
    simp only [Content.array.sizeOf_spec]
    omega
  · next he =>
    have := List.sizeOf_lt_of_mem he
    simp only [Prod.mk.sizeOf_spec] at this
    simp only [Content.object.sizeOf_spec]
    omega

/-- The items of an array. -/
def items : Content → List Content
  | .array items => items
  | _ => []

/-- The entries of an object. -/
def entries : Content → List (String × Content)
  | .object entries => entries
  | _ => []

/-- The items of an array and the values of an object. -/
def parts : Content → List Content
  | .array items => items
  | .object entries => entries.map (·.2)
  | _ => []

/-- What holds of content whenever it holds of its parts holds of every tree. -/
theorem parts_induction {P : Content → Prop} (h : ∀ c, (∀ part ∈ c.parts, P part) → P c)
    (c : Content) : P c := by
  induction c using members_induction with
  | array items ih => exact h _ ih
  | object entries ih => exact h _ (List.forall_mem_map.mpr ih)
  | _ => exact h _ fun part hpart => absurd hpart List.not_mem_nil

/-- Nothing in content is null, itself included. -/
inductive NullFree : Content → Prop
  | intro {c : Content} (here : c ≠ null) (below : ∀ part ∈ c.parts, NullFree part) : NullFree c

theorem NullFree.ne_null {c : Content} (h : c.NullFree) : c ≠ null := by
  cases h with
  | intro here => exact here

theorem NullFree.part {c part : Content} (h : c.NullFree) (hpart : part ∈ c.parts) :
    part.NullFree := by
  cases h with
  | intro _ below => exact below part hpart

theorem nullFree_array {items : List Content} :
    (array items).NullFree ↔ ∀ c ∈ items, c.NullFree :=
  ⟨fun h _ hc => h.part hc, fun h => .intro (fun heq => by cases heq) h⟩

theorem nullFree_object {entries : List (String × Content)} :
    (object entries).NullFree ↔ ∀ e ∈ entries, e.2.NullFree :=
  ⟨fun h _ he => h.part (List.mem_map_of_mem he),
    fun h => .intro (fun heq => by cases heq) (List.forall_mem_map.mpr h)⟩

/-- Whether content has no parts. -/
def isScalar : Content → Bool
  | .array _ | .object _ => false
  | _ => true

/-! ### Keys -/

mutual

/-- No object repeats a key. -/
def KeysDiffer : Content → Prop
  | null | bool _ | number _ | string _ => True
  | array items => ItemsDiffer items
  | object entries => (Entries.names entries).Nodup ∧ EntriesDiffer entries

def ItemsDiffer : List Content → Prop
  | [] => True
  | c :: cs => KeysDiffer c ∧ ItemsDiffer cs

def EntriesDiffer : List (String × Content) → Prop
  | [] => True
  | (_, c) :: cs => KeysDiffer c ∧ EntriesDiffer cs

end

theorem itemsDiffer_iff {cs : List Content} : ItemsDiffer cs ↔ ∀ c ∈ cs, c.KeysDiffer := by
  induction cs with
  | nil => simp [ItemsDiffer]
  | cons c cs ih => simp [ItemsDiffer, ih]

theorem entriesDiffer_iff {es : List (String × Content)} :
    EntriesDiffer es ↔ ∀ e ∈ es, e.2.KeysDiffer := by
  induction es with
  | nil => simp [EntriesDiffer]
  | cons e es ih =>
    obtain ⟨k, c⟩ := e
    simp [EntriesDiffer, ih]

/-! ### Depth -/

mutual

/-- How deep arrays and objects are nested. -/
def depth : Content → Nat
  | null | bool _ | number _ | string _ => 0
  | array items => itemsDepth items + 1
  | object entries => entriesDepth entries + 1

def itemsDepth : List Content → Nat
  | [] => 0
  | c :: cs => max (depth c) (itemsDepth cs)

def entriesDepth : List (String × Content) → Nat
  | [] => 0
  | (_, c) :: cs => max (depth c) (entriesDepth cs)

end

theorem depth_le_itemsDepth {cs : List Content} {c : Content} (h : c ∈ cs) :
    c.depth ≤ itemsDepth cs := by
  induction cs with
  | nil => cases h
  | cons d cs ih =>
    rw [itemsDepth]
    rcases List.mem_cons.mp h with rfl | h
    · exact Nat.le_max_left _ _
    · exact Nat.le_trans (ih h) (Nat.le_max_right _ _)

theorem depth_le_entriesDepth {es : List (String × Content)} {e : String × Content} (h : e ∈ es) :
    e.2.depth ≤ entriesDepth es := by
  induction es with
  | nil => cases h
  | cons d es ih =>
    obtain ⟨k, c⟩ := d
    rw [entriesDepth]
    rcases List.mem_cons.mp h with rfl | h
    · exact Nat.le_max_left _ _
    · exact Nat.le_trans (ih h) (Nat.le_max_right _ _)

/-! ### JSON data -/

theorem toItems_eq_map (items : List Content) : toItems items = items.map toJson := by
  induction items with
  | nil => rfl
  | cons c cs ih => rw [toItems, ih, List.map_cons]

theorem toEntries_eq_map (entries : List (String × Content)) :
    toEntries entries = entries.map fun e => (e.1, e.2.toJson) := by
  induction entries with
  | nil => rfl
  | cons e entries ih => rw [toEntries, ih, List.map_cons]

theorem names_toEntries (entries : List (String × Content)) :
    Entries.names (toEntries entries) = Entries.names entries := by
  simp [toEntries_eq_map, Entries.names]

end StructuredOutput.Content

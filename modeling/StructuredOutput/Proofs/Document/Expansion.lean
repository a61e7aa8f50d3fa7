import StructuredOutput.Proofs.Document.Members

/-!
Documents with their references replaced by the definitions that they refer to. What is written
beside a reference goes over the members of the definition. Schemas stand under three keywords
only, and all other members stay as they are.
-/

namespace StructuredOutput.Document

/-! ### Equal data -/

/-- Equal JSON data: numbers by value, everything else as it is written. Members of objects are in
the same order. -/
inductive Alike : Json → Json → Prop
  | refl (j : Json) : Alike j j
  | number {a b : Json} {units : Int} (left : numberUnits? a = some units)
      (right : numberUnits? b = some units) : Alike a b
  | array {items items' : List Json} (each : List.Forall₂ Alike items items') :
      Alike (.array items) (.array items')
  | object {members members' : Members} (names : Entries.names members = Entries.names members')
      (each : List.Forall₂ Alike (members.map (·.2)) (members'.map (·.2))) :
      Alike (.object members) (.object members')

/-- Equal members in the same order. -/
def MembersAlike (members members' : Members) : Prop :=
  List.Forall₂ (fun e f => e.1 = f.1 ∧ Alike e.2 f.2) members members'

variable {members members' target : Members} {st : Style} {key : String} {value value' : Json}

namespace Alike

theorem string_iff {a b : Json} (h : Alike a b) (s : String) : a = .string s ↔ b = .string s := by
  cases h with
  | refl => rfl
  | number left right =>
    constructor
    · rintro rfl
      cases left
    · rintro rfl
      cases right
  | array | object =>
    constructor
    · intro h
      cases h
    · intro h
      cases h

theorem array_left {items : List Json} {b : Json} (h : Alike (.array items) b) :
    ∃ items', b = .array items' ∧ List.Forall₂ Alike items items' := by
  cases h with
  | refl => exact ⟨items, rfl, List.forall₂_same.mpr fun j _ => .refl j⟩
  | number left => cases left
  | array each => exact ⟨_, rfl, each⟩

theorem array_right {items' : List Json} {a : Json} (h : Alike a (.array items')) :
    ∃ items, a = .array items ∧ List.Forall₂ Alike items items' := by
  cases h with
  | refl => exact ⟨items', rfl, List.forall₂_same.mpr fun j _ => .refl j⟩
  | number _ right => cases right
  | array each => exact ⟨_, rfl, each⟩

end Alike

theorem Alike.of_members (h : MembersAlike members members') :
    Alike (.object members) (.object members') := by
  refine .object ?_ (List.forall₂_map_left_iff.mpr (List.forall₂_map_right_iff.mpr ?_))
  · induction h with
    | nil => rfl
    | cons he _ ih => rw [Entries.names_cons, Entries.names_cons, he.1, ih]
  · exact h.imp fun _ _ he => he.2

namespace MembersAlike

theorem refl (members : Members) : MembersAlike members members :=
  List.forall₂_same.mpr fun e _ => ⟨rfl, .refl e.2⟩

theorem append {more more' : Members} (h : MembersAlike members members')
    (hmore : MembersAlike more more') : MembersAlike (members ++ more) (members' ++ more') :=
  List.rel_append h hmore

theorem put (h : MembersAlike members members') (key : String) (hvalue : Alike value value') :
    MembersAlike (Entries.put members key value) (Entries.put members' key value') := by
  induction h with
  | nil => exact .cons ⟨rfl, hvalue⟩ .nil
  | @cons e f rest rest' he hrest ih =>
    obtain ⟨k, v⟩ := e
    obtain ⟨l, w⟩ := f
    obtain ⟨rfl, hvw⟩ := he
    by_cases hk : k = key
    · simpa [Entries.put, hk] using .cons ⟨rfl, hvalue⟩ hrest
    · simpa [Entries.put, hk] using .cons ⟨rfl, hvw⟩ ih

theorem get? (h : MembersAlike members members') (key : String) :
    Option.Rel Alike (Entries.get? members key) (Entries.get? members' key) := by
  induction h with
  | nil => exact .none
  | @cons e f rest rest' he hrest ih =>
    obtain ⟨k, v⟩ := e
    obtain ⟨l, w⟩ := f
    obtain ⟨rfl, hvw⟩ := he
    by_cases hk : k = key
    · simpa [Entries.get?, hk] using hvw
    · simpa [Entries.get?, hk] using ih

theorem describe (h : MembersAlike members members') (description : Option String) :
    MembersAlike (st.describe members description) (st.describe members' description) := by
  unfold Style.describe
  split
  · split
    · exact h.put "description" (.refl _)
    · exact h
  · exact h

end MembersAlike

/-! ### Replacing references -/

/-- Changes a schema, if that is an object. -/
def atSchema (change : Members → Members) : Json → Json
  | .object members => .object (change members)
  | j => j

/-- Changes the schemas in the value of a keyword. -/
def inKeyword (change : Members → Members) (key : String) (value : Json) : Json :=
  match key, value with
  | "items", schema => atSchema change schema
  | "anyOf", .array schemas => .array (schemas.map (atSchema change))
  | "properties", .object properties =>
    .object (properties.map fun e => (e.1, atSchema change e.2))
  | _, value => value

/-- Changes the schemas in the values of all members. -/
def inKeywords (change : Members → Members) (members : Members) : Members :=
  members.map fun e => (e.1, inKeyword change e.1 e.2)

/-- The definition that a schema refers to. -/
def definition? (document members : Members) : Option Members :=
  match Entries.get? members "$ref" with
  | some (.string pointer) =>
    if pointer = "#" then none
    else
      match target? document pointer with
      | some (.object target) => some target
      | _ => none
  | _ => none

/-- A schema with references to definitions of a document replaced, as far as they are no more than
`depth` levels deep: the members of the definition, over which the members beside the reference
are put. -/
def expand (document : Members) : (depth : Nat) → Members → Members
  | 0, members => members
  | depth + 1, members =>
    match definition? document members with
    | some target => Entries.putAll (expand document depth target) (Entries.erase members "$ref")
    | none => inKeywords (expand document depth) members

/-- A document without definitions, references to them replaced to a depth. -/
def withoutDefinitions (depth : Nat) (document : Members) : Members :=
  expand document depth (Entries.erase document "$defs")

/-! ### What replacing leaves alone -/

variable {document : Members} {change : Members → Members} {depth : Nat}

/-- Keys under which no schema stands and which are no reference. -/
structure Inert (key : String) : Prop where
  ref : key ≠ "$ref"
  items : key ≠ "items"
  anyOf : key ≠ "anyOf"
  properties : key ≠ "properties"

instance (key : String) : Decidable (Inert key) :=
  decidable_of_iff (key ≠ "$ref" ∧ key ≠ "items" ∧ key ≠ "anyOf" ∧ key ≠ "properties")
    ⟨fun ⟨ref, items, anyOf, properties⟩ => ⟨ref, items, anyOf, properties⟩,
      fun ⟨ref, items, anyOf, properties⟩ => ⟨ref, items, anyOf, properties⟩⟩

theorem Inert.inKeyword (h : Inert key) (value : Json) :
    Document.inKeyword change key value = value := by
  unfold Document.inKeyword
  split
  · exact absurd rfl h.items
  · exact absurd rfl h.anyOf
  · exact absurd rfl h.properties
  · rfl

@[simp] theorem inKeywords_nil : inKeywords change [] = [] := rfl

theorem inKeywords_append (members more : Members) :
    inKeywords change (members ++ more) = inKeywords change members ++ inKeywords change more :=
  List.map_append

theorem inKeywords_inert (h : ∀ e ∈ members, Inert e.1) : inKeywords change members = members := by
  refine (List.map_congr_left fun e he => ?_).trans (List.map_id members)
  rw [(h e he).inKeyword]
  rfl

theorem inKeywords_put (h : Inert key) (members : Members) (value : Json) :
    inKeywords change (Entries.put members key value) =
      Entries.put (inKeywords change members) key value := by
  induction members with
  | nil => simp [inKeywords, Entries.put, h.inKeyword]
  | cons e members ih =>
    obtain ⟨k, v⟩ := e
    by_cases hk : k = key
    · subst hk
      simp [inKeywords, Entries.put, h.inKeyword]
    · have hne : (k == key) = false := by simpa using hk
      simp only [inKeywords, Entries.put, hne, Bool.false_eq_true, ↓reduceIte,
        List.map_cons] at ih ⊢
      rw [ih]

theorem inKeywords_putIf (h : Inert key) (members : Members) (value : Option Json) :
    inKeywords change (putIf members key value) = putIf (inKeywords change members) key value := by
  cases value with
  | none => rfl
  | some value => exact inKeywords_put h members value

theorem inKeywords_describe (members : Members) (description : Option String) :
    inKeywords change (st.describe members description) =
      st.describe (inKeywords change members) description := by
  unfold Style.describe
  split
  · split
    · exact inKeywords_put (by decide) members _
    · rfl
  · rfl

theorem inKeywords_rules (members : Members) (rules : List TextRule) :
    inKeywords change (rules.foldl putRule members) =
      rules.foldl putRule (inKeywords change members) := by
  induction rules generalizing members with
  | nil => rfl
  | cons rule rules ih =>
    rw [List.foldl_cons, ih, List.foldl_cons]
    congr 1
    cases rule with
    | pattern | constant | oneOf => exact inKeywords_put (by decide) members _
    | length => rw [putRule, inKeywords_putIf (by decide), inKeywords_putIf (by decide), putRule]

theorem inKeywords_ranges (members : Members) (ranges : List Range) :
    inKeywords change (ranges.foldl putRange members) =
      ranges.foldl putRange (inKeywords change members) := by
  induction ranges generalizing members with
  | nil => rfl
  | cons r ranges ih =>
    rw [List.foldl_cons, ih, List.foldl_cons, putRange, inKeywords_putIf (by decide),
      inKeywords_putIf (by decide), putRange]

theorem inKeywords_counts (members : Members) (counts : List Span) :
    inKeywords change (counts.foldl putCount members) =
      counts.foldl putCount (inKeywords change members) := by
  induction counts generalizing members with
  | nil => rfl
  | cons span counts ih =>
    rw [List.foldl_cons, ih, List.foldl_cons, putCount, inKeywords_putIf (by decide),
      inKeywords_putIf (by decide), putCount]

theorem get?_inKeywords (h : Inert key) (members : Members) :
    Entries.get? (inKeywords change members) key = Entries.get? members key := by
  induction members with
  | nil => rfl
  | cons e members ih =>
    obtain ⟨k, v⟩ := e
    by_cases hk : k = key
    · subst hk
      simp [inKeywords, Entries.get?, h.inKeyword]
    · simpa [inKeywords, Entries.get?, hk] using ih

/-! ### Refinements of equal data -/

theorem alike_bound {a b : Bound} (h : a.same b = true) : Alike (bound a) (bound b) := by
  have hunits (b : Bound) : numberUnits? (bound b) = some b.units := by cases b <;> rfl
  exact .number (hunits a) ((hunits b).trans (congrArg some (eq_of_beq h).symm))

theorem alike_putBound (h : MembersAlike members members') (key : String) {a b : Option Bound}
    (hbound : sameBound a b = true) :
    MembersAlike (putIf members key (a.map bound)) (putIf members' key (b.map bound)) := by
  match a, b with
  | none, none => exact h
  | some a, some b => exact h.put key (alike_bound hbound)
  | none, some _ | some _, none => cases hbound

theorem alike_ranges {ranges ranges' : List Range}
    (hranges : List.Forall₂ (fun r r' => r.same r' = true) ranges ranges')
    (h : MembersAlike members members') :
    MembersAlike (ranges.foldl putRange members) (ranges'.foldl putRange members') := by
  induction hranges generalizing members members' with
  | nil => exact h
  | cons hr _ ih =>
    rw [Range.same, Bool.and_eq_true] at hr
    exact ih (alike_putBound (alike_putBound h "minimum" hr.1) "maximum" hr.2)

theorem alike_putCount (h : MembersAlike members members') (key : String) (n : Option Nat) :
    MembersAlike (putIf members key (n.map count)) (putIf members' key (n.map count)) := by
  cases n with
  | none => exact h
  | some n => exact h.put key (.refl _)

theorem alike_counts (counts : List Span) (h : MembersAlike members members') :
    MembersAlike (counts.foldl putCount members) (counts.foldl putCount members') := by
  induction counts generalizing members members' with
  | nil => exact h
  | cons span counts ih =>
    exact ih (alike_putCount (alike_putCount h "minItems" span.lower) "maxItems" span.upper)

/-! ### Documents that allow null -/

/-- The type of a schema that has one and is no object. -/
def simpleType? (members : Members) : Option String :=
  match Entries.get? members "type" with
  | some (.string kind) => if kind = "object" then none else some kind
  | _ => none

/-- A schema of a type that allows null besides. -/
def widen (members : Members) (kind : String) : Members :=
  let widened := Entries.put members "type" (.array [.string kind, .string "null"])
  match Entries.get? members "enum" with
  | some (.array options) => Entries.put widened "enum" (.array (options ++ [.null]))
  | _ => widened

theorem nullable_eq (members : Members) : nullable members =
    match simpleType? members with
    | some kind => widen members kind
    | none => nullable.either members := by
  cases htype : Entries.get? members "type" with
  | none => simp [nullable, simpleType?, htype]
  | some j =>
    cases j with
    | string kind =>
      by_cases hkind : kind = "object"
      · simp [nullable, simpleType?, htype, hkind]
      · have hsimple : simpleType? members = some kind := by simp [simpleType?, htype, hkind]
        rw [hsimple]
        simp only [nullable, htype, hkind, ↓reduceIte]
        rfl
    | _ => simp [nullable, simpleType?, htype]

theorem simpleType?_eq_of_get? (h : Entries.get? members "type" = Entries.get? members' "type") :
    simpleType? members = simpleType? members' := by
  rw [simpleType?, simpleType?, h]

theorem MembersAlike.simpleType?_eq (h : MembersAlike members members') :
    simpleType? members = simpleType? members' := by
  have hrel := h.get? "type"
  unfold simpleType?
  generalize Entries.get? members "type" = a at hrel
  generalize Entries.get? members' "type" = b at hrel
  cases hrel with
  | none => rfl
  | @some j j' halike =>
    cases j with
    | string s => rw [(halike.string_iff s).mp rfl]
    | _ =>
      cases j' with
      | string s => cases (halike.string_iff s).mpr rfl
      | _ => rfl

theorem MembersAlike.widen (h : MembersAlike members members') (kind : String) :
    MembersAlike (Document.widen members kind) (Document.widen members' kind) := by
  have htype := h.put "type" (.refl (.array [.string kind, .string "null"]))
  have hrel := h.get? "enum"
  unfold Document.widen
  dsimp only
  generalize Entries.get? members "enum" = a at hrel
  generalize Entries.get? members' "enum" = b at hrel
  cases hrel with
  | none => exact htype
  | @some j j' halike =>
    cases j with
    | array options =>
      obtain ⟨options', rfl, hoptions⟩ := halike.array_left
      exact htype.put "enum" (.array (List.rel_append hoptions (.cons (.refl _) .nil)))
    | _ =>
      cases j' with
      | array options =>
        obtain ⟨_, hoptions, -⟩ := halike.array_right
        cases hoptions
      | _ => exact htype

theorem inKeywords_widen (members : Members) (kind : String) :
    inKeywords change (widen members kind) = widen (inKeywords change members) kind := by
  unfold widen
  dsimp only
  rw [get?_inKeywords (by decide)]
  split
  · rw [inKeywords_put (by decide), inKeywords_put (by decide)]
  · exact inKeywords_put (by decide) members _

theorem get?_widen {kind : String} (htype : key ≠ "type") (henum : key ≠ "enum") :
    Entries.get? (widen members kind) key = Entries.get? members key := by
  unfold widen
  dsimp only
  split
  · rw [Entries.get?_put_of_ne _ _ henum, Entries.get?_put_of_ne _ _ htype]
  · exact Entries.get?_put_of_ne _ _ htype

/-! ### Documents without a reference at the top -/

theorem definition?_of_unreferring (h : Entries.get? members "$ref" = none) :
    definition? document members = none := by
  rw [definition?, h]

theorem expand_succ (h : Entries.get? members "$ref" = none) (document : Members) (depth : Nat) :
    expand document (depth + 1) members = inKeywords (expand document depth) members := by
  rw [expand, definition?_of_unreferring h]

theorem get?_expand (h : Entries.get? members "$ref" = none) (hkey : Inert key) :
    Entries.get? (expand document depth members) key = Entries.get? members key := by
  cases depth with
  | zero => rfl
  | succ depth => rw [expand_succ h, get?_inKeywords hkey]

theorem expand_describe (h : Entries.get? members "$ref" = none) (description : Option String) :
    expand document depth (st.describe members description) =
      st.describe (expand document depth members) description := by
  cases depth with
  | zero => rfl
  | succ depth =>
    rw [expand_succ ((get?_describe (by decide)).trans h), expand_succ h, inKeywords_describe]

theorem expand_widen (h : Entries.get? members "$ref" = none) (kind : String) :
    expand document depth (widen members kind) = widen (expand document depth members) kind := by
  cases depth with
  | zero => rfl
  | succ depth =>
    rw [expand_succ ((get?_widen (by decide) (by decide)).trans h), expand_succ h,
      inKeywords_widen]

theorem expand_null (document : Members) (depth : Nat) :
    expand document depth [("type", .string "null")] = [("type", .string "null")] := by
  cases depth with
  | zero => rfl
  | succ depth => rw [expand_succ rfl, inKeywords_inert (by decide)]

theorem expand_either (document : Members) (depth : Nat) (members : Members) :
    expand document (depth + 1) (nullable.either members) =
      nullable.either (expand document depth members) := by
  rw [expand_succ rfl]
  change [("anyOf", Json.array [.object (expand document depth members),
    .object (expand document depth [("type", .string "null")])])] = _
  rw [expand_null]
  rfl

/-! ### What stands for a schema -/

/-- A document stands for another one from a depth on: it is that one when it is expanded, or it is
a reference to what is that one when it is expanded. -/
inductive Stands (document : Members) (least : Nat) : Members → Members → Prop
  | written {members full : Members} (unreferring : Entries.get? members "$ref" = none)
      (each : ∀ depth, least ≤ depth → MembersAlike (expand document depth members) full) :
      Stands document least members full
  | pointer {name : String} {target full : Members}
      (found : target? document ("#/$defs/" ++ name) = some (.object target))
      (each : ∀ depth, least ≤ depth → MembersAlike (expand document depth target) full)
      (compound : simpleType? full = none) :
      Stands document least [("$ref", .string ("#/$defs/" ++ name))] full

theorem expand_pointer {name : String}
    (found : target? document ("#/$defs/" ++ name) = some (.object target))
    (description : Option String) :
    expand document (depth + 1)
        (st.describe [("$ref", .string ("#/$defs/" ++ name))] description) =
      st.describe (expand document depth target) description := by
  have hdefinition : definition? document
      (st.describe [("$ref", .string ("#/$defs/" ++ name))] description) = some target := by
    rw [definition?, get?_describe (by decide), Entries.get?_cons_self]
    dsimp only
    rw [if_neg (definition_ne_root name), found]
  rw [expand, hdefinition]
  dsimp only
  unfold Style.describe
  split
  · split <;> rfl
  · rfl

namespace Stands

variable {least : Nat} {full : Members}

/-- A description goes to the document that stands for a schema. -/
theorem describe (h : Stands document least members full) (description : Option String)
    (hdepth : least + 1 ≤ depth) :
    MembersAlike (expand document depth (st.describe members description))
      (st.describe full description) := by
  cases h with
  | written unreferring each =>
    rw [expand_describe unreferring]
    exact (each depth (by omega)).describe description
  | pointer found each =>
    obtain ⟨below, rfl⟩ : ∃ below, depth = below + 1 := ⟨depth - 1, by omega⟩
    rw [expand_pointer found]
    exact (each below (by omega)).describe description

theorem alike (h : Stands document least members full) (hdepth : least + 1 ≤ depth) :
    MembersAlike (expand document depth members) full :=
  let undescribed : Style := ⟨.jsonSchema, false, none, [], false⟩
  have hplain : MembersAlike (expand document depth (undescribed.describe members none))
      (undescribed.describe full none) := h.describe none hdepth
  hplain

theorem either (h : Stands document least members full) :
    Stands document (least + 2) (nullable.either members) (nullable.either full) := by
  refine .written rfl fun depth hdepth => ?_
  obtain ⟨below, rfl⟩ : ∃ below, depth = below + 1 := ⟨depth - 1, by omega⟩
  rw [expand_either]
  have hbelow : MembersAlike (expand document below members) full := h.alike (by omega)
  exact .cons ⟨rfl, .array (.cons (.of_members hbelow) (.cons (.refl _) .nil))⟩ .nil

/-- What allows null besides a document that stands for a schema stands for what allows null
besides the schema. -/
theorem nullable (h : Stands document least members full) :
    Stands document (least + 2) (nullable members) (nullable full) := by
  cases h with
  | written unreferring each =>
    have hsimple : simpleType? full = simpleType? members :=
      (each least (Nat.le_refl least)).simpleType?_eq.symm.trans
        (simpleType?_eq_of_get? (get?_expand unreferring (by decide)))
    rw [nullable_eq, nullable_eq, hsimple]
    cases simpleType? members with
    | none => exact (Stands.written unreferring each).either
    | some kind =>
      have hwidened : Entries.get? (widen members kind) "$ref" = none :=
        (get?_widen (by decide) (by decide)).trans unreferring
      refine .written hwidened fun depth hdepth => ?_
      rw [expand_widen unreferring]
      exact (each depth (by omega)).widen kind
  | pointer found each compound =>
    rw [nullable_eq full, compound]
    exact (Stands.pointer found each compound).either

end Stands

end StructuredOutput.Document

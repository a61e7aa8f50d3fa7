import Mathlib.Data.List.Nodup
import StructuredOutput.Backend.GrammarRules

/-!
What a grammar derives. The depth bounds how many rules are used inside one another, so that what
all rules derive at one depth gives what they derive at the next.
-/

namespace StructuredOutput.Grammar

/-- Whether a class has a character. -/
def inClass (negated : Bool) (ranges : List (Char × Char)) (c : Char) : Bool :=
  (ranges.any fun r => decide (r.1 ≤ c) && decide (c ≤ r.2)) != negated

/-- An expression derives a text, with rules inside one another at most `depth` deep. -/
inductive Derives (rules : List Rule) : (depth : Nat) → Expr → List Char → Prop
  | terminal (depth : Nat) (text : List Char) : Derives rules depth (.terminal text) text
  | chars {negated : Bool} {ranges : List (Char × Char)} {c : Char}
      (mem : inClass negated ranges c = true) (depth : Nat) :
      Derives rules depth (.chars negated ranges) [c]
  | rule {r : Rule} {depth : Nat} {cs : List Char} (mem : r ∈ rules)
      (body : Derives rules depth r.body cs) : Derives rules (depth + 1) (.rule r.name) cs
  | nil (depth : Nat) : Derives rules depth (.seq []) []
  | cons {e : Expr} {es : List Expr} {depth : Nat} {cs ds : List Char}
      (head : Derives rules depth e cs) (tail : Derives rules depth (.seq es) ds) :
      Derives rules depth (.seq (e :: es)) (cs ++ ds)
  | alt {e : Expr} {es : List Expr} {depth : Nat} {cs : List Char} (mem : e ∈ es)
      (one : Derives rules depth e cs) : Derives rules depth (.alt es) cs
  | group {e : Expr} {depth : Nat} {cs : List Char} (inner : Derives rules depth e cs) :
      Derives rules depth (.group e) cs
  | absent (e : Expr) (depth : Nat) : Derives rules depth (.opt e) []
  | present {e : Expr} {depth : Nat} {cs : List Char} (inner : Derives rules depth e cs) :
      Derives rules depth (.opt e) cs
  | star {e : Expr} {depth : Nat} {parts : List (List Char)}
      (each : ∀ cs ∈ parts, Derives rules depth e cs) : Derives rules depth (.star e) parts.flatten
  | plus {e : Expr} {depth : Nat} {parts : List (List Char)} (some : parts ≠ [])
      (each : ∀ cs ∈ parts, Derives rules depth e cs) : Derives rules depth (.plus e) parts.flatten
  | times {e : Expr} {depth least : Nat} {greatest : Option Nat} {parts : List (List Char)}
      (enough : least ≤ parts.length) (few : ∀ limit ∈ greatest, parts.length ≤ limit)
      (each : ∀ cs ∈ parts, Derives rules depth e cs) :
      Derives rules depth (.times e least greatest) parts.flatten

variable {rules : List Rule} {depth : Nat} {e : Expr} {es : List Expr} {cs : List Char}

theorem Derives.mono (h : Derives rules depth e cs) {deeper : Nat} (hdepth : depth ≤ deeper) :
    Derives rules deeper e cs := by
  induction h generalizing deeper with
  | terminal depth text => exact .terminal deeper text
  | chars mem => exact .chars mem deeper
  | @rule r depth cs mem _ ih =>
    obtain ⟨more, rfl⟩ := Nat.exists_eq_add_of_le hdepth
    rw [Nat.add_right_comm]
    exact .rule mem (ih (Nat.le_add_right depth more))
  | nil => exact .nil deeper
  | cons _ _ ihead itail => exact .cons (ihead hdepth) (itail hdepth)
  | alt mem _ ih => exact .alt mem (ih hdepth)
  | group _ ih => exact .group (ih hdepth)
  | absent e => exact .absent e deeper
  | present _ ih => exact .present (ih hdepth)
  | star _ ih => exact .star fun cs hcs => ih cs hcs hdepth
  | plus some _ ih => exact .plus some fun cs hcs => ih cs hcs hdepth
  | times enough few _ ih => exact .times enough few fun cs hcs => ih cs hcs hdepth

/-! ### Each form of expression -/

@[simp] theorem derives_terminal {text : List Char} :
    Derives rules depth (.terminal text) cs ↔ cs = text := by
  constructor
  · intro h
    cases h
    rfl
  · rintro rfl
    exact .terminal depth cs

theorem derives_chars {negated : Bool} {ranges : List (Char × Char)} :
    Derives rules depth (.chars negated ranges) cs ↔
      ∃ c, cs = [c] ∧ inClass negated ranges c = true := by
  constructor
  · intro h
    cases h with
    | chars mem => exact ⟨_, rfl, mem⟩
  · rintro ⟨c, rfl, hc⟩
    exact .chars hc depth

@[simp] theorem derives_seq_nil : Derives rules depth (.seq []) cs ↔ cs = [] := by
  constructor
  · intro h
    cases h
    rfl
  · rintro rfl
    exact .nil depth

theorem derives_seq_cons : Derives rules depth (.seq (e :: es)) cs ↔
    ∃ ds rest, cs = ds ++ rest ∧ Derives rules depth e ds ∧ Derives rules depth (.seq es) rest := by
  constructor
  · intro h
    cases h with
    | cons head tail => exact ⟨_, _, rfl, head, tail⟩
  · rintro ⟨ds, rest, rfl, hhead, htail⟩
    exact .cons hhead htail

theorem derives_seq_singleton : Derives rules depth (.seq [e]) cs ↔ Derives rules depth e cs := by
  simp [derives_seq_cons]

theorem derives_seq_append {fs : List Expr} : Derives rules depth (.seq (es ++ fs)) cs ↔
    ∃ ds rest, cs = ds ++ rest ∧ Derives rules depth (.seq es) ds ∧
      Derives rules depth (.seq fs) rest := by
  induction es generalizing cs with
  | nil => simp
  | cons e es ih =>
    rw [List.cons_append, derives_seq_cons]
    constructor
    · rintro ⟨ds, rest, rfl, hhead, hrest⟩
      obtain ⟨as, bs, rfl, has, hbs⟩ := ih.mp hrest
      exact ⟨ds ++ as, bs, (List.append_assoc ds as bs).symm, .cons hhead has, hbs⟩
    · rintro ⟨ds, rest, rfl, hfirst, hrest⟩
      obtain ⟨as, bs, rfl, has, hbs⟩ := derives_seq_cons.mp hfirst
      exact ⟨as, bs ++ rest, List.append_assoc as bs rest, has, ih.mpr ⟨bs, rest, rfl, hbs, hrest⟩⟩

theorem derives_alt : Derives rules depth (.alt es) cs ↔ ∃ e ∈ es, Derives rules depth e cs := by
  constructor
  · intro h
    cases h with
    | alt mem one => exact ⟨_, mem, one⟩
  · rintro ⟨e, he, hone⟩
    exact .alt he hone

theorem derives_alt_cons : Derives rules depth (.alt (e :: es)) cs ↔
    Derives rules depth e cs ∨ Derives rules depth (.alt es) cs := by
  simp [derives_alt]

@[simp] theorem derives_group : Derives rules depth (.group e) cs ↔ Derives rules depth e cs := by
  constructor
  · intro h
    cases h with
    | group inner => exact inner
  · exact .group

theorem derives_opt : Derives rules depth (.opt e) cs ↔ cs = [] ∨ Derives rules depth e cs := by
  constructor
  · intro h
    cases h with
    | absent => exact .inl rfl
    | present inner => exact .inr inner
  · rintro (rfl | h)
    · exact .absent e depth
    · exact .present h

theorem derives_times {least : Nat} {greatest : Option Nat} :
    Derives rules depth (.times e least greatest) cs ↔
      ∃ parts : List (List Char), cs = parts.flatten ∧ least ≤ parts.length ∧
        (∀ limit ∈ greatest, parts.length ≤ limit) ∧ ∀ ds ∈ parts, Derives rules depth e ds := by
  constructor
  · intro h
    cases h with
    | times enough few each => exact ⟨_, rfl, enough, few, each⟩
  · rintro ⟨parts, rfl, henough, hfew, heach⟩
    exact .times henough hfew heach

/-- Repeating at will is repeating within no bounds. -/
theorem derives_star : Derives rules depth (.star e) cs ↔
    Derives rules depth (.times e 0 none) cs := by
  rw [derives_times]
  constructor
  · intro h
    cases h with
    | star each => exact ⟨_, rfl, Nat.zero_le _, fun _ h => (by cases h), each⟩
  · rintro ⟨parts, rfl, -, -, heach⟩
    exact .star heach

theorem derives_plus : Derives rules depth (.plus e) cs ↔
    Derives rules depth (.times e 1 none) cs := by
  rw [derives_times]
  constructor
  · intro h
    cases h with
    | plus some each =>
      exact ⟨_, rfl, List.length_pos_iff.mpr some, fun _ h => (by cases h), each⟩
  · rintro ⟨parts, rfl, hsome, -, heach⟩
    exact .plus (List.length_pos_iff.mp hsome) heach

theorem flatten_singletons (cs : List Char) : (cs.map fun c => [c]).flatten = cs := by
  rw [← List.flatMap_def, List.flatMap_singleton']

/-- One character after another from a class. -/
theorem derives_times_chars {negated : Bool} {ranges : List (Char × Char)} {least : Nat}
    {greatest : Option Nat} :
    Derives rules depth (.times (.chars negated ranges) least greatest) cs ↔
      least ≤ cs.length ∧ (∀ limit ∈ greatest, cs.length ≤ limit) ∧
        ∀ c ∈ cs, inClass negated ranges c = true := by
  rw [derives_times]
  constructor
  · rintro ⟨parts, rfl, henough, hfew, heach⟩
    obtain ⟨ds, rfl, hds⟩ : ∃ ds : List Char, parts = ds.map (fun c => [c]) ∧
        ∀ c ∈ ds, inClass negated ranges c = true := by
      clear henough hfew
      induction parts with
      | nil => exact ⟨[], rfl, by simp⟩
      | cons p parts ih =>
        obtain ⟨ds, rfl, hds⟩ := ih fun cs hcs => heach cs (List.mem_cons_of_mem p hcs)
        obtain ⟨c, rfl, hc⟩ := derives_chars.mp (heach p List.mem_cons_self)
        exact ⟨c :: ds, rfl, List.forall_mem_cons.mpr ⟨hc, hds⟩⟩
    rw [flatten_singletons]
    rw [List.length_map] at henough hfew
    exact ⟨henough, hfew, hds⟩
  · rintro ⟨henough, hfew, heach⟩
    refine ⟨cs.map fun c => [c], (flatten_singletons cs).symm, ?_, ?_, fun ds hds => ?_⟩
    · rwa [List.length_map]
    · rwa [List.length_map]
    · obtain ⟨c, hc, rfl⟩ := List.mem_map.mp hds
      exact .chars (heach c hc) depth

/-! ### Rules -/

/-- A name stands for one rule, if no two rules share a name. -/
theorem derives_rule (hnames : (rules.map (·.name)).Nodup) {r : Rule} (hr : r ∈ rules) :
    Derives rules (depth + 1) (.rule r.name) cs ↔ Derives rules depth r.body cs := by
  constructor
  · intro h
    generalize hname : r.name = name at h
    cases h with
    | rule mem body =>
      obtain rfl := List.inj_on_of_nodup_map hnames hr mem hname
      exact body
  · exact .rule hr

/-- Rules with different names, JSON's own among them. -/
structure Grounded (rules : List Rule) : Prop where
  distinct : (rules.map (·.name)).Nodup
  primitive : ∀ r ∈ primitiveRules, r ∈ rules

theorem Grounded.derives (h : Grounded rules) (depth : Nat) (cs : List Char) {r : Rule}
    (hr : r ∈ primitiveRules) :
    Derives rules (depth + 1) (.rule r.name) cs ↔ Derives rules depth r.body cs :=
  derives_rule h.distinct (h.primitive r hr)

theorem not_derives_rule {name : String} : ¬ Derives rules 0 (.rule name) cs := by
  intro h
  cases h

/-- A text is derived from the rule with the name `root`. -/
def Generates (rules : List Rule) (cs : List Char) : Prop :=
  ∃ depth, Derives rules depth (.rule "root") cs

end StructuredOutput.Grammar

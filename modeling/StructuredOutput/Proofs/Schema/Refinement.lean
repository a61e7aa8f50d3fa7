import StructuredOutput.Proofs.Schema.Mirrors
import StructuredOutput.Proofs.Schema.Same

/-!
Refinements in order. They act on a schema as their lists are joined. A refined schema is the schema
itself with longer lists of refinements, so that whether one of them is refused does not depend on
those before it: what is reported is the first that the schema itself refuses. On an array the
refinements of the items and those of their number do not meet.
-/

namespace StructuredOutput

namespace Constraint

/-- Whether a refinement is one of the items of an array. -/
def isElement (c : Constraint) : Bool := c.inner?.isSome

/-- Whether a refinement says something of an array. -/
def fitsArray (c : Constraint) : Bool := c.isElement || c.span?.isSome

end Constraint

namespace Schema

variable {s t u item : Schema} {counts : List Span} {c d : Constraint} {a b cs : List Constraint}
  {cause : DefinitionError}

/-! ### What refinements add -/

/-- A schema is another one with refinements added at the ends of its lists of them. Objects, unions
and references are the same. -/
inductive Extends : Schema → Schema → Prop
  | string (rules more : List TextRule) : Extends (.string (rules ++ more)) (.string rules)
  | integer (ranges more : List Range) : Extends (.integer (ranges ++ more)) (.integer ranges)
  | number (ranges more : List Range) : Extends (.number (ranges ++ more)) (.number ranges)
  | boolean : Extends .boolean .boolean
  | array {item item' : Schema} (items : Extends item' item) (counts more : List Span) :
      Extends (.array item' (counts ++ more)) (.array item counts)
  | object (name : String) (description : Option String) (properties : List (Property Schema)) :
      Extends (.object name description properties) (.object name description properties)
  | union (name : String) (description : Option String) (alternatives : List Schema) :
      Extends (.union name description alternatives) (.union name description alternatives)
  | ref (name : String) : Extends (.ref name) (.ref name)

theorem Extends.refl (s : Schema) : s.Extends s := by
  induction s using parts_induction with
  | h s ih =>
    cases s with
    | string rules => simpa using Extends.string rules []
    | integer ranges => simpa using Extends.integer ranges []
    | number ranges => simpa using Extends.number ranges []
    | boolean => exact .boolean
    | array item counts =>
      simpa using Extends.array (ih item (List.mem_singleton_self item)) counts []
    | object => exact .object ..
    | union => exact .union ..
    | ref name => exact .ref name

theorem Extends.trans (hut : u.Extends t) (hts : t.Extends s) : u.Extends s := by
  induction hts generalizing u with
  | string rules more =>
    cases hut with
    | string _ further => simpa using Extends.string rules (more ++ further)
  | integer ranges more =>
    cases hut with
    | integer _ further => simpa using Extends.integer ranges (more ++ further)
  | number ranges more =>
    cases hut with
    | number _ further => simpa using Extends.number ranges (more ++ further)
  | array _ counts more ih =>
    cases hut with
    | array items _ further => simpa using Extends.array (ih items) counts (more ++ further)
  | boolean | object | union | ref => exact hut

theorem extends_of_refine (h : s.refine c = .ok t) : t.Extends s := by
  induction c generalizing s t with
  | text rule =>
    cases s with
    | string rules =>
      cases h
      exact .string rules [rule]
    | _ => cases h
  | range r =>
    cases s with
    | integer ranges =>
      obtain ⟨whole, -, rfl⟩ := Outcome.map_eq_ok.mp h
      exact .integer ranges [whole]
    | number ranges =>
      cases h
      exact .number ranges [r]
    | _ => cases h
  | count span =>
    cases s with
    | array item counts =>
      cases h
      exact .array (.refl item) counts [span]
    | _ => cases h
  | element inner ih =>
    cases s with
    | array item counts =>
      obtain ⟨refined, hrefined, rfl⟩ := Outcome.map_eq_ok.mp h
      simpa using Extends.array (ih hrefined) counts []
    | _ => cases h

theorem extends_of_constrain (h : s.constrain cs = .ok t) : t.Extends s :=
  keeps_of_constrain (P := fun t => t.Extends s)
    (fun _ _ _ hs hrefine => (extends_of_refine hrefine).trans hs) (.refl s) h

/-! ### Lists of refinements -/

@[simp] theorem constrain_nil (s : Schema) : s.constrain [] = .ok s := rfl

theorem constrain_cons (s : Schema) (c : Constraint) (cs : List Constraint) :
    s.constrain (c :: cs) = s.refine c >>= fun t => t.constrain cs :=
  List.foldlM_cons

theorem constrain_append (s : Schema) (a b : List Constraint) :
    s.constrain (a ++ b) = s.constrain a >>= fun t => t.constrain b :=
  List.foldlM_append

/-- Why a schema refuses a refinement, if it does. -/
def refusal? (s : Schema) (c : Constraint) : Option DefinitionError :=
  match s.refine c with
  | .ok _ => none
  | .error cause => some cause

theorem refusal?_eq_some : s.refusal? c = some cause ↔ s.refine c = .error cause := by
  unfold refusal?
  cases s.refine c <;> simp

/-- Which refinements a schema refuses does not depend on those that it has. -/
theorem Extends.refine_eq_error (h : t.Extends s) :
    t.refine c = .error cause ↔ s.refine c = .error cause := by
  induction h generalizing c with
  | array _ counts more ih =>
    cases c with
    | element inner => simp only [refine, Outcome.map_eq_error, ih]
    | _ => simp [refine, refuse]
  | integer ranges more => cases c <;> simp [refine, refuse, Outcome.map_eq_error]
  | string | number => cases c <;> simp [refine, refuse]
  | boolean | object | union | ref => rfl

theorem Extends.refusal?_eq (h : t.Extends s) : t.refusal? = s.refusal? := by
  funext c
  exact Option.ext fun cause => by rw [refusal?_eq_some, refusal?_eq_some, h.refine_eq_error]

/-- Refinements fail with what is said of the first of them that the schema itself refuses. -/
theorem constrain_eq_error_iff :
    s.constrain cs = .error cause ↔ cs.findSome? s.refusal? = some cause := by
  induction cs generalizing s with
  | nil => simp
  | cons c cs ih =>
    rw [constrain_cons, List.findSome?_cons, refusal?]
    cases hrefine : s.refine c with
    | error first => simp [bind, Except.bind]
    | ok t =>
      have hrest := ih (s := t)
      rw [(extends_of_refine hrefine).refusal?_eq] at hrest
      exact hrest

/-! ### Refinements of arrays -/

theorem refine_array_of_not_fits (h : c.fitsArray = false) :
    (array item counts).refine c = refuse "array" c := by
  cases c with
  | text | range => rfl
  | count | element => cases h

/-- What is left of refinements of an array: those of its items, which go to these in order, and
those of their number, which are added in order. -/
theorem constrain_array_eq_ok_iff :
    (array item counts).constrain cs = .ok t ↔ (∀ c ∈ cs, c.fitsArray = true) ∧
      ∃ refined, item.constrain (cs.filterMap Constraint.inner?) = .ok refined ∧
        t = array refined (counts ++ cs.filterMap Constraint.span?) := by
  induction cs generalizing item counts with
  | nil =>
    constructor
    · intro h
      cases h
      exact ⟨List.forall_mem_nil _, item, rfl, by rw [List.filterMap_nil, List.append_nil]⟩
    · rintro ⟨-, refined, hrefined, rfl⟩
      cases hrefined
      rw [List.filterMap_nil, List.append_nil, constrain_nil]
  | cons c cs ih =>
    rw [constrain_cons, List.forall_mem_cons]
    cases c with
    | text | range =>
      rw [refine_array_of_not_fits rfl]
      constructor
      · intro h
        cases h
      · rintro ⟨⟨hfits, -⟩, -⟩
        cases hfits
    | count span =>
      have hstep : (array item counts).refine (.count span) >>= (fun t => t.constrain cs) =
          (array item (counts ++ [span])).constrain cs := rfl
      rw [hstep, ih, List.append_assoc]
      exact and_congr_left' (and_iff_right rfl).symm
    | element inner =>
      simp only [refine, Outcome.bind_eq_ok, Outcome.map_eq_ok]
      constructor
      · rintro ⟨_, ⟨next, hnext, rfl⟩, hrest⟩
        obtain ⟨hfits, refined, hrefined, rfl⟩ := ih.mp hrest
        refine ⟨⟨rfl, hfits⟩, refined, ?_, rfl⟩
        exact Outcome.bind_eq_ok.mpr ⟨next, hnext, hrefined⟩
      · rintro ⟨⟨-, hfits⟩, refined, hrefined, rfl⟩
        obtain ⟨next, hnext, hrest⟩ := Outcome.bind_eq_ok.mp hrefined
        exact ⟨_, ⟨next, hnext, rfl⟩, ih.mpr ⟨hfits, refined, hrest, rfl⟩⟩

/-- What is picked out of a list does not depend on the order of two members of which only one is
picked. -/
private theorem filterMap_swap {α : Type} {f : Constraint → Option α}
    (h : f c = none ∨ f d = none) :
    (a ++ c :: d :: b).filterMap f = (a ++ d :: c :: b).filterMap f := by
  rcases h with h | h <;> simp [List.filterMap_append, List.filterMap_cons, h]

/-- A refinement of the items of an array and another one may change places. -/
theorem constrain_array_swap (hcd : c.isElement ≠ d.isElement)
    (h : (array item counts).constrain (a ++ c :: d :: b) = .ok t) :
    (array item counts).constrain (a ++ d :: c :: b) = .ok t := by
  rw [constrain_array_eq_ok_iff] at h ⊢
  obtain ⟨hfits, hrefined⟩ := h
  have hinner : c.inner? = none ∨ d.inner? = none := by
    cases c <;> cases d <;> first | exact .inl rfl | exact .inr rfl | exact absurd rfl hcd
  have hspan : c.span? = none ∨ d.span? = none := by
    cases c <;> cases d <;> first | exact .inl rfl | exact .inr rfl | exact absurd rfl hcd
  rw [filterMap_swap hinner, filterMap_swap hspan] at hrefined
  have hperm : (a ++ c :: d :: b).Perm (a ++ d :: c :: b) := (List.Perm.swap d c b).append_left a
  exact ⟨fun e he => hfits e (hperm.mem_iff.mpr he), hrefined⟩

end Schema

/-- Refinements act on schemas: two lists of them in a row do what the one does and then the other,
with the same result or the same error, which is that of the first refinement that the schema itself
refuses. A result is the schema with refinements added at the ends of its lists. On an array a
refinement of the items and another one next to it may change places. -/
theorem constrain_acts (s : Schema) (a b : List Constraint) :
    s.constrain (a ++ b) = s.constrain a >>= (fun t => t.constrain b) ∧
      (∀ cause, s.constrain a = .error cause ↔ a.findSome? s.refusal? = some cause) ∧
      (∀ t, s.constrain a = .ok t → t.Extends s) ∧
      ∀ item counts c d t, s = .array item counts → c.isElement ≠ d.isElement →
        s.constrain (a ++ c :: d :: b) = .ok t → s.constrain (a ++ d :: c :: b) = .ok t := by
  refine ⟨s.constrain_append a b, fun cause => Schema.constrain_eq_error_iff,
    fun t h => Schema.extends_of_constrain h, ?_⟩
  rintro item counts c d t rfl hcd h
  exact Schema.constrain_array_swap hcd h

/-! ### A grid -/

namespace Grid

/-- Rows of whole numbers. -/
def rows : Schema := .array (.array (.integer []) []) []

/-- The numbers of a grid are positive. -/
def positive : Constraint := .element (.element (.range ⟨some (.whole 1), none, rfl⟩))

/-- A grid has nine rows. -/
def nine : Constraint := .count ⟨some 9, some 9, rfl⟩

/-- A grid of positive numbers with nine rows. -/
def refined : Schema :=
  .array (.array (.integer [⟨some (.whole 1), none, rfl⟩]) []) [⟨some 9, some 9, rfl⟩]

end Grid

open Grid in
theorem constrain_acts_grid :
    positive.isElement ≠ nine.isElement ∧
      rows.constrain ([] ++ positive :: nine :: []) = .ok refined ∧
      rows.constrain ([] ++ nine :: positive :: []) = .ok refined := by
  have hdiffer : positive.isElement ≠ nine.isElement := by decide
  have hrefined : rows.constrain ([] ++ positive :: nine :: []) = .ok refined := rfl
  exact ⟨hdiffer, hrefined,
    (constrain_acts rows [] []).2.2.2 _ _ positive nine refined rfl hdiffer hrefined⟩

/-- What stands before a refinement that does not fit makes no difference to what is said of it. -/
example :
    Grid.rows.constrain [Grid.nine, Grid.positive, .element (.text (.constant "x")),
      .text (.pattern "y")] = .error (.cannotConstrain "Constant" "array") := rfl

end StructuredOutput

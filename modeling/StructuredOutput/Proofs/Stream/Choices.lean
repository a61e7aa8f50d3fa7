import StructuredOutput.Proofs.Codec.Holds
import StructuredOutput.Proofs.Content.Heralds
import StructuredOutput.Proofs.Stream.Growth
import StructuredOutput.Proofs.Stream.Memory

/-!
Closed choices: the option of a literal, the member of an enumeration or the case of a union that a
value shows at a place. What content that comes in parts foretells of a value is borne out by
whatever it foretells later, where no text that stands for a choice begins another one.
-/

namespace StructuredOutput

variable {ds : Declarations}

/-- A choice among finitely many. -/
inductive Choice where
  | option (text : String)
  | member (name : String)
  | case (record : String)
  deriving DecidableEq

namespace Value

/-- The items of a sequence, in a snapshot or not. -/
def items? : Value → Option (List Value)
  | list vs | tuple vs => some vs
  | _ => none

/-- The record of an instance and its attributes, in a snapshot or not. -/
def instance? : Value → Option (String × List (String × Value))
  | record id attrs | slots id attrs => some (id, attrs)
  | _ => none

end Value

open Value

namespace Shape

/-- The choice that a value of a shape is. -/
def choice? (shape : Shape) (v : Value) : Option Choice :=
  match shape.core, v with
  | literal _ _, .text s => some (.option s)
  | enum _ _ _, .member _ name _ _ => some (.member name)
  | union _ _ _, v => v.instance?.map fun i => .case i.1
  | _, _ => none

end Shape

/-- The choice that a value of a shape shows at a place. -/
def choiceAt (ds : Declarations) (place : List PartStep) (shape : Shape) (v : Value) :
    Option Choice :=
  match place with
  | [] => shape.choice? v
  | .slot name :: place =>
    match v.instance? with
    | some (id, attrs) =>
      match (ds.travelling id).find? fun f => f.attr == name with
      | some f => choiceAt ds place f.whole (inSlot attrs name)
      | none => none
    | none => none
  | .item index :: place =>
    match shape.core, v.items? with
    | .array item _ _, some items => choiceAt ds place item (atIndex items index)
    | _, _ => none

theorem choiceAt_item {shape item : Shape} {container : Container} {constraints : List Constraint}
    (core : shape.core = .array item container constraints) {v : Value} {items : List Value}
    (given : v.items? = some items) (index : Nat) (place : List PartStep) :
    choiceAt ds (.item index :: place) shape v =
      choiceAt ds place item (atIndex items index) := by
  simp only [choiceAt, core, given]

theorem choiceAt_slot {id : String} {fields : List FieldShape}
    (resolved : ds.fieldShapes id = .ok fields) {v : Value} {attrs : List (String × Value)}
    (given : v.instance? = some (id, attrs)) (shape : Shape) (name : String)
    (place : List PartStep) :
    choiceAt ds (.slot name :: place) shape v =
      match fields.find? fun f => f.attr == name with
      | some f => choiceAt ds place f.whole (inSlot attrs name)
      | none => none := by
  simp only [choiceAt, given, Declarations.travelling_eq resolved]

/-- Whether a value shows no choice anywhere. -/
def Silent (ds : Declarations) (shape : Shape) (v : Value) : Prop :=
  ∀ place, choiceAt ds place shape v = none

namespace Silent

/-- A value without parts is silent if it is no choice itself. -/
theorem of_noParts {shape : Shape} {v : Value} (hchoice : shape.choice? v = none)
    (hinstance : v.instance? = none) (hitems : v.items? = none) : Silent ds shape v := by
  intro place
  cases place with
  | nil => exact hchoice
  | cons step place => cases step <;> simp [choiceAt, hinstance, hitems]

theorem unknown (shape : Shape) : Silent ds shape .unknown := by
  refine of_noParts ?_ rfl rfl
  simp only [Shape.choice?, instance?]
  split <;> simp_all

theorem null (shape : Shape) : Silent ds shape .null := by
  refine of_noParts ?_ rfl rfl
  simp only [Shape.choice?, instance?]
  split <;> simp_all

end Silent

/-- Whether a later value shows every choice that an earlier one shows, part by part. -/
inductive BearsOut (ds : Declarations) : Shape → Value → Value → Prop
  | silent {shape : Shape} {earlier : Value} (h : Silent ds shape earlier) (later : Value) :
      BearsOut ds shape earlier later
  | same (shape : Shape) (v : Value) : BearsOut ds shape v v
  | items {shape item : Shape} {container : Container} {constraints : List Constraint}
      {later : Value} {ps ms : List Value} (core : shape.core = .array item container constraints)
      (given : later.items? = some ms)
      (each : ∀ index < ps.length, BearsOut ds item (atIndex ps index) (atIndex ms index)) :
      BearsOut ds shape (.tuple ps) later
  | slots {shape : Shape} {id : String} {fields : List FieldShape} {later : Value}
      {ps ms : List (String × Value)} (given : later.instance? = some (id, ms))
      (resolved : ds.fieldShapes id = .ok fields)
      (each : ∀ f ∈ fields, BearsOut ds f.whole (inSlot ps f.attr) (inSlot ms f.attr)) :
      BearsOut ds shape (.slots id ps) later

/-- What is borne out shows every choice. -/
theorem BearsOut.choiceAt_eq {shape : Shape} {earlier later : Value}
    (h : BearsOut ds shape earlier later) {place : List PartStep} {choice : Choice}
    (hchoice : choiceAt ds place shape earlier = some choice) :
    choiceAt ds place shape later = some choice := by
  induction place generalizing shape earlier later with
  | nil =>
    cases h with
    | silent h => cases (h []).symm.trans hchoice
    | same => exact hchoice
    | items core given each => simp [choiceAt, Shape.choice?, core] at hchoice
    | slots given resolved each =>
      simp only [choiceAt, Shape.choice?] at hchoice ⊢
      split at hchoice <;> simp_all [instance?]
  | cons step place ih =>
    cases h with
    | silent h => cases (h (step :: place)).symm.trans hchoice
    | same => exact hchoice
    | @items _ item container constraints _ ps ms core given each =>
      cases step with
      | slot name => cases hchoice
      | item index =>
        rw [choiceAt_item core rfl] at hchoice
        rw [choiceAt_item core given]
        by_cases hindex : index < ps.length
        · exact ih (each index hindex) hchoice
        · rw [atIndex_of_le (Nat.not_lt.mp hindex)] at hchoice
          cases (Silent.unknown item place).symm.trans hchoice
    | @slots _ id fields _ ps ms given resolved each =>
      cases step with
      | item index => simp [choiceAt, items?] at hchoice
      | slot name =>
        rw [choiceAt_slot resolved rfl] at hchoice
        rw [choiceAt_slot resolved given]
        cases hfind : fields.find? fun f => f.attr == name with
        | none => simp [hfind] at hchoice
        | some f =>
          have hname : f.attr = name := by simpa using List.find?_some hfind
          subst hname
          simp only [hfind] at hchoice
          exact ih (each f (List.mem_of_find?_eq_some hfind)) hchoice

end StructuredOutput

import StructuredOutput.Proofs.Codec.RoundTrip
import StructuredOutput.Proofs.Stream.Completion
import StructuredOutput.Proofs.Stream.Keeps

/-!
What a stream remembers: each snapshot keeps the one before it, and over a whole run what is known
at a place is lost only where something that encloses it was replaced.
-/

namespace StructuredOutput

variable {ds : Declarations} {r : Reconstructor}

/-- A step from a value to a part of it. -/
inductive PartStep where
  | slot (name : String)
  | item (index : Nat)

namespace Value

/-- What is known at a place within a value. -/
def part (v : Value) (place : List PartStep) : Value :=
  match place with
  | [] => v
  | step :: place =>
    match v, step with
    | slots _ fields, .slot name => (inSlot fields name).part place
    | tuple items, .item index => (atIndex items index).part place
    | _, _ => unknown

@[simp] theorem part_nil (v : Value) : v.part [] = v := rfl

@[simp] theorem part_unknown (place : List PartStep) : unknown.part place = unknown := by
  cases place <;> rfl

theorem hasParts_of_part {v : Value} {step : PartStep} {place : List PartStep}
    (h : v.part (step :: place) ≠ .unknown) : v.hasParts = true := by
  cases v with
  | slots | tuple => rfl
  | _ => exact absurd rfl h

theorem Keeps.ne_unknown {earlier later : Value} (h : Keeps earlier later)
    (hknown : earlier ≠ .unknown) : later ≠ .unknown := by
  cases h with
  | unknown => exact absurd rfl hknown
  | slots | tuple => simp
  | other _ known => exact known

end Value

open Value

/-- What replaces a value with parts, so that they are lost: null or another case of a union. -/
inductive Replaced (shape : Shape) : Value → Value → Prop
  | byNull (earlier : Value) (optional : shape.isOptional = true) : Replaced shape earlier .null
  | byCase {name : String} {description : Option String} {cases : List Case} {id id' : String}
      {ps ms : List (String × Value)} (core : shape.core = .union name description cases)
      (mem : id ∈ cases.map (·.record)) (mem' : id' ∈ cases.map (·.record)) (other : id ≠ id') :
      Replaced shape (.slots id ps) (.slots id' ms)

namespace Observes

theorem core_of_slots {shape : Shape} {id : String} {vs : List (String × Value)}
    (h : Observes ds shape (.slots id vs)) : id ∈ shape.core.records := by
  cases h with
  | leaf isLeaf whole => cases whole
  | slots mem resolved names each => exact mem

theorem core_of_tuple {shape : Shape} {items : List Value}
    (h : Observes ds shape (.tuple items)) :
    ∃ item container constraints, shape.core = .array item container constraints := by
  cases h with
  | leaf isLeaf whole => cases whole
  | tuple core each => exact ⟨_, _, _, core⟩

/-- Of two snapshots of a shape that are not joined part by part the later one is null or another
case: no value of another kind is ever observed. -/
theorem replaced {shape : Shape} {earlier later : Value} (hearlier : Observes ds shape earlier)
    (hlater : Observes ds shape later) (hparts : earlier.hasParts = true)
    (hunpaired : ¬ Paired earlier later) (hknown : later ≠ .unknown) :
    Replaced shape earlier later := by
  cases hlater with
  | unknown => exact absurd rfl hknown
  | null optional => exact .byNull earlier optional
  | leaf isLeaf whole =>
    cases earlier with
    | slots id ps =>
      have hmem := hearlier.core_of_slots
      cases hcore : shape.core <;> simp_all [Shape.isLeaf, Shape.records]
    | tuple ps =>
      obtain ⟨item, container, constraints, hcore⟩ := hearlier.core_of_tuple
      simp [hcore, Shape.isLeaf] at isLeaf
    | _ => cases hparts
  | tuple core each =>
    cases earlier with
    | slots id ps =>
      have hmem := hearlier.core_of_slots
      simp [core, Shape.records] at hmem
    | tuple ps => exact absurd trivial hunpaired
    | _ => cases hparts
  | slots mem resolved names each =>
    cases earlier with
    | slots id ps =>
      have hmem := hearlier.core_of_slots
      cases hcore : shape.core with
      | record =>
        rw [hcore] at mem hmem
        simp only [Shape.records, List.mem_singleton] at mem hmem
        exact absurd (hmem.trans mem.symm) hunpaired
      | union name description cases =>
        rw [hcore] at mem hmem
        exact .byCase hcore hmem mem hunpaired
      | _ => simp [hcore, Shape.records] at hmem
    | tuple ps =>
      obtain ⟨item, container, constraints, hcore⟩ := hearlier.core_of_tuple
      simp [hcore, Shape.records] at mem
    | _ => cases hparts

/-- A record itself is never replaced. -/
theorem not_replaced {id : String} {name : String} {description : Option String}
    {earlier later : Value} (hearlier : Observes ds (.record id name description) earlier)
    (hlater : Observes ds (.record id name description) later) (enclosing : Shape) :
    ¬ Replaced enclosing earlier later := by
  intro h
  cases h with
  | byNull earlier _ =>
    cases hlater with
    | null optional => cases optional
    | leaf isLeaf whole => cases isLeaf
  | byCase _ _ _ other =>
    have hid := List.mem_singleton.mp hearlier.core_of_slots
    have hid' := List.mem_singleton.mp hlater.core_of_slots
    exact other (hid.trans hid'.symm)

end Observes

/-- What is kept is lost at a place only where something that encloses the place was replaced. -/
theorem exists_replaced {shape : Shape} {earlier later : Value} {place : List PartStep}
    (hkeeps : Keeps earlier later) (hearlier : Observes ds shape earlier)
    (hlater : Observes ds shape later) (hknown : earlier.part place ≠ .unknown)
    (hlost : later.part place = .unknown) :
    ∃ front back enclosing, place = front ++ back ∧ back ≠ [] ∧ Reaches ds shape enclosing ∧
      Replaced enclosing (earlier.part front) (later.part front) := by
  induction place generalizing shape earlier later with
  | nil => exact absurd hlost (hkeeps.ne_unknown hknown)
  | cons step place ih =>
    cases hkeeps with
    | unknown => exact absurd (part_unknown _) hknown
    | @slots id ps ms names each =>
      cases step with
      | item => exact absurd rfl hknown
      | slot name =>
        simp only [part] at hknown hlost
        cases hearlier with
        | leaf isLeaf whole => cases whole
        | @slots _ _ fields _ mem resolved attrs parts =>
          by_cases hname : name ∈ Entries.names ps
          · rw [attrs] at hname
            obtain ⟨f, hf, rfl⟩ := List.mem_map.mp hname
            obtain ⟨front, back, enclosing, rfl, hback, hreaches, hreplaced⟩ :=
              ih (each f.attr) (parts f hf) ((hlater.of_slots resolved).2 f hf) hknown hlost
            have hfield : Reaches ds shape f.whole := .field_of_core mem resolved hf
            exact ⟨.slot f.attr :: front, back, enclosing, rfl, hback, hfield.trans hreaches,
              hreplaced⟩
          · rw [inSlot_of_not_mem hname, part_unknown] at hknown
            exact absurd rfl hknown
    | @tuple ps ms longer each =>
      cases step with
      | slot => exact absurd rfl hknown
      | item index =>
        simp only [part] at hknown hlost
        by_cases hindex : index < ps.length
        · obtain ⟨item, container, constraints, hcore⟩ := hearlier.core_of_tuple
          have hp := hearlier.of_tuple hcore _ (atIndex_mem hindex)
          have hm := hlater.of_tuple hcore _ (atIndex_mem (Nat.lt_of_lt_of_le hindex longer))
          obtain ⟨front, back, enclosing, rfl, hback, hreaches, hreplaced⟩ :=
            ih (each index hindex) hp hm hknown hlost
          have hitem : Reaches ds shape item := .item_of_core hcore
          exact ⟨.item index :: front, back, enclosing, rfl, hback, hitem.trans hreaches,
            hreplaced⟩
        · rw [atIndex_of_le (Nat.not_lt.mp hindex), part_unknown] at hknown
          exact absurd rfl hknown
    | other unpaired known =>
      have hreplaced := hearlier.replaced hlater (hasParts_of_part hknown) unpaired known
      exact ⟨[], step :: place, shape, rfl, List.cons_ne_nil _ _, .refl shape, hreplaced⟩

namespace Reconstructor

/-- Whether what is known is a snapshot of the type of the stream. -/
structure Observing (ds : Declarations) (t : TypeExpr) (shape : Shape) (r : Reconstructor) :
    Prop where
  type : r.type = t
  known : Observes ds shape r.known

variable {t : TypeExpr} {shape : Shape}

theorem observes_snapshot (hshape : ds.shapeOf t = .ok shape) {c : Content} {observed : Value}
    (h : snapshot ds c t = .ok observed) : Observes ds shape observed := by
  rw [snapshot, hshape] at h
  exact Snapshot.observes_value c h

/-- An event keeps what is known. -/
theorem keeps_feed (hshape : ds.shapeOf t = .ok shape) (hr : Observing ds t shape r)
    (event : StreamEvent) : Keeps r.known (r.feed ds event).next.known ∧
      Observing ds t shape (r.feed ds event).next := by
  rcases feed_known event with h | ⟨c, observed, hobserved, h⟩
  · rw [h]
    exact ⟨hr.known.keeps, (feed_type event).trans hr.type, h ▸ hr.known⟩
  · rw [hr.type] at hobserved
    have hobserves := observes_snapshot hshape hobserved
    rw [h]
    exact ⟨Snapshot.keeps_merge hr.known hobserves, (feed_type event).trans hr.type,
      h ▸ Snapshot.observes_merge hr.known hobserves⟩

theorem observing_run (hshape : ds.shapeOf t = .ok shape) (hr : Observing ds t shape r)
    (events : List StreamEvent) : Observing ds t shape (r.run ds events) :=
  run_invariant (P := Observing ds t shape) (fun _ event hs => (keeps_feed hshape hs event).2) hr
    events

/-- What is lost between two points of a run is lost by one of the events between them. -/
theorem exists_lost {events : List StreamEvent} {place : List PartStep} {i j : Nat} (hij : i ≤ j)
    (hknown : (r.run ds (events.take i)).known.part place ≠ .unknown)
    (hlost : (r.run ds (events.take j)).known.part place = .unknown) :
    ∃ k, i ≤ k ∧ k < j ∧ (r.run ds (events.take k)).known.part place ≠ .unknown ∧
      (r.run ds (events.take (k + 1))).known.part place = .unknown := by
  induction j, hij using Nat.le_induction with
  | base => exact absurd hlost hknown
  | succ j hij ih =>
    by_cases h : (r.run ds (events.take j)).known.part place = .unknown
    · obtain ⟨k, hik, hkj, hk⟩ := ih h
      exact ⟨k, hik, Nat.lt_succ_of_lt hkj, hk⟩
    · exact ⟨j, hij, Nat.lt_succ_self j, h, hlost⟩

end Reconstructor

open Reconstructor

/-- Snapshots never forget: each keeps the one before it. In the snapshots of a record a slot of the
record itself stays known, and a place further inside is lost only where an enclosing value gave way
to null or to another case of a union. -/
theorem snapshots_never_forget {t : TypeExpr} {shape : Shape} {settings : StreamSettings}
    (hstart : Reconstructor.start ds t settings = .ok r) (hshape : ds.shapeOf t = .ok shape)
    (events : List StreamEvent) :
    (∀ event, Keeps (r.run ds events).known ((r.run ds events).feed ds event).next.known) ∧
    ∀ id name description, shape = .record id name description →
      ∀ i j, i ≤ j → j ≤ events.length →
        let snapshotAt := fun n => (r.run ds (events.take n)).known
        (∀ attr, (snapshotAt i).part [.slot attr] ≠ .unknown →
          (snapshotAt j).part [.slot attr] ≠ .unknown) ∧
        ∀ place, (snapshotAt i).part place ≠ .unknown → (snapshotAt j).part place = .unknown →
          ∃ k, i ≤ k ∧ k < j ∧ ∃ front back enclosing, place = front ++ back ∧ front ≠ [] ∧
            back ≠ [] ∧ Reaches ds shape enclosing ∧
              Replaced enclosing ((snapshotAt k).part front) ((snapshotAt (k + 1)).part front) := by
  have hr : Observing ds t shape r := by
    rw [(start_eq_ok hstart).2]
    exact ⟨rfl, .unknown shape⟩
  refine ⟨fun event => (keeps_feed hshape (observing_run hshape hr events) event).1, ?_⟩
  rintro id name description rfl i j hij hj snapshotAt
  have hnested (place : List PartStep) (hknown : (snapshotAt i).part place ≠ .unknown)
      (hlost : (snapshotAt j).part place = .unknown) :
      ∃ k, i ≤ k ∧ k < j ∧ ∃ front back enclosing, place = front ++ back ∧ front ≠ [] ∧
        back ≠ [] ∧ Reaches ds (.record id name description) enclosing ∧
          Replaced enclosing ((snapshotAt k).part front) ((snapshotAt (k + 1)).part front) := by
    obtain ⟨k, hik, hkj, hk, hk'⟩ := exists_lost hij hknown hlost
    have hbefore := observing_run hshape hr (events.take k)
    have hafter := observing_run hshape hr (events.take (k + 1))
    have hkeeps : Keeps (snapshotAt k) (snapshotAt (k + 1)) := by
      unfold snapshotAt
      rw [run_take_succ (Nat.lt_of_lt_of_le hkj hj)]
      exact (keeps_feed hshape hbefore _).1
    obtain ⟨front, back, enclosing, hplace, hback, hreaches, hreplaced⟩ :=
      exists_replaced hkeeps hbefore.known hafter.known hk hk'
    refine ⟨k, hik, hkj, front, back, enclosing, hplace, ?_, hback, hreaches, hreplaced⟩
    rintro rfl
    exact hbefore.known.not_replaced hafter.known enclosing hreplaced
  refine ⟨fun attr hknown hlost => ?_, hnested⟩
  obtain ⟨-, -, -, front, back, -, hplace, hfront, hback, -⟩ := hnested [.slot attr] hknown hlost
  cases front with
  | nil => exact hfront rfl
  | cons step front =>
    have htail := (List.cons.inj hplace).2
    exact hback (List.append_eq_nil_iff.mp htail.symm).2

namespace Forest

/-- A fork in front of which another fork is seen at first and then a leaf. -/
def toldOtherwise : List StreamEvent :=
  [.native (.object [("value", .object [("type", .string "fork"), ("behind", .null)])]),
    .native (.object [("value", .object [("type", .string "leaf")])])]

def forkStream : Reconstructor :=
  ⟨.named "Fork", "Fork", ⟨true⟩, [], .empty, .empty, .unknown, .null⟩

end Forest

open Forest in
theorem snapshots_never_forget_forest :
    Reconstructor.start forest (.named "Fork") ⟨true⟩ = .ok forkStream ∧
      forest.shapeOf (.named "Fork") = .ok fork ∧
        (forkStream.run forest (toldOtherwise.take 2)).known.part [.slot "front"] ≠ .unknown ∧
          ∃ k, 1 ≤ k ∧ k < 2 ∧ ∃ enclosing, Replaced enclosing
            ((forkStream.run forest (toldOtherwise.take k)).known.part [.slot "front"])
            ((forkStream.run forest (toldOtherwise.take (k + 1))).known.part [.slot "front"]) := by
  have hstart : Reconstructor.start forest (.named "Fork") ⟨true⟩ = .ok forkStream := by cbv
  have hfront : (forkStream.run forest (toldOtherwise.take 1)).known.part [.slot "front"] =
      .slots "Fork" [("front", .unknown), ("back", .null)] := by cbv
  have hback : (forkStream.run forest (toldOtherwise.take 1)).known.part
      [.slot "front", .slot "back"] = .null := by cbv
  have hlost : (forkStream.run forest (toldOtherwise.take 2)).known.part
      [.slot "front", .slot "back"] = .unknown := by cbv
  obtain ⟨hroot, hnested⟩ := (snapshots_never_forget hstart shapeOf_fork toldOtherwise).2
    "Fork" "Fork" none rfl 1 2 (by decide) (by decide)
  refine ⟨hstart, shapeOf_fork, hroot "front" (by rw [hfront]; simp), ?_⟩
  obtain ⟨k, h1, h2, front, back, enclosing, hplace, hne, hrest, -, hreplaced⟩ :=
    hnested [.slot "front", .slot "back"] (by rw [hback]; simp) hlost
  -- the only place between the fork and the lost slot is the slot in front
  obtain rfl : front = [.slot "front"] := by
    rcases front with _ | ⟨step, _ | ⟨step', _ | ⟨step'', front⟩⟩⟩
    · exact absurd rfl hne
    · simp_all
    · simp_all
    · simp at hplace
  exact ⟨k, h1, h2, enclosing, hreplaced⟩

end StructuredOutput

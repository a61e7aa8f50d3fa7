import StructuredOutput.Backend.NamedSchemas
import StructuredOutput.Proofs.Schema.Derivation

/-!
The named schemas that are collected from a graph that fits a shape: each of them fits some shape,
too, and has the name that it is kept under.
-/

namespace StructuredOutput

theorem Role.exists_describes (ds : Declarations) (role : Role) :
    ∃ shape, role.Describes ds shape := by
  cases role with
  | enum id => exact ⟨.enum id "" none, rfl⟩
  | record id => exact ⟨.record id "" none, rfl⟩
  | union name records => exact ⟨.union "" none _, rfl⟩
  | case name records id => exact ⟨.union "" none _, rfl⟩

variable {ds : Declarations} {names : RoleNames}

/-- The schemas inside a schema that fits a shape fit shapes. -/
theorem Fits.children {s : Schema} {shape : Shape} (h : Fits ds names s shape) :
    ∀ c ∈ s.children, ∃ shape, Fits ds names c shape := by
  intro c hc
  cases h with
  | text | integer | real | bool | literal | array | ref => exact absurd hc List.not_mem_nil
  | enum named =>
    obtain ⟨w, -, rfl⟩ := List.mem_map.mp hc
    exact ⟨.literal [w.1] [], .literal (by simp) [w.1] []⟩
  | record named resolved alike each =>
    obtain ⟨p, hp, rfl⟩ := List.mem_map.mp hc
    obtain ⟨f, -, -, -, hf⟩ := Outcome.exists_mem_right (FitsFields.mk alike each).forall₂ hp
    exact ⟨f.shape, hf⟩
  | case named resolved untagged alike each =>
    rcases List.mem_cons.mp hc with rfl | hc
    · exact ⟨.literal [_] [], .literal (by simp) [_] []⟩
    · obtain ⟨p, hp, rfl⟩ := List.mem_map.mp hc
      obtain ⟨f, -, -, -, hf⟩ := Outcome.exists_mem_right (FitsFields.mk alike each).forall₂ hp
      exact ⟨f.shape, hf⟩
  | union named distinct aligned each =>
    have hall := List.forall₂_iff_zip.mpr ⟨aligned, fun hmem => each _ _ hmem⟩
    obtain ⟨id, -, hid⟩ := Outcome.exists_mem_right hall hc
    exact ⟨_, hid⟩

namespace NamedSchemas

/-- Every schema that has been met has its name and fits some shape. -/
def Known (ds : Declarations) (names : RoleNames) (n : NamedSchemas) : Prop :=
  ∀ name s, Entries.get? n.schemas name = some s →
    s.name? = some name ∧ ∃ shape, Fits ds names s shape

theorem meet_known {n n' : NamedSchemas} {name : String} {s : Schema} {shape : Shape}
    {next : List Schema} (hn : Known ds names n) (hname : s.name? = some name)
    (hs : Fits ds names s shape) (h : n.meet name s = .ok (n', next)) :
    Known ds names n' ∧ ∀ c ∈ next, ∃ shape, Fits ds names c shape := by
  unfold meet at h
  dsimp only at h
  split at h
  · cases h
    refine ⟨fun m t ht => ?_, hs.children⟩
    rw [Entries.get?_append] at ht
    cases hget : Entries.get? n.schemas m with
    | some u => exact hn m t (by rwa [hget, Option.some_or, ← hget] at ht)
    | none =>
      rw [hget, Option.none_or] at ht
      obtain ⟨rfl, rfl⟩ := Prod.mk.inj (List.mem_singleton.mp (Entries.mem_of_get? ht))
      exact ⟨hname, shape, hs⟩
  · split at h
    · cases h
      exact ⟨hn, fun c hc => absurd hc List.not_mem_nil⟩
    · cases h

theorem visit_known {g : SchemaGraph} {root shape : Shape} {n n' : NamedSchemas} {s : Schema}
    {next : List Schema} (hg : g.FitsShape ds names root) (hn : Known ds names n)
    (hs : Fits ds names s shape) (h : n.visit g s = .ok (n', next)) :
    Known ds names n' ∧ ∀ c ∈ next, ∃ shape, Fits ds names c shape := by
  unfold visit at h
  split at h
  · exact meet_known hn rfl hs h
  · exact meet_known hn rfl hs h
  · cases h
    refine ⟨hn, fun c hc => ?_⟩
    obtain rfl := List.mem_singleton.mp hc
    cases hs with
    | array items => exact ⟨_, items⟩
  · dsimp only at h
    split at h
    · cases h
      exact ⟨hn, fun c hc => absurd hc List.not_mem_nil⟩
    split at h
    · next node hnode =>
      cases h
      refine ⟨hn, fun c hc => ?_⟩
      obtain rfl := List.mem_singleton.mp hc
      obtain ⟨role, -, hfits⟩ := hg.table _ _ hnode
      obtain ⟨described, hdescribes⟩ := role.exists_describes ds
      exact ⟨described, hfits described hdescribes⟩
    · cases h
  · cases h
    exact ⟨hn, fun c hc => absurd hc List.not_mem_nil⟩

theorem visitAll_known {g : SchemaGraph} {root : Shape} (hg : g.FitsShape ds names root)
    {fuel : Nat} {n n' : NamedSchemas} {pending : List Schema} (hn : Known ds names n)
    (hpending : ∀ s ∈ pending, ∃ shape, Fits ds names s shape)
    (h : visitAll g fuel n pending = .ok n') : Known ds names n' := by
  induction fuel generalizing n pending with
  | zero =>
    cases h
    exact hn
  | succ fuel ih =>
    cases pending with
    | nil =>
      cases h
      exact hn
    | cons s pending =>
      obtain ⟨shape, hs⟩ := hpending s List.mem_cons_self
      obtain ⟨⟨n₁, next⟩, hvisit, hrest⟩ := Outcome.bind_eq_ok.mp h
      obtain ⟨hn₁, hnext⟩ := visit_known hg hn hs hvisit
      refine ih hn₁ (fun t ht => ?_) hrest
      rcases List.mem_append.mp ht with ht | ht
      · exact hnext t ht
      · exact hpending t (List.mem_cons_of_mem s ht)

/-- What is collected from a graph that fits a shape fits shapes. -/
theorem collect_known {g : SchemaGraph} {root : Shape} (hg : g.FitsShape ds names root)
    {n : NamedSchemas} (h : collect g = .ok n) : Known ds names n := by
  refine visitAll_known hg (n := none) (fun _ _ hget => by cases hget) (fun s hs => ?_) h
  exact ⟨root, List.mem_singleton.mp hs ▸ hg.root⟩

end NamedSchemas

end StructuredOutput

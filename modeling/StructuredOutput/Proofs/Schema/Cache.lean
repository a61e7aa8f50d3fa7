import StructuredOutput.Proofs.Schema.DistinctNames

/-!
What the cache of schemas changes. A schema that it hands out was derived for the type that is asked
for or for an equal one that was asked for before. Equality of types ignores the order of
alternatives and of literal values, and schemas keep that order: so the answer for a type depends on
the history just if a type equal to it has a schema of its own.
-/

namespace StructuredOutput

/-- The cache after types have been asked for, one after the other. -/
def SchemaCache.after (ds : Declarations) (asked : List TypeExpr) : SchemaCache :=
  asked.foldl (fun cache t => (ds.schemaFor cache t).2.1) []

namespace SchemaCache

variable {ds : Declarations} {asked : List TypeExpr}

theorem after_append_singleton (t : TypeExpr) :
    after ds (asked ++ [t]) = (ds.schemaFor (after ds asked) t).2.1 := by
  simp [after]

theorem reached_after (ds : Declarations) (asked : List TypeExpr) :
    Reached ds (after ds asked) := by
  induction asked using List.reverseRecOn with
  | nil => exact .empty
  | append_singleton asked t ih =>
    rw [after_append_singleton]
    exact .call ih t

end SchemaCache

namespace Declarations

variable {ds : Declarations} {cache : SchemaCache} {t written : TypeExpr} {g : SchemaGraph}

/-- The answer for a type that has an equal one in the cache. -/
theorem schemaFor_known {entry : TypeExpr × SchemaGraph} (hfixed : t.changeable? = none)
    (hfind : cache.find? (fun e => e.1.same t) = some entry) :
    (ds.schemaFor cache t).1 = .ok entry.2 := by
  simp only [schemaFor, hfixed, hfind]

/-- The answer for a type that has no equal one in the cache. -/
theorem schemaFor_new (hfind : cache.find? (fun e => e.1.same t) = none) :
    (ds.schemaFor cache t).1 = (ds.schemaFor [] t).1 := by
  cases hfixed : t.changeable? with
  | some name => simp only [schemaFor, hfixed]
  | none =>
    simp only [schemaFor, hfixed, hfind, List.find?_nil]
    rcases ds.deriveSchema t with ⟨_ | graph, notices⟩ <;> rfl

/-- On an empty cache the schema of a type is derived, unless its literals can be changed. -/
theorem schemaFor_nil_eq_ok_iff :
    (ds.schemaFor [] t).1 = .ok g ↔ t.changeable? = none ∧ (ds.deriveSchema t).1 = .ok g := by
  rw [schemaFor, List.find?_nil]
  cases t.changeable? with
  | some name => simp
  | none =>
    rcases hderive : ds.deriveSchema t with ⟨_ | graph, notices⟩ <;> simp

/-- A schema is remembered for the type that it was derived for. -/
theorem schemaFor_nil_cache (h : (ds.schemaFor [] t).1 = .ok g) :
    (ds.schemaFor [] t).2.1 = [(t, g)] := by
  obtain ⟨hfixed, hderive⟩ := schemaFor_nil_eq_ok_iff.mp h
  rcases hresult : ds.deriveSchema t with ⟨result, notices⟩
  rw [hresult] at hderive
  dsimp only at hderive
  subst hderive
  rw [schemaFor, hfixed, List.find?_nil, hresult]
  rfl

/-- A type is remembered only when it has been asked for, with the answer of an empty cache. -/
theorem fresh_of_mem_after {asked : List TypeExpr}
    (h : (written, g) ∈ SchemaCache.after ds asked) :
    written ∈ asked ∧ (ds.schemaFor [] written).1 = .ok g := by
  induction asked using List.reverseRecOn with
  | nil => cases h
  | append_singleton asked t ih =>
    rw [SchemaCache.after_append_singleton] at h
    have hkept (hold : (written, g) ∈ SchemaCache.after ds asked) :
        written ∈ asked ++ [t] ∧ (ds.schemaFor [] written).1 = .ok g :=
      ⟨List.mem_append_left _ (ih hold).1, (ih hold).2⟩
    unfold schemaFor at h
    split at h
    · exact hkept h
    next hfixed =>
    split at h
    · exact hkept h
    split at h
    · exact hkept h
    next graph notices hderive =>
    rcases List.mem_append.mp h with hold | hnew
    · exact hkept hold
    · obtain ⟨rfl, rfl⟩ := Prod.mk.inj (List.mem_singleton.mp hnew)
      refine ⟨List.mem_append_right _ (List.mem_singleton_self _), ?_⟩
      exact schemaFor_nil_eq_ok_iff.mpr ⟨hfixed, congrArg Prod.fst hderive⟩

/-- Whatever has been asked for before, the answer for a type is the one of an empty cache for that
type or for an equal one of those before. -/
theorem exists_fresh_schemaFor (ds : Declarations) (asked : List TypeExpr) (t : TypeExpr) :
    ∃ written, (written = t ∨ written ∈ asked ∧ written.same t = true ∧ t.changeable? = none ∧
        (ds.schemaFor [] written).1.isOk) ∧
      (ds.schemaFor (SchemaCache.after ds asked) t).1 = (ds.schemaFor [] written).1 := by
  cases hfixed : t.changeable? with
  | some name => exact ⟨t, .inl rfl, by simp only [schemaFor, hfixed]⟩
  | none =>
    cases hfind : (SchemaCache.after ds asked).find? fun e => e.1.same t with
    | none => exact ⟨t, .inl rfl, schemaFor_new hfind⟩
    | some entry =>
      obtain ⟨hasked, hfresh⟩ := fresh_of_mem_after (List.mem_of_find?_eq_some hfind)
      have hsame := List.find?_some hfind
      refine ⟨entry.1, .inr ⟨hasked, hsame, rfl, by rw [hfresh]; rfl⟩, ?_⟩
      rw [hfresh, schemaFor_known hfixed hfind]

/-- The answer for a type is the same after every history just if every type that is equal to it
has the same schema. -/
theorem schemaFor_after_iff (ds : Declarations) (t : TypeExpr) :
    (∀ asked, (ds.schemaFor (SchemaCache.after ds asked) t).1 = (ds.schemaFor [] t).1) ↔
      (t.changeable? = none → ∀ written g, written.same t = true →
        (ds.schemaFor [] written).1 = .ok g → (ds.schemaFor [] t).1 = .ok g) := by
  constructor
  · intro htransparent hfixed written g hsame hwritten
    -- The history in which the equal type was asked for first.
    have hcache : SchemaCache.after ds [written] = [(written, g)] := schemaFor_nil_cache hwritten
    rw [← htransparent [written], hcache]
    exact schemaFor_known hfixed (List.find?_cons_of_pos hsame)
  · intro hequal asked
    obtain ⟨written, rfl | ⟨-, hsame, hfixed, hok⟩, hanswer⟩ := exists_fresh_schemaFor ds asked t
    · exact hanswer
    · cases hwritten : (ds.schemaFor [] written).1 with
      | error fault =>
        rw [hwritten] at hok
        cases hok
      | ok g => rw [hanswer, hwritten, hequal hfixed written g hsame hwritten]

/-- The schema of a literal type has its texts in the order in which they are given. -/
theorem schemaFor_nil_literal (ds : Declarations) (first : String) (rest : List String) :
    (ds.schemaFor [] (.literal ((first :: rest).map .text))).1 =
      .ok ⟨.string [Derivation.choice (first :: rest)], []⟩ := by
  have hfixed : (TypeExpr.literal ((first :: rest).map .text)).changeable? = none := by
    simp [TypeExpr.changeable?, Value.changeable?]
  refine schemaFor_nil_eq_ok_iff.mpr ⟨hfixed, ?_⟩
  rw [deriveSchema, shapeOf_literal]
  rfl

/-- Texts that have been given in one order before are alternatives in that order, although another
order is asked for. -/
theorem not_schemaFor_after :
    (empty.schemaFor (SchemaCache.after empty [.literal [.text "a", .text "b"]])
        (.literal [.text "b", .text "a"])).1 = .ok ⟨.string [.oneOf ["a", "b"]], []⟩ ∧
      (empty.schemaFor [] (.literal [.text "b", .text "a"])).1 =
        .ok ⟨.string [.oneOf ["b", "a"]], []⟩ := by
  refine ⟨?_, schemaFor_nil_literal empty "b" ["a"]⟩
  have hcache : SchemaCache.after empty [.literal [.text "a", .text "b"]] =
      [(.literal [.text "a", .text "b"], ⟨.string [.oneOf ["a", "b"]], []⟩)] :=
    schemaFor_nil_cache (schemaFor_nil_literal empty "a" ["b"])
  have hsame : (TypeExpr.literal [.text "a", .text "b"]).same (.literal [.text "b", .text "a"]) =
      true := by cbv
  rw [hcache]
  exact schemaFor_known (by cbv) (List.find?_cons_of_pos hsame)

end Declarations

end StructuredOutput

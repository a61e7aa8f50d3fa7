import Mathlib.Data.List.Forall2

/-!
Results that may be errors: when a step, a chain of steps or the steps over a list succeed.
-/

namespace StructuredOutput.Outcome

variable {ε ε' ε'' α β γ δ : Type}

@[simp] theorem bind_eq_ok {r : Except ε α} {f : α → Except ε β} {b : β} :
    (r >>= f) = .ok b ↔ ∃ a, r = .ok a ∧ f a = .ok b := by
  cases r <;> simp [bind, Except.bind]

@[simp] theorem pure_eq_ok {a b : α} : (pure a : Except ε α) = .ok b ↔ a = b := by
  simp [pure, Except.pure]

@[simp] theorem map_eq_ok {r : Except ε α} {f : α → β} {b : β} :
    r.map f = .ok b ↔ ∃ a, r = .ok a ∧ f a = b := by
  cases r <;> simp [Except.map]

@[simp] theorem functorMap_eq_ok {r : Except ε α} {f : α → β} {b : β} :
    f <$> r = .ok b ↔ ∃ a, r = .ok a ∧ f a = b := map_eq_ok

@[simp] theorem mapError_eq_ok {r : Except ε α} {f : ε → ε'} {a : α} :
    r.mapError f = .ok a ↔ r = .ok a := by
  cases r <;> simp [Except.mapError]

theorem bind_eq_error {r : Except ε α} {f : α → Except ε β} {e : ε} :
    (r >>= f) = .error e ↔ r = .error e ∨ ∃ a, r = .ok a ∧ f a = .error e := by
  cases r <;> simp [bind, Except.bind]

theorem map_eq_error {r : Except ε α} {f : α → β} {e : ε} :
    r.map f = .error e ↔ r = .error e := by
  cases r <;> simp [Except.map]

theorem functorMap_eq_error {r : Except ε α} {f : α → β} {e : ε} :
    f <$> r = .error e ↔ r = .error e := map_eq_error

theorem mapError_eq_error {r : Except ε α} {f : ε → ε'} {e : ε'} :
    r.mapError f = .error e ↔ ∃ cause, r = .error cause ∧ f cause = e := by
  cases r <;> simp [Except.mapError]

theorem mapError_mapError (r : Except ε α) (f : ε → ε') (g : ε' → ε'') :
    (r.mapError f).mapError g = r.mapError (g ∘ f) := by
  cases r <;> rfl

theorem bind_mapError (r : Except ε α) (f : α → Except ε β) (g : ε → ε') :
    (r >>= f).mapError g = r.mapError g >>= fun a => (f a).mapError g := by
  cases r <;> rfl

theorem map_mapError (r : Except ε α) (f : α → β) (g : ε → ε') :
    (r.map f).mapError g = (r.mapError g).map f := by
  cases r <;> rfl

theorem exists_mem_left {R : α → β → Prop} {xs : List α} {ys : List β}
    (h : List.Forall₂ R xs ys) {y : β} (hy : y ∈ ys) : ∃ x ∈ xs, R x y := by
  induction h with
  | nil => simp at hy
  | cons hx _ ih =>
    rcases List.mem_cons.mp hy with rfl | hy
    · exact ⟨_, List.mem_cons_self, hx⟩
    · obtain ⟨x, hmem, hr⟩ := ih hy
      exact ⟨x, List.mem_cons_of_mem _ hmem, hr⟩

theorem exists_mem_right {R : α → β → Prop} {xs : List α} {ys : List β}
    (h : List.Forall₂ R xs ys) {x : α} (hx : x ∈ xs) : ∃ y ∈ ys, R x y :=
  exists_mem_left (R := flip R) h.flip hx

/-- Related lists have items at the same indices, and these are related. -/
theorem exists_getElem?_right {R : α → β → Prop} {xs : List α} {ys : List β}
    (h : List.Forall₂ R xs ys) {i : Nat} {x : α} (hx : xs[i]? = some x) :
    ∃ y, ys[i]? = some y ∧ R x y := by
  obtain ⟨hlt, rfl⟩ := List.getElem?_eq_some_iff.mp hx
  have hy := List.getElem?_eq_getElem (h.length_eq ▸ hlt)
  exact ⟨_, hy, h.get hlt (h.length_eq ▸ hlt)⟩

theorem forall₂_iff_of_mem {R S : α → β → Prop} {xs : List α} {ys : List β}
    (h : ∀ x ∈ xs, ∀ y, R x y ↔ S x y) : List.Forall₂ R xs ys ↔ List.Forall₂ S xs ys := by
  simp only [List.forall₂_iff_get]
  exact and_congr_right fun _ => forall_congr' fun i => forall₂_congr fun hi _ =>
    h _ (List.get_mem xs ⟨i, hi⟩) _

/-- Relations between lists are composed item by item. -/
theorem forall₂_comp {R : α → β → Prop} {S : β → γ → Prop} {T : α → γ → Prop} {xs : List α}
    {ys : List β} {zs : List γ} (hxy : List.Forall₂ R xs ys) (hyz : List.Forall₂ S ys zs)
    (h : ∀ x ∈ xs, ∀ y ∈ ys, ∀ z ∈ zs, R x y → S y z → T x z) : List.Forall₂ T xs zs := by
  induction hxy generalizing zs with
  | nil =>
    cases hyz
    exact .nil
  | cons hx _ ih =>
    cases hyz with
    | cons hy hyz =>
      refine .cons (h _ List.mem_cons_self _ List.mem_cons_self _ List.mem_cons_self hx hy) ?_
      refine ih hyz fun x hx y hy z hz => ?_
      exact h x (List.mem_cons_of_mem _ hx) y (List.mem_cons_of_mem _ hy) z
        (List.mem_cons_of_mem _ hz)

/-- What two related lists have been made into agrees item by item, if related items are made into
what agrees. -/
theorem forall₂_comp₃ {R : α → γ → Prop} {S : α → β → Prop} {T : β → δ → Prop}
    {U : γ → δ → Prop} {xs : List α} {ys : List β} {es : List γ} {fs : List δ}
    (hes : List.Forall₂ R xs es) (hxy : List.Forall₂ S xs ys) (hfs : List.Forall₂ T ys fs)
    (h : ∀ x ∈ xs, ∀ y ∈ ys, ∀ e f, R x e → S x y → T y f → U e f) : List.Forall₂ U es fs := by
  have hey : List.Forall₂ (fun e y => ∃ x ∈ xs, R x e ∧ S x y) es ys :=
    forall₂_comp (R := flip R) hes.flip hxy fun e _ x hx y _ hre hsy => ⟨x, hx, hre, hsy⟩
  refine forall₂_comp hey hfs ?_
  rintro e - y hy f - ⟨x, hx, hre, hsy⟩ hty
  exact h x hx y hy e f hre hsy hty

/-- Items that are each related to something make a list that is related to a list. -/
theorem exists_forall₂ {R : α → β → Prop} {xs : List α} (h : ∀ x ∈ xs, ∃ y, R x y) :
    ∃ ys, List.Forall₂ R xs ys := by
  induction xs with
  | nil => exact ⟨[], .nil⟩
  | cons x xs ih =>
    obtain ⟨y, hy⟩ := h x List.mem_cons_self
    obtain ⟨ys, hys⟩ := ih fun z hz => h z (List.mem_cons_of_mem x hz)
    exact ⟨y :: ys, .cons hy hys⟩

/-- What is seen of each of several things at some depth is seen of all of them at one depth. -/
theorem exists_common_depth {α : Type} {seen : Nat → α → Prop} {xs : List α}
    (hmono : ∀ x depth more, depth ≤ more → seen depth x → seen more x)
    (h : ∀ x ∈ xs, ∃ depth, seen depth x) : ∃ depth, ∀ x ∈ xs, seen depth x := by
  induction xs with
  | nil => exact ⟨0, fun x hx => absurd hx List.not_mem_nil⟩
  | cons x xs ih =>
    obtain ⟨first, hfirst⟩ := h x List.mem_cons_self
    obtain ⟨rest, hrest⟩ := ih fun y hy => h y (List.mem_cons_of_mem x hy)
    refine ⟨max first rest, ?_⟩
    intro y hy
    rcases List.mem_cons.mp hy with rfl | hy
    · exact hmono y _ _ (Nat.le_max_left _ _) hfirst
    · exact hmono y _ _ (Nat.le_max_right _ _) (hrest y hy)

/-- The steps over a list succeed when each of them does. -/
theorem mapM_eq_ok {f : α → Except ε β} {xs : List α} {ys : List β} :
    xs.mapM f = .ok ys ↔ List.Forall₂ (fun x y => f x = .ok y) xs ys := by
  induction xs generalizing ys with
  | nil => cases ys <;> simp [pure, Except.pure]
  | cons x xs ih =>
    rw [List.mapM_cons, List.forall₂_cons_left_iff]
    simp only [bind_eq_ok, pure_eq_ok, ih]
    constructor
    · rintro ⟨y, hy, ys', hys, rfl⟩
      exact ⟨y, ys', hy, hys, rfl⟩
    · rintro ⟨y, ys', hy, hys, rfl⟩
      exact ⟨y, hy, ys', hys, rfl⟩

theorem exists_mapM {f : α → Except ε β} {xs : List α} (h : ∀ x ∈ xs, ∃ y, f x = .ok y) :
    ∃ ys, xs.mapM f = .ok ys := by
  obtain ⟨ys, hys⟩ := exists_forall₂ h
  exact ⟨ys, mapM_eq_ok.mpr hys⟩

/-- Steps that do the same to each item do the same over the list. -/
theorem mapM_congr {f g : α → Except ε β} {xs : List α} (h : ∀ x ∈ xs, f x = g x) :
    xs.mapM f = xs.mapM g := by
  induction xs with
  | nil => rfl
  | cons x xs ih =>
    rw [List.mapM_cons, List.mapM_cons, h x List.mem_cons_self,
      ih fun y hy => h y (List.mem_cons_of_mem x hy)]

/-- Errors may be changed at each step or after the last one. -/
theorem mapM_mapError (f : α → Except ε β) (g : ε → ε') (xs : List α) :
    (xs.mapM fun x => (f x).mapError g) = (xs.mapM f).mapError g := by
  induction xs with
  | nil => rfl
  | cons x xs ih => simp only [List.mapM_cons, bind_mapError, ih]; rfl

/-- The steps over a list fail as one of them does. -/
theorem exists_of_mapM_eq_error {f : α → Except ε β} {xs : List α} {e : ε}
    (h : xs.mapM f = .error e) : ∃ x ∈ xs, f x = .error e := by
  induction xs with
  | nil => cases h
  | cons x xs ih =>
    rw [List.mapM_cons, bind_eq_error] at h
    rcases h with h | ⟨y, -, h⟩
    · exact ⟨x, List.mem_cons_self, h⟩
    · rcases bind_eq_error.mp h with h | ⟨ys, -, h⟩
      · obtain ⟨z, hz, he⟩ := ih h
        exact ⟨z, List.mem_cons_of_mem x hz, he⟩
      · cases h

/-- The names in the results of steps that keep a name beside them. -/
theorem names_of_mapM {f : α → Except ε (β × γ)} {name : α → β} {xs : List α} {ys : List (β × γ)}
    (h : xs.mapM f = .ok ys) (hname : ∀ x y, f x = .ok y → y.1 = name x) :
    ys.map (·.1) = xs.map name := by
  rw [mapM_eq_ok] at h
  induction h with
  | nil => rfl
  | cons hx _ ih => simp [hname _ _ hx, ih]

end StructuredOutput.Outcome

import StructuredOutput.Entries
import Mathlib.Data.List.Forall2
import Mathlib.Data.List.Nodup

/-!
Named entries whose names differ: nothing is dropped, and looking up a name finds its entry.
-/

namespace StructuredOutput.Entries

variable {α β γ : Type}

@[simp] theorem names_nil : names ([] : List (α × β)) = [] := rfl

@[simp] theorem names_cons (e : α × β) (es : List (α × β)) : names (e :: es) = e.1 :: names es :=
  rfl

@[simp] theorem names_append (es fs : List (α × β)) : names (es ++ fs) = names es ++ names fs :=
  List.map_append

/-- Entries under the keys of other things stand beside these one by one. -/
theorem forall₂_of_names {es : List (α × β)} {xs : List γ} {key : γ → α}
    (h : names es = xs.map key) : List.Forall₂ (fun e x => e.1 = key x) es xs := by
  induction es generalizing xs with
  | nil =>
    cases xs with
    | nil => exact .nil
    | cons x xs => cases h
  | cons e es ih =>
    cases xs with
    | nil => cases h
    | cons x xs =>
      rw [names_cons, List.map_cons, List.cons.injEq] at h
      exact .cons h.1 (ih h.2)

variable [BEq α] [LawfulBEq α]

theorem get?_cons_self (n : α) (v : β) (es : List (α × β)) : get? ((n, v) :: es) n = some v := by
  simp [get?]

theorem get?_cons_of_ne {n m : α} (v : β) (es : List (α × β)) (h : n ≠ m) :
    get? ((n, v) :: es) m = get? es m := by
  simp [get?, h]

theorem get?_eq_none {es : List (α × β)} {n : α} : get? es n = none ↔ n ∉ names es := by
  induction es with
  | nil => simp [get?]
  | cons e es ih =>
    obtain ⟨m, v⟩ := e
    by_cases h : m = n
    · simp [get?, h]
    · simp [get?, h, ih, Ne.symm h]

theorem mem_of_get? {es : List (α × β)} {n : α} {v : β} (h : get? es n = some v) :
    (n, v) ∈ es := by
  induction es with
  | nil => simp [get?] at h
  | cons e es ih =>
    obtain ⟨m, w⟩ := e
    by_cases hm : m = n
    · subst hm
      simp_all [get?]
    · rw [get?_cons_of_ne w es hm] at h
      exact List.mem_cons_of_mem _ (ih h)

theorem get?_of_mem {es : List (α × β)} (hd : (names es).Nodup) {n : α} {v : β}
    (h : (n, v) ∈ es) : get? es n = some v := by
  induction es with
  | nil => simp at h
  | cons e es ih =>
    obtain ⟨m, w⟩ := e
    rw [names_cons, List.nodup_cons] at hd
    rcases List.mem_cons.mp h with heq | hmem
    · obtain ⟨rfl, rfl⟩ := Prod.mk.inj heq
      exact get?_cons_self n v es
    · have hn : n ∈ names es := List.mem_map.mpr ⟨(n, v), hmem, rfl⟩
      have hne : m ≠ n := fun hmn => hd.1 (hmn ▸ hn)
      rw [get?_cons_of_ne w es hne, ih hd.2 hmem]

/-- What is found does not depend on the order of names that differ. -/
theorem get?_perm {es fs : List (α × β)} (hd : (names es).Nodup) (h : es.Perm fs) (n : α) :
    get? es n = get? fs n := by
  have hnames : (names es).Perm (names fs) := h.map _
  cases hget : get? es n with
  | none =>
    rw [get?_eq_none, hnames.mem_iff, ← get?_eq_none] at hget
    exact hget.symm
  | some v =>
    have hmem : (n, v) ∈ fs := h.mem_iff.mp (mem_of_get? hget)
    exact (get?_of_mem (hnames.nodup_iff.mp hd) hmem).symm

theorem get?_map (f : β → γ) (es : List (α × β)) (n : α) :
    get? (es.map fun e => (e.1, f e.2)) n = (get? es n).map f := by
  induction es with
  | nil => rfl
  | cons e es ih =>
    obtain ⟨m, w⟩ := e
    by_cases hm : m = n <;> simp [get?, hm, ih]

theorem get?_append (es fs : List (α × β)) (n : α) :
    get? (es ++ fs) n = (get? es n).or (get? fs n) := by
  induction es with
  | nil => rfl
  | cons e es ih =>
    obtain ⟨m, w⟩ := e
    by_cases hm : m = n <;> simp [get?, hm, ih]

theorem put_of_not_mem {es : List (α × β)} {n : α} (v : β) (h : n ∉ names es) :
    put es n v = es ++ [(n, v)] := by
  induction es with
  | nil => rfl
  | cons e es ih =>
    obtain ⟨m, w⟩ := e
    simp only [names_cons, List.mem_cons, not_or] at h
    simp [put, Ne.symm h.1, ih h.2]

theorem putAll_of_nodup {es fs : List (α × β)} (h : (names (es ++ fs)).Nodup) :
    putAll es fs = es ++ fs := by
  induction fs generalizing es with
  | nil => simp [putAll]
  | cons f fs ih =>
    have hf : f.1 ∉ names es := by
      rw [names_append, names_cons, List.nodup_append'] at h
      exact fun hmem => h.2.2 hmem List.mem_cons_self
    have hstep : putAll es (f :: fs) = putAll (es ++ [f]) fs := by
      change putAll (put es f.1 f.2) fs = _
      rw [put_of_not_mem f.2 hf]
    rw [hstep, ih (by simpa using h)]
    simp

/-- Entries of different names all remain, in their order. -/
theorem ofList_of_nodup {es : List (α × β)} (h : (names es).Nodup) : ofList es = es := by
  have hall : (names ([] ++ es)).Nodup := h
  exact putAll_of_nodup hall

theorem mem_of_mem_put {es : List (α × β)} {n : α} {v : β} {e : α × β} (h : e ∈ put es n v) :
    e ∈ es ∨ e = (n, v) := by
  induction es with
  | nil =>
    right
    simpa [put] using h
  | cons f es ih =>
    obtain ⟨m, w⟩ := f
    by_cases hm : m = n
    · simp only [put, hm, beq_self_eq_true, ↓reduceIte, List.mem_cons] at h ⊢
      rcases h with h | h
      · exact .inr h
      · exact .inl (.inr h)
    · have hne : (m == n) = false := by simpa using hm
      simp only [put, hne, Bool.false_eq_true, ↓reduceIte, List.mem_cons] at h ⊢
      rcases h with h | h
      · exact .inl (.inl h)
      · exact (ih h).imp_left .inr

theorem nodup_put {es : List (α × β)} (h : (names es).Nodup) (n : α) (v : β) :
    (names (put es n v)).Nodup := by
  induction es with
  | nil => simp [put]
  | cons e es ih =>
    obtain ⟨m, w⟩ := e
    rw [names_cons, List.nodup_cons] at h
    by_cases hm : m = n
    · subst hm
      simpa [put] using h
    · have hne : (m == n) = false := by simpa using hm
      rw [put, hne, if_neg Bool.false_ne_true, names_cons, List.nodup_cons]
      refine ⟨fun hmem => ?_, ih h.2⟩
      obtain ⟨f, hf, hname⟩ := List.mem_map.mp hmem
      rcases mem_of_mem_put hf with hf | rfl
      · exact h.1 (hname ▸ List.mem_map_of_mem hf)
      · exact hm hname.symm

/-- What entries in which names recur leave behind has every name once and no new entry. -/
theorem putAll_spec {es : List (α × β)} (h : (names es).Nodup) (fs : List (α × β)) :
    (names (putAll es fs)).Nodup ∧ ∀ e ∈ putAll es fs, e ∈ es ∨ e ∈ fs := by
  induction fs generalizing es with
  | nil => exact ⟨h, fun e he => .inl he⟩
  | cons f fs ih =>
    obtain ⟨hnodup, hmem⟩ := ih (nodup_put h f.1 f.2)
    refine ⟨hnodup, fun e he => ?_⟩
    rcases hmem e he with he | he
    · rcases mem_of_mem_put he with he | rfl
      · exact .inl he
      · exact .inr List.mem_cons_self
    · exact .inr (List.mem_cons_of_mem f he)

theorem get?_putAll_of_not_mem {es fs : List (α × β)} {n : α} (h : n ∉ names fs) :
    get? (putAll es fs) n = get? es n := by
  induction fs generalizing es with
  | nil => rfl
  | cons f fs ih =>
    rw [names_cons, List.mem_cons, not_or] at h
    have hstep : get? (putAll es (f :: fs)) n = get? (put es f.1 f.2) n := ih h.2
    rw [hstep, get?_put_of_ne es f.2 h.1]

/-- The value that is set last for a name remains. -/
theorem get?_putAll_of_mem {es fs : List (α × β)} (hd : (names fs).Nodup) {n : α} {v : β}
    (h : (n, v) ∈ fs) : get? (putAll es fs) n = some v := by
  induction fs generalizing es with
  | nil => cases h
  | cons f fs ih =>
    rw [names_cons, List.nodup_cons] at hd
    rcases List.mem_cons.mp h with rfl | h
    · have hlater : get? (putAll es ((n, v) :: fs)) n = get? (put es n v) n :=
        get?_putAll_of_not_mem hd.1
      rw [hlater, get?_put_self]
    · exact ih hd.2 h

/-- A name that comes first stays there. -/
theorem exists_putAll_cons (n : α) (v : β) (es fs : List (α × β)) :
    ∃ w rest, putAll ((n, v) :: es) fs = (n, w) :: rest := by
  induction fs generalizing v es with
  | nil => exact ⟨v, es, rfl⟩
  | cons f fs ih =>
    by_cases hf : n = f.1
    · have hput : put ((n, v) :: es) f.1 f.2 = (n, f.2) :: es := by simp [put, hf]
      obtain ⟨w, rest, hrest⟩ := ih f.2 es
      exact ⟨w, rest, by rw [← hrest, ← hput]; rfl⟩
    · have hput : put ((n, v) :: es) f.1 f.2 = (n, v) :: put es f.1 f.2 := by simp [put, hf]
      obtain ⟨w, rest, hrest⟩ := ih v (put es f.1 f.2)
      exact ⟨w, rest, by rw [← hrest, ← hput]; rfl⟩

/-- Entries of the same names in the same order are related when the values of each name are. -/
theorem forall₂_of_get? {R : β → γ → Prop} {es : List (α × β)} {fs : List (α × γ)}
    (hnames : names es = names fs) (hd : (names es).Nodup)
    (hvalues : ∀ n v w, get? es n = some v → get? fs n = some w → R v w) :
    List.Forall₂ (fun e f => e.1 = f.1 ∧ R e.2 f.2) es fs := by
  induction es generalizing fs with
  | nil =>
    cases fs with
    | nil => exact .nil
    | cons f fs => cases hnames
  | cons e es ih =>
    cases fs with
    | nil => cases hnames
    | cons f fs =>
      obtain ⟨n, v⟩ := e
      obtain ⟨m, w⟩ := f
      simp only [names_cons, List.cons.injEq] at hnames
      obtain ⟨rfl, htail⟩ := hnames
      rw [names_cons, List.nodup_cons] at hd
      refine .cons ⟨rfl, hvalues n v w (get?_cons_self ..) (get?_cons_self ..)⟩
        (ih htail hd.2 fun k x y hx hy => hvalues k x y ?_ ?_)
      all_goals
        have hk : n ≠ k := by
          rintro rfl
          exact hd.1 (List.mem_map.mpr ⟨_, mem_of_get? hx, rfl⟩)
      · rw [get?_cons_of_ne v es hk, hx]
      · rw [get?_cons_of_ne w fs hk, hy]

/-! ### Distinct members -/

private theorem foldl_distinct_length (xs seen : List α) :
    (xs.foldl (fun seen x => if seen.contains x then seen else seen ++ [x]) seen).length ≤
      seen.length + xs.length := by
  induction xs generalizing seen with
  | nil => simp
  | cons x xs ih =>
    simp only [List.foldl_cons, List.length_cons]
    refine Nat.le_trans (ih _) ?_
    split
    · omega
    · simp only [List.length_append, List.length_singleton]
      omega

private theorem nodup_of_foldl_distinct {xs seen : List α} (hseen : seen.Nodup)
    (h : (xs.foldl (fun seen x => if seen.contains x then seen else seen ++ [x]) seen).length =
      seen.length + xs.length) : (seen ++ xs).Nodup := by
  induction xs generalizing seen with
  | nil => simpa using hseen
  | cons x xs ih =>
    simp only [List.foldl_cons, List.length_cons] at h
    by_cases hx : seen.contains x = true
    · have hle := foldl_distinct_length xs seen
      simp only [hx, ↓reduceIte] at h
      omega
    · simp only [hx, Bool.false_eq_true, ↓reduceIte] at h
      have hnot : x ∉ seen := by simpa using hx
      have hnew : (seen ++ [x]).Nodup := by
        rw [List.nodup_append']
        refine ⟨hseen, List.nodup_singleton x, ?_⟩
        simpa using hnot
      have hrest := ih hnew (by simp only [List.length_append, List.length_singleton]; omega)
      simpa using hrest

private theorem mem_foldl_distinct (xs seen : List α) (y : α) :
    y ∈ xs.foldl (fun seen x => if seen.contains x then seen else seen ++ [x]) seen ↔
      y ∈ seen ∨ y ∈ xs := by
  induction xs generalizing seen with
  | nil => simp
  | cons x xs ih =>
    rw [List.foldl_cons, ih]
    split
    · next hx =>
      have hmem : x ∈ seen := by simpa using hx
      constructor
      · rintro (hy | hy)
        · exact .inl hy
        · exact .inr (List.mem_cons_of_mem x hy)
      · rintro (hy | hy)
        · exact .inl hy
        · rcases List.mem_cons.mp hy with rfl | hy
          · exact .inl hmem
          · exact .inr hy
    · simp [or_assoc]

@[simp] theorem mem_distinct {xs : List α} {y : α} : y ∈ distinct xs ↔ y ∈ xs :=
  (mem_foldl_distinct xs [] y).trans (by simp)

/-- A list as long as that of its distinct members has no member twice. -/
theorem nodup_of_distinct_length {xs : List α} (h : (distinct xs).length = xs.length) :
    xs.Nodup := by
  have hnil : ([] : List α).Nodup := List.nodup_nil
  have hall : ([] ++ xs).Nodup := nodup_of_foldl_distinct hnil (by simpa [distinct] using h)
  exact hall

end StructuredOutput.Entries

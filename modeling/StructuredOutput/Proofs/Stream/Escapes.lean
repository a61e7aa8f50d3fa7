import Mathlib
import StructuredOutput.Proofs.Json.Masked
import StructuredOutput.Proofs.Stream.Truncation

/-!
Repairing a text that ends anywhere inside a document with `\u` in its strings. What is repaired is
masked as what is repaired of the masked text. It reads as JSON unless the text ends between `\u`
and the last of the four digits, in a string that is no key: there the string is closed without
the digits.
-/

namespace StructuredOutput.Repair

open Json Text

variable {cs ds : List Char} {keyed : Bool}

/-! ### Repairing masked texts -/

theorem step_b (s : Scan) : s.step 'b' = s.step 'u' := by
  unfold Scan.step
  split <;> rfl

/-- The scan does not see what is masked. -/
theorem steps_masked (s : Scan) (escaping : Bool) (cs : List Char) :
    s.steps (masked escaping cs) = s.steps cs := by
  induction cs generalizing s escaping with
  | nil => rfl
  | cons c cs ih =>
    rw [masked, Scan.steps_cons, Scan.steps_cons, ih]
    split
    · next hu =>
      have hc : c = 'u' := by simpa using (Bool.and_eq_true_iff.mp hu).2
      rw [hc, step_b]
    · rfl

theorem scan_masked (cs : List Char) : scan (masked false cs) = scan cs :=
  steps_masked _ false cs

theorem closeString_masked (s : Scan) (cs : List Char) :
    closeString s (masked false cs) = masked false (closeString s cs) := by
  unfold closeString
  split
  · split
    · rw [masked_append_of_not_mem _ _ (by decide), masked_dropLast]
    · rw [masked_append_of_not_mem _ _ (by decide)]
  · rfl

theorem cutBack_masked (cs : List Char) (os : List Opened) :
    cutBack (masked false cs) os = (masked false (cutBack cs os).1, (cutBack cs os).2) := by
  induction os generalizing cs with
  | nil => rfl
  | cons o os ih =>
    rw [cutBack, cutBack]
    cases o.comma with
    | some i =>
      dsimp only
      rw [masked_take]
    | none =>
      dsimp only
      rw [← masked_take, ih]

theorem u_not_mem_closers (os : List Opened) : 'u' ∉ closers os := by
  intro h
  obtain ⟨o, -, ho⟩ := List.mem_map.mp h
  split at ho <;> cases ho

theorem isBlank_of_masked {c d : Char} (h : d = c ∨ c = 'u' ∧ d = 'b') : isBlank d = isBlank c := by
  rcases h with rfl | ⟨rfl, rfl⟩ <;> rfl

theorem trimLeft_masked (cs : List Char) :
    trimLeft (masked false cs) = masked false (trimLeft cs) := by
  unfold trimLeft
  induction cs with
  | nil => rfl
  | cons c cs ih =>
    by_cases hblank : isBlank c = true
    · have hc : c ≠ '\\' := by
        rintro rfl
        cases hblank
      rw [masked_cons_of_ne hc, List.dropWhile_cons_of_pos hblank, ih,
        List.dropWhile_cons_of_pos hblank]
    · rw [List.dropWhile_cons_of_neg hblank, masked_cons, List.dropWhile_cons_of_neg hblank]

theorem trimRight_masked (escaping : Bool) (cs : List Char) :
    trimRight (masked escaping cs) = masked escaping (trimRight cs) := by
  unfold trimRight
  induction cs using List.reverseRecOn with
  | nil => rfl
  | append_singleton cs c ih =>
    obtain ⟨d, hd, hkept⟩ := exists_masked_concat escaping cs c
    have hsame := isBlank_of_masked hkept
    rw [hd, List.reverse_append, List.reverse_append, List.reverse_singleton,
      List.reverse_singleton, List.singleton_append, List.singleton_append]
    by_cases hblank : isBlank c = true
    · rw [List.dropWhile_cons_of_pos hblank, List.dropWhile_cons_of_pos (hsame.trans hblank), ih]
    · rw [List.dropWhile_cons_of_neg hblank,
        List.dropWhile_cons_of_neg (by rwa [hsame])]
      simp [hd]

theorem trim_masked (cs : List Char) : trim (masked false cs) = masked false (trim cs) := by
  rw [trim, trimLeft_masked, trimRight_masked]
  rfl

/-- A masked text ends in a word just if the text does. -/
theorem suffix_masked {word : List Char} (hword : word ∈ words) (cs : List Char) :
    word <:+ masked false cs ↔ word <:+ cs := by
  have hb : 'b' ∉ word := by
    simp only [words, List.mem_cons, List.not_mem_nil, or_false] at hword
    rcases hword with rfl | rfl | rfl <;> decide
  have hmasked (escaping : Bool) : masked escaping word = word := by
    simp only [words, List.mem_cons, List.not_mem_nil, or_false] at hword
    rcases hword with rfl | rfl | rfl <;> cases escaping <;> rfl
  constructor
  · rintro ⟨front, hfront⟩
    obtain ⟨escaping, happend⟩ := exists_masked_append false (cs.take front.length)
      (cs.drop front.length)
    rw [List.take_append_drop, ← hfront, masked_take, ← hfront, List.take_left] at happend
    have hdrop : cs.drop front.length = word :=
      eq_of_masked (List.append_cancel_left happend).symm hb
    rw [← hdrop]
    exact List.drop_suffix _ _
  · rintro ⟨front, rfl⟩
    obtain ⟨escaping, happend⟩ := exists_masked_append false front word
    rw [happend, hmasked]
    exact List.suffix_append _ _

theorem endsInValue_masked (cs : List Char) :
    endsInValue (masked false cs).reverse = endsInValue cs.reverse := by
  have hwords : (words.any fun w => w.reverse.isPrefixOf (masked false cs).reverse) =
      words.any fun w => w.reverse.isPrefixOf cs.reverse := by
    rw [Bool.eq_iff_iff, List.any_eq_true, List.any_eq_true]
    apply exists_congr
    intro w
    apply and_congr_right
    intro hw
    rw [List.isPrefixOf_iff_prefix, List.isPrefixOf_iff_prefix, List.reverse_prefix,
      List.reverse_prefix, suffix_masked hw]
  rcases List.eq_nil_or_concat cs with rfl | ⟨ds, c, rfl⟩
  · rfl
  · rw [List.concat_eq_append] at hwords ⊢
    obtain ⟨d, hd, hkept⟩ := exists_masked_concat false ds c
    rw [hd] at hwords ⊢
    simp only [List.reverse_append, List.reverse_singleton, List.singleton_append] at hwords ⊢
    rw [endsInValue, endsInValue, hwords]
    rcases hkept with rfl | ⟨rfl, rfl⟩ <;> rfl

theorem isComplete_masked (o : Opened) (cs : List Char) :
    isComplete o (masked false cs) = isComplete o cs := by
  have hend (ds : List Char) : ds.reverse.dropWhile isBlank = (trimRight ds).reverse := by
    rw [trimRight, List.reverse_reverse]
  rw [isComplete, isComplete, hend, hend, trimRight_masked, endsInValue_masked]

/-- What is left of a text, or an empty container, of a masked text. -/
theorem masked_kept (outermost : Opened) (kept : List Char) (remaining : List Opened) :
    (match trim (masked false kept ++ closers remaining) with
      | [] => if outermost.isObject then ['\x7b', '\x7d'] else ['[', ']']
      | result => result) =
    masked false (match trim (kept ++ closers remaining) with
      | [] => if outermost.isObject then ['\x7b', '\x7d'] else ['[', ']']
      | result => result) := by
  rw [← masked_append_of_not_mem false kept (u_not_mem_closers remaining), trim_masked]
  cases trim (kept ++ closers remaining) with
  | nil => cases outermost.isObject <;> rfl
  | cons c ds => rw [masked]

/-- What is repaired of a masked text is the masked text of what is repaired. -/
theorem repair_masked (cs : List Char) : repair (masked false cs) = masked false (repair cs) := by
  unfold repair
  simp only [scan_masked, closeString_masked, isComplete_masked, cutBack_masked]
  split
  · next o os outermost _ _ =>
    by_cases hcomplete : isComplete o (closeString (scan cs) cs) = true
    · rw [if_pos hcomplete, if_pos hcomplete]
      exact masked_kept outermost _ _
    · rw [if_neg hcomplete, if_neg hcomplete]
      exact masked_kept outermost _ _
  · exact trim_masked _

/-! ### Places that the scan knows -/

/-- The scan knows of a place whether it lies in a string and after a backslash. -/
structure Agrees (s : Scan) (p : Place) : Prop where
  inString : s.inString = true ↔ p ≠ Place.outside
  escaping : s.escaping = true ↔ p = .escaped

theorem Agrees.step {s : Scan} {p q : Place} {c : Char} (h : Agrees s p)
    (hstep : p.step c = some q) : Agrees (s.step c) q := by
  obtain ⟨hstring, hescaping⟩ := h
  cases p with
  | outside =>
    have hout : s.inString = false := by simpa using hstring
    have hplain : s.escaping = false := by simpa using hescaping
    rw [Place.step] at hstep
    split at hstep
    · next hquote =>
      cases hstep
      subst hquote
      constructor <;> simp [Scan.step, hout, hplain]
    split at hstep
    · cases hstep
    · next hquote _ =>
      cases hstep
      unfold Scan.step
      rw [if_neg (by simp [hout])]
      split
      · exact absurd rfl hquote
      all_goals constructor <;> simp [hout, hplain]
  | inside =>
    have hin : s.inString = true := by simpa using hstring
    have hplain : s.escaping = false := by simpa using hescaping
    simp only [Place.step] at hstep
    split at hstep
    · next hquote =>
      cases hstep
      subst hquote
      constructor <;> simp [Scan.step, hin, hplain]
    split at hstep
    · next hbackslash =>
      cases hstep
      subst hbackslash
      constructor <;> simp [Scan.step, hin, hplain]
    · next hquote hbackslash =>
      cases hstep
      constructor <;> simp [Scan.step, hin, hplain, hquote, hbackslash]
  | escaped =>
    have hin : s.inString = true := by simpa using hstring
    have hescape : s.escaping = true := by simpa using hescaping
    simp only [Place.step] at hstep
    split at hstep <;> cases hstep <;> constructor <;> simp [Scan.step, hin, hescape]
  | owing n =>
    have hin : s.inString = true := by simpa using hstring
    have hplain : s.escaping = false := by simpa using hescaping
    simp only [Place.step] at hstep
    split at hstep
    · next hdigit =>
      obtain ⟨hquote, hbackslash, -⟩ := plain_of_hexDigit hdigit
      cases n <;> cases hstep <;> constructor <;>
        simp [Scan.step, hin, hplain, hquote, hbackslash]
    · cases hstep

theorem Agrees.walk {s : Scan} {p q : Place} (h : Agrees s p) (hwalk : p.walk cs = some q) :
    Agrees (s.steps cs) q := by
  induction cs generalizing s p with
  | nil =>
    cases hwalk
    exact h
  | cons c cs ih =>
    rw [Place.walk_cons, Option.bind_eq_some_iff] at hwalk
    obtain ⟨r, hr, hwalk⟩ := hwalk
    exact ih (h.step hr) hwalk

theorem agrees_scan {p : Place} (h : Place.outside.walk cs = some p) : Agrees (scan cs) p := by
  have hstart : Agrees ⟨0, false, false, []⟩ Place.outside := by constructor <;> simp
  exact hstart.walk h

/-- In a string nothing is opened or closed. -/
theorem opened_step {s : Scan} (h : s.inString = true) (c : Char) :
    (s.step c).opened = s.opened := by
  unfold Scan.step
  rw [if_pos h]
  split
  · rfl
  split
  · rfl
  split <;> rfl

theorem scan_concat (cs : List Char) (c : Char) : scan (cs ++ [c]) = (scan cs).step c := by
  simp [scan]

/-- The brackets and commas that the scan remembers stand outside of strings. -/
structure Marked (cs : List Char) (o : Opened) : Prop where
  start : o.start < cs.length ∧ Place.outside.walk (cs.take o.start) = some .outside
  comma : ∀ i, o.comma = some i → i < cs.length ∧ Place.outside.walk (cs.take i) = some .outside

theorem Marked.concat {o : Opened} (h : Marked cs o) (c : Char) : Marked (cs ++ [c]) o := by
  have hmark {i : Nat} (hi : i < cs.length ∧ Place.outside.walk (cs.take i) = some .outside) :
      i < (cs ++ [c]).length ∧ Place.outside.walk ((cs ++ [c]).take i) = some .outside := by
    rw [List.take_append_of_le_length (Nat.le_of_lt hi.1), List.length_append]
    exact ⟨Nat.lt_add_right _ hi.1, hi.2⟩
  exact ⟨hmark h.start, fun i hi => hmark (h.comma i hi)⟩

theorem length_scan (cs : List Char) : (scan cs).length = cs.length := by
  induction cs using List.reverseRecOn with
  | nil => rfl
  | append_singleton cs c ih =>
    have hstep : ((scan cs).step c).length = (scan cs).length + 1 := by
      unfold Scan.step
      split
      · split
        · rfl
        split
        · rfl
        split <;> rfl
      · split <;> rfl
    rw [scan_concat, hstep, ih, List.length_append]
    rfl

/-- What is opened by one more character outside of strings, and where commas are noted. -/
theorem marked_step (hout : (scan cs).inString = false)
    (hwalk : Place.outside.walk cs = some .outside)
    (h : ∀ o ∈ (scan cs).opened, Marked cs o) (c : Char) :
    ∀ o ∈ ((scan cs).step c).opened, Marked (cs ++ [c]) o := by
  have hhere : (scan cs).length < (cs ++ [c]).length ∧
      Place.outside.walk ((cs ++ [c]).take (scan cs).length) = some .outside := by
    rw [length_scan, List.take_left]
    exact ⟨by simp, hwalk⟩
  have hkept : ∀ o ∈ (scan cs).opened, Marked (cs ++ [c]) o := fun o ho => (h o ho).concat c
  have hchanged {f : Opened → Opened} (hf : ∀ o, Marked (cs ++ [c]) o → Marked (cs ++ [c]) (f o)) :
      ∀ o ∈ changeInner (scan cs).opened f, Marked (cs ++ [c]) o := by
    intro o ho
    cases hopened : (scan cs).opened with
    | nil => simp [hopened, changeInner] at ho
    | cons p ps =>
      rw [hopened] at ho hkept
      rcases List.mem_cons.mp ho with rfl | ho
      · exact hf p (hkept p List.mem_cons_self)
      · exact hkept o (List.mem_cons_of_mem p ho)
  have hopen (isObject : Bool) : Marked (cs ++ [c]) ⟨isObject, (scan cs).length, none, none⟩ :=
    ⟨hhere, fun i hi => by cases hi⟩
  intro o ho
  unfold Scan.step at ho
  rw [if_neg (by simp [hout])] at ho
  split at ho
  · exact hkept o ho
  · rcases List.mem_cons.mp ho with rfl | ho
    · exact hopen true
    · exact hkept o ho
  · rcases List.mem_cons.mp ho with rfl | ho
    · exact hopen false
    · exact hkept o ho
  · exact hkept o (List.mem_of_mem_tail ho)
  · exact hkept o (List.mem_of_mem_tail ho)
  · apply hchanged _ o ho
    intro p hp
    exact ⟨hp.start, fun i hi => by cases hi; exact hhere⟩
  · apply hchanged _ o ho
    intro p hp
    exact ⟨hp.start, hp.comma⟩
  · exact hkept o ho

theorem marked_scan {p : Place} (h : Place.outside.walk cs = some p) :
    ∀ o ∈ (scan cs).opened, Marked cs o := by
  induction cs using List.reverseRecOn generalizing p with
  | nil =>
    intro o ho
    cases ho
  | append_singleton cs c ih =>
    obtain ⟨q, hq⟩ := Place.exists_walk_of_prefix (List.prefix_append cs [c]) (by rw [h]; rfl)
    have hagrees := agrees_scan hq
    rw [scan_concat]
    cases hstring : (scan cs).inString with
    | false =>
      have hout : q = Place.outside := by
        by_contra hq
        rw [hagrees.inString.mpr hq] at hstring
        cases hstring
      subst hout
      exact marked_step hstring hq (ih hq) c
    | true =>
      rw [opened_step hstring]
      exact fun o ho => (ih hq o ho).concat c

/-! ### Ends inside escapes -/

/-- A text ends between `\u` and the last of the four digits after it, in a string that is no key:
a value comes next in the innermost container. -/
def EndsInEscape (cs : List Char) : Prop :=
  ∃ front digits, cs = front ++ '\\' :: 'u' :: digits ∧ digits.length < 4 ∧
    (scan front).inString = true ∧ (scan front).escaping = false ∧
      ∀ o, (scan front).opened.head? = some o → o.expectsValue = true

/-- No container is opened or closed where digits are owed. -/
theorem opened_steps_owing {s : Scan} {n : Nat} (h : Agrees s (.owing n))
    (hwalk : ((Place.owing n).walk ds).isSome = true) (hlength : ds.length ≤ n) :
    (s.steps ds).opened = s.opened := by
  induction ds generalizing s n with
  | nil => rfl
  | cons d ds ih =>
    have hstring : s.inString = true := h.inString.mpr (by simp)
    obtain _ | n := n
    · cases hlength
    have hstep := Place.step_owing hwalk
    rw [Place.walk_of_step hstep] at hwalk
    rw [Scan.steps_cons, ih (h.step hstep) hwalk (Nat.le_of_succ_le_succ hlength),
      opened_step hstring]

theorem opened_escape {front digits : List Char}
    (hfront : Place.outside.walk front = some .inside)
    (hwalk : ((Place.owing 3).walk digits).isSome = true) (hlength : digits.length ≤ 3) :
    (scan (front ++ '\\' :: 'u' :: digits)).opened = (scan front).opened := by
  have hagrees := agrees_scan hfront
  have hbackslash : Agrees ((scan front).step '\\') .escaped := hagrees.step rfl
  have hu : Agrees (((scan front).step '\\').step 'u') (.owing 3) := hbackslash.step rfl
  have hscan : scan (front ++ '\\' :: 'u' :: digits) =
      (((scan front).step '\\').step 'u').steps digits := Scan.steps_append _ front _
  rw [hscan, opened_steps_owing hu hwalk hlength,
    opened_step (hbackslash.inString.mpr (by simp)), opened_step (hagrees.inString.mpr (by simp))]

/-- A text ends in an escape of a string that is no key just if digits are owed and the innermost
container, if there is one, expects a value. -/
theorem endsInEscape_iff {p : Place} (h : Place.outside.walk cs = some p) :
    EndsInEscape cs ↔
      (∃ n, p = .owing n) ∧ ∀ o, (scan cs).opened.head? = some o → o.expectsValue = true := by
  constructor
  · rintro ⟨front, digits, rfl, hlength, hstring, hescaping, hexpects⟩
    rw [Place.walk_append, Option.bind_eq_some_iff] at h
    obtain ⟨q, hfront, hrest⟩ := h
    have hagrees := agrees_scan hfront
    have hinside : q = .inside := by
      cases q with
      | outside => exact absurd rfl (hagrees.inString.mp hstring)
      | inside => rfl
      | escaped =>
        rw [hagrees.escaping.mpr rfl] at hescaping
        cases hescaping
      | owing n => cases hrest
    subst hinside
    have howing : (Place.owing 3).walk digits = some p := hrest
    have hle : digits.length ≤ 3 := Nat.le_of_lt_succ hlength
    have hsome : ((Place.owing 3).walk digits).isSome = true := by rw [howing]; rfl
    rw [Place.walk_owing hsome hle] at howing
    cases howing
    rw [opened_escape hfront hsome hle]
    exact ⟨⟨_, rfl⟩, hexpects⟩
  · rintro ⟨⟨n, rfl⟩, hexpects⟩
    obtain ⟨front, digits, rfl, hlength, hfront⟩ := Place.exists_of_walk_eq_owing h
    have hsome : ((Place.owing 3).walk digits).isSome = true := by
      rw [Place.walk_append, hfront] at h
      have howing : (Place.owing 3).walk digits = some (.owing n) := h
      rw [howing]
      rfl
    have hagrees := agrees_scan hfront
    rw [opened_escape hfront hsome (by omega)] at hexpects
    refine ⟨front, digits, rfl, by omega, hagrees.inString.mpr (by simp), ?_, hexpects⟩
    apply Bool.eq_false_of_not_eq_true
    intro hescaping
    cases hagrees.escaping.mp hescaping

/-! ### What is repaired -/

theorem plain_closers (os : List Opened) : Plain (closers os) := by
  have hmem {c : Char} (h : c ∈ closers os) : c = '\x7d' ∨ c = ']' := by
    obtain ⟨o, -, rfl⟩ := List.mem_map.mp h
    split
    · exact .inl rfl
    · exact .inr rfl
  constructor <;> intro h <;> rcases hmem h with h | h <;> cases h

theorem walk_append_plain (hwalk : Place.outside.walk cs = some .outside) (hds : Plain ds) :
    Place.outside.walk (cs ++ ds) = some .outside := by
  rw [Place.walk_append, hwalk]
  have hplain := hds.walk []
  rwa [List.append_nil] at hplain

/-- An open string is closed, unless digits are owed. -/
theorem walk_closeString {p : Place} (h : Place.outside.walk cs = some p)
    (howing : ∀ n, p ≠ .owing n) :
    Place.outside.walk (closeString (scan cs) cs) = some .outside := by
  have hagrees := agrees_scan h
  unfold closeString
  cases p with
  | outside =>
    have hout : (scan cs).inString = false := by simpa using hagrees.inString
    rwa [if_neg (by simp [hout])]
  | inside =>
    have hplain : (scan cs).escaping = false := by simpa using hagrees.escaping
    rw [if_pos (hagrees.inString.mpr (by simp)), if_neg (by simp [hplain])]
    exact Place.walk_concat.mpr ⟨_, h, rfl⟩
  | escaped =>
    rw [if_pos (hagrees.inString.mpr (by simp)), if_pos (hagrees.escaping.mpr rfl)]
    rcases List.eq_nil_or_concat cs with rfl | ⟨front, c, rfl⟩
    · cases h
    · rw [List.concat_eq_append] at h ⊢
      obtain ⟨q, hq, hstep⟩ := Place.walk_concat.mp h
      obtain ⟨rfl, -⟩ := Place.step_eq_escaped hstep
      rw [List.dropLast_concat]
      exact Place.walk_concat.mpr ⟨_, hq, rfl⟩
  | owing n => exact absurd rfl (howing n)

theorem take_closeString {i : Nat} (hi : i < cs.length) (s : Scan) :
    (closeString s cs).take i = cs.take i := by
  unfold closeString
  split
  · split
    · rw [List.dropLast_eq_take, List.take_append_of_le_length (by rw [List.length_take]; omega),
        List.take_take, Nat.min_eq_left (by omega)]
    · rw [List.take_append_of_le_length (Nat.le_of_lt hi)]
  · rfl

/-- What is cut back to a mark ends outside of strings. -/
theorem walk_cutBack {o : Opened} {os : List Opened}
    (h : ∀ p ∈ o :: os, Place.outside.walk (cs.take p.start) = some .outside ∧
      ∀ i, p.comma = some i → Place.outside.walk (cs.take i) = some .outside) :
    Place.outside.walk (cutBack cs (o :: os)).1 = some .outside := by
  induction os generalizing cs o with
  | nil =>
    obtain ⟨hstart, hcomma⟩ := h o List.mem_cons_self
    rw [cutBack]
    cases hi : o.comma with
    | some i => exact hcomma i hi
    | none => exact hstart
  | cons p os ih =>
    obtain ⟨hstart, hcomma⟩ := h o List.mem_cons_self
    rw [cutBack]
    cases hi : o.comma with
    | some i => exact hcomma i hi
    | none =>
      have htaken {i : Nat} (hi : Place.outside.walk (cs.take i) = some .outside) :
          Place.outside.walk ((cs.take o.start).take i) = some .outside := by
        rw [List.take_take]
        rcases Nat.le_total i o.start with hle | hle
        · rwa [Nat.min_eq_left hle]
        · rwa [Nat.min_eq_right hle]
      apply ih
      intro q hq
      obtain ⟨hqstart, hqcomma⟩ := h q (List.mem_cons_of_mem o hq)
      exact ⟨htaken hqstart, fun i hi => htaken (hqcomma i hi)⟩

theorem walk_retreat {o : Opened} {os : List Opened} {p : Place}
    (h : Place.outside.walk cs = some p) (hopened : (scan cs).opened = o :: os) :
    Place.outside.walk (retreat (closeString (scan cs) cs) (o :: os)) = some .outside := by
  apply walk_append_plain _ (plain_closers _)
  apply walk_cutBack
  intro q hq
  have hmarked := marked_scan h q (by rwa [hopened])
  refine ⟨?_, fun i hi => ?_⟩
  · rw [take_closeString hmarked.start.1]
    exact hmarked.start.2
  · rw [take_closeString (hmarked.comma i hi).1]
    exact (hmarked.comma i hi).2

/-- A text is closed outside of strings, unless digits are owed in a string that is no key. -/
theorem walk_closing {p : Place} (h : Place.outside.walk cs = some p) (hends : ¬EndsInEscape cs) :
    Place.outside.walk (closing (scan cs) cs) = some .outside := by
  rw [endsInEscape_iff h] at hends
  cases hopened : (scan cs).opened with
  | nil =>
    have howing : ∀ n, p ≠ .owing n := by
      rintro n rfl
      exact hends ⟨⟨n, rfl⟩, by simp [hopened]⟩
    rw [closing, hopened]
    exact walk_closeString h howing
  | cons o os =>
    rw [closing_eq hopened rfl]
    by_cases hcomplete : isComplete o (closeString (scan cs) cs) = true
    · have hexpects : o.expectsValue = true := (Bool.and_eq_true_iff.mp hcomplete).1
      have howing : ∀ n, p ≠ .owing n := by
        rintro n rfl
        refine hends ⟨⟨n, rfl⟩, fun q hq => ?_⟩
        rw [hopened] at hq
        cases hq
        exact hexpects
      rw [if_pos hcomplete]
      exact walk_append_plain (walk_closeString h howing) (plain_closers _)
    · rw [if_neg hcomplete]
      exact walk_retreat h hopened

/-- Where digits are owed in a string that is no key, the string is closed without them. -/
theorem exists_closing_of_endsInEscape {p : Place} (h : Place.outside.walk cs = some p)
    (hends : EndsInEscape cs) :
    ∃ ds c, closing (scan cs) cs = ds ++ [c] ∧ isBlank c = false ∧
      Place.outside.walk (ds ++ [c]) = none := by
  obtain ⟨⟨n, rfl⟩, hexpects⟩ := (endsInEscape_iff h).mp hends
  have hagrees := agrees_scan h
  have hplain : (scan cs).escaping = false := by simpa using hagrees.escaping
  have hclosed : closeString (scan cs) cs = cs ++ ['"'] := by
    unfold closeString
    rw [if_pos (hagrees.inString.mpr (by simp)), if_neg (by simp [hplain])]
  have hstuck (es : List Char) : Place.outside.walk (cs ++ ['"'] ++ es) = none := by
    rw [Place.walk_append, Place.walk_append, h]
    rfl
  cases hopened : (scan cs).opened with
  | nil =>
    refine ⟨cs, '"', ?_, rfl, ?_⟩
    · rw [closing, hopened, hclosed]
    · have hnone := hstuck []
      rwa [List.append_nil] at hnone
  | cons o os =>
    have ho : o.expectsValue = true := hexpects o (by rw [hopened]; rfl)
    have hcomplete : isComplete o (cs ++ ['"']) = true := by
      rw [isComplete, ho, endsInValue_quote]
      rfl
    rw [closing_eq hopened hclosed, if_pos hcomplete]
    rcases List.eq_nil_or_concat (closers (o :: os)) with hnil | ⟨es, c, hes⟩
    · cases hnil
    · rw [List.concat_eq_append] at hes
      refine ⟨cs ++ ['"'] ++ es, c, by rw [hes, ← List.append_assoc], ?_, ?_⟩
      · have hmem : c ∈ closers (o :: os) := by simp [hes]
        obtain ⟨q, -, rfl⟩ := List.mem_map.mp hmem
        exact (isBlank_bracket q.isObject).2
      · rw [List.append_assoc]
        exact hstuck _

theorem plain_blanks (cs : List Char) : Plain (cs.takeWhile isBlank) := by
  have hblank {c : Char} (h : c ∈ cs.takeWhile isBlank) : isBlank c = true :=
    List.all_eq_true.mp List.all_takeWhile c h
  constructor <;> intro h <;> cases hblank h

theorem walk_trimLeft (cs : List Char) :
    Place.outside.walk (trimLeft cs) = Place.outside.walk cs := by
  have hblanks := (plain_blanks cs).walk (trimLeft cs)
  rw [trimLeft, List.takeWhile_append_dropWhile] at hblanks
  exact hblanks.symm

theorem trimRight_begins (cs : List Char) : trimRight cs <+: cs := by
  have hsuffix : cs.reverse.dropWhile isBlank <:+ cs.reverse := List.dropWhile_suffix _
  have hreverse := List.reverse_prefix.mpr hsuffix
  rwa [List.reverse_reverse] at hreverse

theorem exists_walk_trim {p : Place} (h : Place.outside.walk cs = some p) :
    ∃ q, Place.outside.walk (trim cs) = some q := by
  apply Place.exists_walk_of_prefix (trimRight_begins (trimLeft cs))
  rw [walk_trimLeft, h]
  rfl

theorem trim_concat {c : Char} (hc : isBlank c = false) (cs : List Char) :
    trim (cs ++ [c]) = trimLeft cs ++ [c] := by
  have hleft : trimLeft (cs ++ [c]) = trimLeft cs ++ [c] := by
    unfold trimLeft
    rw [List.dropWhile_append]
    split
    · next hempty => simp [List.isEmpty_iff.mp hempty, hc]
    · rfl
  rw [trim, hleft, trimRight, reverse_last hc]
  simp

/-- Repair trims a text that is closed, or puts an empty container if nothing is left of it. -/
theorem repair_cases (cs : List Char) :
    repair cs = trim (closing (scan cs) cs) ∨
      trim (closing (scan cs) cs) = [] ∧
        ∃ keyed, repair cs = [openBracket keyed, closeBracket keyed] := by
  cases hopened : (scan cs).opened with
  | nil =>
    left
    rw [repair, closing, hopened]
  | cons o os =>
    obtain ⟨last, hlast⟩ : ∃ last, (o :: os).getLast? = some last := ⟨_, rfl⟩
    rw [repair_eq hopened hlast]
    cases trim (closing (scan cs) cs) with
    | nil => exact .inr ⟨rfl, _, rfl⟩
    | cons c ds => exact .inl rfl

/-- Digits are missing in what is repaired just if they are missing at the end of the text. -/
theorem walk_repair {p : Place} (h : Place.outside.walk cs = some p) :
    (Place.outside.walk (repair cs)).isSome = true ↔ ¬EndsInEscape cs := by
  constructor
  · intro hrepair hends
    obtain ⟨ds, c, hclosing, hc, hwalk⟩ := exists_closing_of_endsInEscape h hends
    have htrim := trim_concat hc ds
    rw [← hclosing] at htrim
    rcases repair_cases cs with hcs | ⟨hnil, -⟩
    · have hleft : Place.outside.walk (trimLeft ds ++ [c]) = none := by
        rw [Place.walk_append, walk_trimLeft, ← Place.walk_append, hwalk]
      rw [hcs, htrim, hleft] at hrepair
      cases hrepair
    · rw [htrim] at hnil
      simp at hnil
  · intro hends
    obtain ⟨q, hq⟩ := exists_walk_trim (walk_closing h hends)
    rcases repair_cases cs with hcs | ⟨-, keyed, hcs⟩
    · rw [hcs, hq]
      rfl
    · rw [hcs]
      cases keyed <;> rfl

/-! ### Numbers -/

/-- Every number that is written in a text outside of strings is content. -/
def NumbersFinite (text : List Char) : Prop :=
  ∀ n < text.length, (scan (text.take n)).inString = false →
    (∀ c, (text.take n).getLast? = some c → isNumeral c = false) →
      ∀ j rest, readNumber (text.drop n) = .ok (j, rest) → IsContent j

/-- Whether a text does not end in a number. -/
def EndsApart (cs : List Char) : Prop := ∀ c, cs.getLast? = some c → isNumeral c = false

theorem endsApart_concat {c : Char} (hc : isNumeral c = false) : EndsApart (cs ++ [c]) := by
  intro d hd
  rw [List.getLast?_concat] at hd
  cases hd
  exact hc

theorem EndsApart.gap (h : EndsApart cs) (g : Gap) : EndsApart (cs ++ g.chars) := by
  rcases List.eq_nil_or_concat g.chars with hnil | ⟨ds, c, hg⟩
  · rwa [hnil, List.append_nil]
  · have hspace : isSpace c = true := g.blank c (by simp [hg])
    rw [hg, List.concat_eq_append, ← List.append_assoc]
    apply endsApart_concat
    simp only [isSpace, Bool.or_eq_true, decide_eq_true_eq] at hspace
    rcases hspace with ((rfl | rfl) | rfl) | rfl <;> rfl

theorem EndsApart.label (h : EndsApart cs) (label : Label keyed) :
    EndsApart (cs ++ label.text) := by
  cases label with
  | none => rwa [Label.text, List.append_nil]
  | key pieces before after =>
    have hcolon : cs ++ (Label.key pieces before after).text =
        cs ++ quotedText pieces ++ before.chars ++ [':'] ++ after.chars := by simp [Label.text]
    rw [hcolon]
    exact (endsApart_concat rfl).gap after

theorem EndsApart.of_masked (h : EndsApart (masked false cs)) : EndsApart cs := by
  rcases List.eq_nil_or_concat cs with rfl | ⟨ds, c, rfl⟩
  · exact h
  · rw [List.concat_eq_append] at h ⊢
    obtain ⟨d, hd, hkept⟩ := exists_masked_concat false ds c
    rw [hd] at h
    have hnumeral := h d List.getLast?_concat
    apply endsApart_concat
    rcases hkept with rfl | ⟨rfl, -⟩
    · exact hnumeral
    · rfl

/-- Where a masked text goes on with a number, so does the text. -/
theorem exists_rest_of_masked {escaping : Bool} (x : Numeral) {back : List Char}
    (hback : Stops continuesNumber back) (h : masked escaping cs = x.text ++ back) :
    ∃ rest, cs = x.text ++ rest ∧ Stops continuesNumber rest := by
  have hb : 'b' ∉ x.text := fun hb => ne_of_isNumeral (x.isNumeral_of_mem hb) rfl rfl
  have htake : cs.take x.text.length = x.text := by
    refine eq_of_masked (?_ : masked escaping _ = _) hb
    rw [masked_take, h, List.take_left]
  obtain ⟨escaping', happend⟩ :=
    exists_masked_append escaping (cs.take x.text.length) (cs.drop x.text.length)
  rw [List.take_append_drop, h, masked_take, h, List.take_left] at happend
  have hrest := (List.append_cancel_left happend).symm
  refine ⟨cs.drop x.text.length, ?_, ?_⟩
  · conv_lhs => rw [← List.take_append_drop x.text.length cs, htake]
  · cases hcs : cs.drop x.text.length with
    | nil => exact stops_nil _
    | cons c ds =>
      rw [hcs, masked] at hrest
      apply stops_cons
      have hfirst := hback _ (by rw [← hrest]; rfl)
      split at hfirst
      · next hu =>
        have hc : c = 'u' := by simpa using (Bool.and_eq_true_iff.mp hu).2
        rw [hc]
        rfl
      · exact hfirst

mutual

/-- A number that is written in a value stands apart and outside of strings. -/
theorem exists_place_written (v : Written) {x : Numeral} (hx : x ∈ v.numerals)
    {cs more : List Char} {os : List Opened} (hscan : scan cs = outside cs os)
    (hcs : EndsApart cs) (hmore : Stops continuesNumber more) :
    ∃ front back os', cs ++ (v.chars ++ more) = front ++ (x.text ++ back) ∧
      scan front = outside front os' ∧ EndsApart front ∧ Stops continuesNumber back := by
  cases v with
  | number n =>
    obtain rfl := List.mem_singleton.mp hx
    exact ⟨cs, more, os, rfl, hscan, hcs, hmore⟩
  | null | bool | text | empty => cases hx
  | container keyed before parts =>
    have hopen : scan (cs ++ [openBracket keyed] ++ before.chars) =
        outside (cs ++ [openBracket keyed] ++ before.chars)
          (⟨keyed, cs.length, none, none⟩ :: os) := by
      rw [← steps_gap, ← step_openBracket, ← hscan]
      simp [scan, Scan.steps]
    have hapart : EndsApart (cs ++ [openBracket keyed] ++ before.chars) :=
      EndsApart.gap (endsApart_concat (by cases keyed <;> rfl)) before
    obtain ⟨front, back, os', heq, hfront⟩ := exists_place_parts parts hx hopen hapart more
    refine ⟨front, back, os', ?_, hfront⟩
    rw [← heq]
    simp [Written.chars]
termination_by sizeOf v

theorem exists_place_parts {keyed : Bool} (p : Parts keyed) {x : Numeral} (hx : x ∈ p.numerals)
    {cs : List Char} {o : Opened} {os : List Opened}
    (hscan : scan cs = outside cs (o :: os)) (hcs : EndsApart cs) (more : List Char) :
    ∃ front back os', cs ++ (p.chars ++ more) = front ++ (x.text ++ back) ∧
      scan front = outside front os' ∧ EndsApart front ∧ Stops continuesNumber back := by
  have hlabel (label : Label keyed) : scan (cs ++ label.text) =
      outside (cs ++ label.text) (noteLabel cs o label :: os) := by
    rw [← steps_label, ← hscan]
    simp [scan, Scan.steps]
  cases p with
  | last label v after =>
    have hrest := stops_gap after (stops_closeBracket keyed more)
    obtain ⟨front, back, os', heq, hfront⟩ :=
      exists_place_written v hx (hlabel label) (hcs.label label) hrest
    refine ⟨front, back, os', ?_, hfront⟩
    rw [← heq]
    simp [Parts.chars]
  | more label v after before rest =>
    rcases List.mem_append.mp hx with hx | hx
    · have hrest : Stops continuesNumber
          (after.chars ++ ',' :: (before.chars ++ (rest.chars ++ more))) :=
        stops_gap after (stops_cons rfl)
      obtain ⟨front, back, os', heq, hfront⟩ :=
        exists_place_written v hx (hlabel label) (hcs.label label) hrest
      refine ⟨front, back, os', ?_, hfront⟩
      rw [← heq]
      simp [Parts.chars]
    · have hcomma : scan (cs ++ label.text ++ v.chars ++ after.chars ++ [','] ++ before.chars) =
          outside (cs ++ label.text ++ v.chars ++ after.chars ++ [','] ++ before.chars)
            ({ noteLabel cs o label with
                comma := some (cs ++ label.text ++ v.chars ++ after.chars).length } :: os) := by
        rw [← steps_gap, ← step_comma, ← steps_gap, ← steps_written, ← hlabel]
        simp [scan, Scan.steps]
      have hapart : EndsApart
          (cs ++ label.text ++ v.chars ++ after.chars ++ [','] ++ before.chars) :=
        EndsApart.gap (endsApart_concat rfl) before
      obtain ⟨front, back, os', heq, hfront⟩ := exists_place_parts rest hx hcomma hapart more
      refine ⟨front, back, os', ?_, hfront⟩
      rw [← heq]
      simp [Parts.chars]
termination_by sizeOf p

end

/-- The numbers of a document are those that its text, masked or not, has outside of strings. -/
theorem finite_of_masked {d : Document} (hmasked : masked false cs = d.chars)
    (hfinite : NumbersFinite cs) : d.value.Finite := by
  intro x hx
  have hbefore : scan d.before.chars = outside d.before.chars [] := by
    have hgap := scan_gap d.before []
    rwa [List.append_nil] at hgap
  have hnil : EndsApart [] := by
    intro c hc
    cases hc
  obtain ⟨front, back, os, heq, hscan, hapart, hback⟩ :=
    exists_place_written d.value hx hbefore (hnil.gap d.before) (stops_gap_end d.after)
  have hchars : masked false cs = front ++ (x.text ++ back) := hmasked.trans heq
  have hfront : masked false (cs.take front.length) = front := by
    rw [masked_take, hchars, List.take_left]
  obtain ⟨escaping, happend⟩ :=
    exists_masked_append false (cs.take front.length) (cs.drop front.length)
  rw [List.take_append_drop, hfront, hchars] at happend
  have hdrop := (List.append_cancel_left happend).symm
  obtain ⟨rest, hrest, hstops⟩ := exists_rest_of_masked x hback hdrop
  have hlength : front.length < cs.length := by
    by_contra hle
    rw [List.drop_eq_nil_of_le (Nat.not_lt.mp hle)] at hrest
    obtain ⟨c, ds, hcons, -⟩ := x.exists_text_cons
    rw [hcons] at hrest
    cases hrest
  apply hfinite front.length hlength
  · rw [← scan_masked, hfront, hscan]
    rfl
  · apply EndsApart.of_masked
    rwa [hfront]
  · rw [hrest]
    exact x.readNumber_text hstops

/-! ### What remains of numbers -/

theorem finite_remains {v : Written} (h : v.Finite) (n : Nat) : (remains v n).Finite := by
  rw [remains]
  cases hcut : v.cut n with
  | none =>
    intro x hx
    cases hx
  | some w =>
    intro x hx
    exact h x (v.numerals_cut hcut hx)

/-! ### Whole texts -/

open Content

theorem rootKind_of_depth {v : Written} (h : v.depth ≠ 0) : ∃ keyed, rootKind v = some keyed := by
  cases v with
  | empty keyed inside => exact ⟨keyed, rfl⟩
  | container keyed before parts => exact ⟨keyed, rfl⟩
  | null | bool | number | text => exact absurd rfl h

/-- A text with a container at its root is masked as a document with one. -/
theorem exists_masked_container {text : List Char} {whole : Content}
    (hparse : parse text = .ok whole) (hroot : whole.kind = .array ∨ whole.kind = .object) :
    ∃ (d : Document) (keyed : Bool), masked false text = d.chars ∧ rootKind d.value = some keyed ∧
      d.value.depth ≤ nestingLimit ∧ Place.outside.walk text = some .outside := by
  obtain ⟨j, hread, hj⟩ := parse_eq_ok.mp hparse
  obtain ⟨d, hmasked, hwalk, hdepth, hkind⟩ := exists_masked_document hread
  have hcontainer : d.value.depth ≠ 0 := by
    intro hzero
    obtain ⟨hitems, hentries⟩ := hkind hzero
    cases j with
    | array items => exact hitems items rfl
    | object entries => exact hentries entries rfl
    | null => cases hj; simp [kind] at hroot
    | bool b => cases hj; simp [kind] at hroot
    | string s => cases hj; simp [kind] at hroot
    | integer n => simp [kind_of_ofFinite hj] at hroot
    | real x => simp [kind_of_ofFloating hj] at hroot
  obtain ⟨keyed, hkeyed⟩ := rootKind_of_depth hcontainer
  exact ⟨d, keyed, hmasked, hkeyed, hdepth, hwalk⟩

end StructuredOutput.Repair

namespace StructuredOutput

open Repair

/-- Of a text with a container at its root, in which every number is finite, every beginning that
has the container's bracket is repaired to a text that can be read, unless it ends between `\u` and
the last of its digits, in a string that is no key. -/
theorem parse_repair_iff {text cs : List Char} {whole : Content}
    (hparse : Content.parse text = .ok whole)
    (hroot : whole.kind = .array ∨ whole.kind = .object) (hnumbers : NumbersFinite text)
    (hcs : cs <+: text) (hopen : ∃ c ∈ cs, c = '[' ∨ c = '\x7b') :
    (∃ c, Content.parse (repair cs) = .ok c) ↔ ¬EndsInEscape cs := by
  obtain ⟨d, keyed, hmasked, hkind, hdepth, hwalk⟩ := exists_masked_container hparse hroot
  obtain ⟨p, hp⟩ := Json.Place.exists_walk_of_prefix hcs (by rw [hwalk]; rfl)
  have hbegins : Json.masked false cs = d.chars.take cs.length := by
    rw [← hmasked, ← Json.masked_take, ← List.prefix_iff_eq_take.mp hcs]
  have hbefore : d.before.chars.length < cs.length := by
    by_contra hle
    rw [Json.Document.chars, List.take_append_of_le_length (Nat.not_lt.mp hle)] at hbegins
    have hspace : ∀ c ∈ d.before.chars.take cs.length, Json.isSpace c = true := fun c hc =>
      d.before.blank c (List.mem_of_mem_take hc)
    have hgap := Json.eq_of_masked hbegins fun hb => by cases hspace _ hb
    obtain ⟨c, hc, hbracket⟩ := hopen
    rw [hgap] at hc
    rcases hbracket with rfl | rfl <;> cases hspace _ hc
  have hrepair : Json.masked false (repair cs) =
      (remains d.value (cs.length - d.before.chars.length)).chars := by
    rw [← repair_masked, hbegins]
    exact repair_document d hkind hbefore
  let repaired : Json.Document :=
    ⟨Json.Gap.none, remains d.value (cs.length - d.before.chars.length), Json.Gap.none⟩
  have hmaskedRepair : Json.masked false (repair cs) = repaired.chars := by
    simpa [repaired, Json.Document.chars, Json.Gap.none] using hrepair
  rw [← walk_repair hp]
  constructor
  · rintro ⟨c, hc⟩
    obtain ⟨j, hj, -⟩ := Content.parse_eq_ok.mp hc
    obtain ⟨-, -, hend, -⟩ := Json.exists_masked_document hj
    rw [hend]
    rfl
  · intro hend
    obtain ⟨j, hj, hcontent⟩ := Json.exists_read_of_masked hmaskedRepair hend
      (Nat.le_trans (depth_remains hkind _) hdepth)
    obtain ⟨c, hc⟩ := hcontent (finite_remains (finite_of_masked hmasked hnumbers) _)
    exact ⟨c, Content.parse_eq_ok.mpr ⟨j, hj, hc⟩⟩

/-- An array of a string with an escaped code unit. -/
def accentText : List Char := "[\"\\u00e9\"]".toList

theorem parse_accentText : Content.parse accentText = .ok (.array [.string "é"]) := by cbv

theorem numbersFinite_accentText : NumbersFinite accentText := by
  have hnone : ∀ n < accentText.length, (scan (accentText.take n)).inString = false →
      (Json.readNumber (accentText.drop n)).toBool = false := by decide +kernel
  intro n hn hstring _ j rest hread
  have h := hnone n hn hstring
  rw [hread] at h
  cases h

theorem parse_repair_iff_accentText :
    (∃ c, Content.parse (repair (accentText.take 8)) = .ok c) ∧
      ¬∃ c, Content.parse (repair (accentText.take 7)) = .ok c := by
  have hiff (n : Nat) (hn : '[' ∈ accentText.take n) :=
    parse_repair_iff parse_accentText (.inl rfl) numbersFinite_accentText
      (List.take_prefix n accentText) ⟨'[', hn, .inl rfl⟩
  constructor
  · rw [hiff 8 (by decide +kernel), endsInEscape_iff (p := .inside) (by decide +kernel)]
    rintro ⟨⟨n, hn⟩, -⟩
    cases hn
  · rw [hiff 7 (by decide +kernel), not_not, endsInEscape_iff (p := .owing 0) (by decide +kernel)]
    exact ⟨⟨0, rfl⟩, by decide +kernel⟩

/-- A text that can be read need not be repaired to one where it ends inside an escape. -/
theorem not_parse_repair_accentText :
    Content.parse accentText = .ok (.array [.string "é"]) ∧ '[' ∈ accentText.take 6 ∧
      accentText.take 6 <+: accentText ∧
        ¬∃ c, Content.parse (repair (accentText.take 6)) = .ok c := by
  refine ⟨parse_accentText, by decide +kernel, List.take_prefix 6 _, ?_⟩
  have hrepair : repair (accentText.take 6) = "[\"\\u00\"]".toList := by decide +kernel
  rintro ⟨c, hc⟩
  rw [hrepair] at hc
  have hfault : Content.parse "[\"\\u00\"]".toList = .error
      (.malformed "[\"\\u00\"]".toList ⟨.unicodeEscape, "u00\"]".toList⟩) := by cbv
  rw [hfault] at hc
  cases hc

-- a number counts even where its entry is replaced: cut off before that, the first entry is left
example : (Content.parse "\x7b\"a\":1e999,\"a\":1\x7d".toList).toBool = true ∧
    (Content.parse (repair "\x7b\"a\":1e999,".toList)).toBool = false := by decide +kernel

end StructuredOutput

import Mathlib.Data.List.Forall2
import StructuredOutput.Content.Extract
import StructuredOutput.Proofs.Json.Reading
import StructuredOutput.Proofs.Outcome

/-!
Where a text has a block of JSON between fences. An opener is a fence, the word "json" in letters of
either case, blanks and a line break; its block goes up to the next fence.
-/

namespace StructuredOutput

open Text

def backtick : Char := Char.ofNat 0x60

/-- Characters that are the letters of a word, in either case. -/
def SameLetters (word cs : List Char) : Prop :=
  List.Forall₂ (fun letter c => isLetter letter c = true) word cs

/-- Characters that open a block of JSON. -/
def IsOpener (cs : List Char) : Prop :=
  ∃ word blanks, cs = fence ++ (word ++ (blanks ++ ['\n'])) ∧ SameLetters "json".toList word ∧
    ∀ c ∈ blanks, isBlank c = true

/-- Whether a text has a block of JSON between fences. -/
def Fenced (text : List Char) : Prop :=
  ∃ before opener body after, IsOpener opener ∧
    text = before ++ (opener ++ (body ++ (fence ++ after)))

variable {cs rest text before : List Char} {c : Char}

/-! ### Openers -/

theorem fence_eq : fence = [backtick, backtick, backtick] := rfl

theorem isLetter_backtick : isLetter backtick c = true ↔ c = backtick := by
  constructor
  · intro h
    have hlower : lowerAscii c = backtick := by
      rw [isLetter, Bool.or_eq_true, Bool.and_eq_true] at h
      rcases h with h | ⟨h, -⟩
      · exact of_decide_eq_true h
      · exact absurd h (by decide)
    unfold lowerAscii at hlower
    split at hlower
    · next hupper =>
      obtain ⟨hlow, hhigh⟩ : 65 ≤ c.toNat ∧ c.toNat ≤ 90 := hupper
      have hall : ∀ n < 26, Char.ofNat (65 + n + 32) ≠ backtick := by decide
      obtain ⟨n, hn⟩ := Nat.exists_eq_add_of_le hlow
      exact absurd (hn ▸ hlower) (hall n (by omega))
    · exact hlower
  · rintro rfl
    decide

theorem SameLetters.exists_append {u v : List Char} (h : SameLetters (u ++ v) cs) :
    ∃ first second, cs = first ++ second ∧ SameLetters u first ∧ SameLetters v second := by
  induction u generalizing cs with
  | nil => exact ⟨[], cs, rfl, .nil, h⟩
  | cons p ps ih =>
    obtain _ | ⟨hletter, hrest⟩ := h
    obtain ⟨first, second, rfl, hfirst, hsecond⟩ := ih hrest
    exact ⟨_ :: first, second, rfl, .cons hletter hfirst, hsecond⟩

theorem sameLetters_fence : SameLetters fence cs ↔ cs = fence := by
  constructor
  · intro h
    rw [fence_eq] at h
    rcases h with _ | ⟨h₁, _ | ⟨h₂, _ | ⟨h₃, _ | _⟩⟩⟩
    rw [isLetter_backtick.mp h₁, isLetter_backtick.mp h₂, isLetter_backtick.mp h₃, fence_eq]
  · rintro rfl
    have htick := isLetter_backtick.mpr (rfl : backtick = backtick)
    exact .cons htick (.cons htick (.cons htick .nil))

theorem afterIgnoringCase?_eq_some {word : List Char} :
    afterIgnoringCase? word cs = some rest ↔
      ∃ spelled, cs = spelled ++ rest ∧ SameLetters word spelled := by
  induction word generalizing cs with
  | nil =>
    constructor
    · intro h
      cases h
      exact ⟨[], rfl, .nil⟩
    · rintro ⟨_, rfl, ⟨⟩⟩
      rfl
  | cons p ps ih =>
    obtain _ | ⟨c, cs⟩ := cs
    · refine ⟨fun h => (by cases h), ?_⟩
      rintro ⟨_, heq, _ | _⟩
      cases heq
    rw [afterIgnoringCase?]
    split
    · next hletter =>
      rw [ih]
      constructor
      · rintro ⟨spelled, rfl, hspelled⟩
        exact ⟨c :: spelled, rfl, .cons hletter hspelled⟩
      · rintro ⟨_, heq, _ | ⟨-, hspelled⟩⟩
        cases heq
        exact ⟨_, rfl, hspelled⟩
    · next hletter =>
      refine ⟨fun h => (by cases h), ?_⟩
      rintro ⟨_, heq, _ | ⟨hspelled, -⟩⟩
      cases heq
      exact absurd hspelled hletter

theorem mem_afterLineBreaks : rest ∈ afterLineBreaks cs ↔
    ∃ blanks, cs = blanks ++ '\n' :: rest ∧ ∀ c ∈ blanks, isBlank c = true := by
  induction cs with
  | nil => simp [afterLineBreaks]
  | cons d cs ih =>
    -- either the first character is the line break, or it is one of the blanks
    have hcases : (∃ blanks, d :: cs = blanks ++ '\n' :: rest ∧ ∀ c ∈ blanks, isBlank c = true) ↔
        (d = '\n' ∧ cs = rest) ∨ (isBlank d = true ∧ rest ∈ afterLineBreaks cs) := by
      rw [ih]
      constructor
      · rintro ⟨_ | ⟨e, blanks⟩, heq, hblank⟩
        · cases heq
          exact .inl ⟨rfl, rfl⟩
        · cases heq
          obtain ⟨hd, hrest⟩ := List.forall_mem_cons.mp hblank
          exact .inr ⟨hd, blanks, rfl, hrest⟩
      · rintro (⟨rfl, rfl⟩ | ⟨hd, blanks, rfl, hblank⟩)
        · exact ⟨[], rfl, fun _ h => absurd h List.not_mem_nil⟩
        · exact ⟨d :: blanks, rfl, List.forall_mem_cons.mpr ⟨hd, hblank⟩⟩
    rw [hcases, afterLineBreaks]
    split
    · next hbreak =>
      subst hbreak
      have hblank : isBlank '\n' = true := by decide
      simp [hblank, or_comm, eq_comm]
    · next hbreak =>
      split
      · next hblank => simp [hbreak, hblank]
      · next hblank => simp [hbreak, hblank]

/-! ### Blocks -/

theorem untilFence?_eq_none : untilFence? cs = none ↔ ¬fence <:+: cs := by
  induction cs with
  | nil => exact iff_of_true rfl (by decide)
  | cons c cs ih =>
    rw [untilFence?, List.infix_cons_iff, ← List.isPrefixOf_iff_prefix]
    split
    · next hfence => simp [hfence]
    · next hfence => simp [hfence, ih]

/-- A block opens at the front of a text if an opener does and a fence follows. -/
theorem blockAt?_eq_none : blockAt? cs = none ↔
    ∀ opener rest, IsOpener opener → cs = opener ++ rest → ¬fence <:+: rest := by
  have hblock : blockAt? cs = none ↔ ∀ afterFence,
      afterIgnoringCase? (fence ++ "json".toList) cs = some afterFence →
        ∀ rest ∈ afterLineBreaks afterFence, ¬fence <:+: rest := by
    rw [blockAt?]
    cases afterIgnoringCase? (fence ++ "json".toList) cs with
    | none => simp
    | some afterFence => simp [untilFence?_eq_none]
  rw [hblock]
  constructor
  · rintro h opener rest ⟨word, blanks, rfl, hword, hblanks⟩ rfl
    have hletters : SameLetters (fence ++ "json".toList) (fence ++ word) :=
      List.rel_append (sameLetters_fence.mpr rfl) hword
    refine h (blanks ++ '\n' :: rest) (afterIgnoringCase?_eq_some.mpr ⟨_, ?_, hletters⟩) rest
      (mem_afterLineBreaks.mpr ⟨blanks, rfl, hblanks⟩)
    simp
  · intro h afterFence hafter rest hrest
    obtain ⟨spelled, rfl, hspelled⟩ := afterIgnoringCase?_eq_some.mp hafter
    obtain ⟨blanks, rfl, hblanks⟩ := mem_afterLineBreaks.mp hrest
    obtain ⟨first, word, rfl, hfirst, hword⟩ := hspelled.exists_append
    obtain rfl := sameLetters_fence.mp hfirst
    exact h _ rest ⟨word, blanks, rfl, hword, hblanks⟩ (by simp)

theorem firstBlock?_cons_eq_none :
    firstBlock? (c :: cs) = none ↔ blockAt? (c :: cs) = none ∧ firstBlock? cs = none := by
  rw [firstBlock?]
  cases blockAt? (c :: cs) <;> simp

/-- The search for a block finds none only where there is none. -/
theorem firstBlock?_eq_none : firstBlock? text = none ↔ ¬Fenced text := by
  induction text with
  | nil =>
    refine iff_of_true rfl ?_
    rintro ⟨before, opener, body, after, -, heq⟩
    simp [fence_eq] at heq
  | cons c cs ih =>
    rw [firstBlock?_cons_eq_none, ih, blockAt?_eq_none]
    constructor
    · rintro ⟨hfront, hrest⟩ ⟨before, opener, body, after, hopener, heq⟩
      obtain _ | ⟨d, before⟩ := before
      · exact hfront opener _ hopener heq ⟨body, after, List.append_assoc ..⟩
      · cases heq
        exact hrest ⟨before, opener, body, after, hopener, rfl⟩
    · intro h
      refine ⟨?_, ?_⟩
      · rintro opener rest hopener heq ⟨body, after, rfl⟩
        exact h ⟨[], opener, body, after, hopener, by simpa using heq⟩
      · rintro ⟨before, opener, body, after, hopener, rfl⟩
        exact h ⟨c :: before, opener, body, after, hopener, rfl⟩

/-! ### Texts with a fence inside -/

/-- Characters in front of another one, which they have not among them, come from before it. -/
theorem prefix_of_prefix_append_cons {p front behind : List Char} {d : Char} (hd : d ∉ p)
    (h : p <+: front ++ d :: behind) : p <+: front := by
  have hfront : front ++ [d] <+: front ++ d :: behind := ⟨behind, by simp⟩
  rcases Nat.lt_or_ge front.length p.length with hlength | hlength
  · have hshort : (front ++ [d]).length ≤ p.length := by
      rw [List.length_append]
      exact hlength
    have hmem := (List.prefix_of_prefix_length_le hfront h hshort).subset
    exact absurd (hmem (by simp)) hd
  · exact List.prefix_of_prefix_length_le h (List.prefix_append front _) hlength

/-- Characters around another one, which they have not among them, are all before or after it. -/
theorem infix_append_cons_iff {p front behind : List Char} {d : Char} (hd : d ∉ p) :
    p <:+: front ++ d :: behind ↔ p <:+: front ∨ p <:+: behind := by
  induction front with
  | nil =>
    rw [List.nil_append, List.infix_cons_iff]
    refine or_congr_left ⟨fun h => ?_, fun h => ?_⟩
    · rw [← List.nil_append (d :: behind)] at h
      exact (prefix_of_prefix_append_cons hd h).isInfix
    · rw [List.infix_nil.mp h]
      exact List.nil_prefix
  | cons c front ih =>
    have hbegins : p <+: c :: front ++ d :: behind ↔ p <+: c :: front :=
      ⟨prefix_of_prefix_append_cons hd, fun h => h.trans (List.prefix_append _ _)⟩
    rw [List.cons_append, List.infix_cons_iff, List.infix_cons_iff, ih, ← List.cons_append, hbegins,
      or_assoc]

theorem fence_infix_append {front : List Char} (h : backtick ∉ front) (behind : List Char) :
    fence <:+: front ++ behind ↔ fence <:+: behind := by
  induction front with
  | nil => rfl
  | cons c front ih =>
    obtain ⟨hc, hfront⟩ := not_or.mp fun hmem => h (List.mem_cons.mpr hmem)
    rw [List.cons_append, List.infix_cons_iff, ih hfront]
    refine or_iff_right fun hbegins => ?_
    rw [fence_eq] at hbegins
    exact hc (List.cons_prefix_cons.mp hbegins).1

/-- A fence is found where it first stands, here after one more character. -/
theorem untilFence?_append {front : List Char} {d : Char} (hd : d ≠ backtick)
    (hfront : ¬fence <:+: front) (behind : List Char) :
    untilFence? (front ++ d :: (fence ++ behind)) = some (front ++ [d]) := by
  have hfence : d ∉ fence := by simp [fence_eq, hd]
  have hnot (front : List Char) (h : ¬fence <:+: front) (behind : List Char) :
      ¬fence.isPrefixOf (front ++ d :: behind) = true := fun hbegins =>
    h (prefix_of_prefix_append_cons hfence (List.isPrefixOf_iff_prefix.mp hbegins)).isInfix
  induction front with
  | nil =>
    have hstart : fence.isPrefixOf (fence ++ behind) = true :=
      List.isPrefixOf_iff_prefix.mpr (List.prefix_append fence behind)
    have hstop : untilFence? (fence ++ behind) = some [] := if_pos hstart
    have hfirst : ¬fence.isPrefixOf (d :: (fence ++ behind)) = true := hnot [] hfront _
    rw [List.nil_append, untilFence?, if_neg hfirst, hstop]
    rfl
  | cons c front ih =>
    have htail : ¬fence <:+: front := fun h => hfront (List.infix_cons h)
    rw [List.cons_append, untilFence?, ← List.cons_append, if_neg (hnot _ hfront _), ih htail]
    rfl

/-- A fence inside the front of a text is found there. -/
theorem exists_untilFence? {front : List Char} (hfront : fence <:+: front) (behind : List Char) :
    ∃ block more,
      untilFence? (front ++ behind) = some block ∧ front = block ++ (fence ++ more) := by
  induction front with
  | nil => exact absurd hfront (by decide)
  | cons c front ih =>
    by_cases hstart : fence <+: c :: front
    · obtain ⟨more, hmore⟩ := hstart
      refine ⟨[], more, ?_, hmore.symm⟩
      have hbegins : fence.isPrefixOf (c :: (front ++ behind)) = true :=
        List.isPrefixOf_iff_prefix.mpr ⟨more ++ behind, by rw [← List.cons_append, ← hmore]; simp⟩
      rw [List.cons_append, untilFence?, if_pos hbegins]
    · have htail : fence <:+: front := (List.infix_cons_iff.mp hfront).resolve_left hstart
      obtain ⟨block, more, hblock, heq⟩ := ih htail
      have hbegins : ¬fence.isPrefixOf (c :: (front ++ behind)) = true := fun h => by
        -- the front is long enough for the fence
        have hlength := Nat.le_succ_of_le htail.length_le
        exact hstart (List.prefix_of_prefix_length_le (List.isPrefixOf_iff_prefix.mp h)
          (List.prefix_append (c :: front) behind) hlength)
      refine ⟨c :: block, more, ?_, congrArg (c :: ·) heq⟩
      rw [List.cons_append, untilFence?, if_neg hbegins, hblock]
      rfl

/-! ### The first block -/

/-- No backtick follows the fence of an opener in it. -/
theorem IsOpener.exists_tail {opener : List Char} (h : IsOpener opener) :
    ∃ d tail, opener = fence ++ d :: tail ∧ backtick ∉ d :: tail := by
  obtain ⟨word, blanks, rfl, hword, hblanks⟩ := h
  have hother : ("json".toList.all fun letter => !isLetter letter backtick) = true := by decide
  have hletters : backtick ∉ word := fun hmem => by
    obtain ⟨letter, hletter, hsame⟩ := Outcome.exists_mem_left hword hmem
    have hnot := List.all_eq_true.mp hother letter hletter
    rw [hsame] at hnot
    cases hnot
  have hblank : backtick ∉ blanks := fun hmem => by
    have hfalse := hblanks _ hmem
    revert hfalse
    decide
  obtain ⟨d, tail, htail⟩ := List.exists_cons_of_ne_nil
    (show word ++ (blanks ++ ['\n']) ≠ [] by simp)
  refine ⟨d, tail, by rw [htail], ?_⟩
  rw [← htail, List.mem_append, List.mem_append, not_or, not_or]
  exact ⟨hletters, hblank, by decide⟩

/-- An opener that begins before a fence ends before it. -/
theorem IsOpener.prefix_of_append {opener behind : List Char} {c : Char} (h : IsOpener opener)
    (hbegins : opener <+: c :: before ++ (fence ++ behind)) : opener <+: c :: before := by
  obtain ⟨d, tail, rfl, htail⟩ := h.exists_tail
  rcases List.prefix_or_prefix_of_prefix hbegins (List.prefix_append (c :: before) _) with
    hinside | ⟨more, hmore⟩
  · exact hinside
  have hbehind : more <+: fence ++ behind := by
    rwa [← hmore, List.prefix_append_right_inj] at hbegins
  obtain _ | ⟨e, more⟩ := more
  · exact ⟨[], by rw [List.append_nil, ← hmore, List.append_nil]⟩
  -- the fence behind would begin in the opener, which has no backtick after its own fence
  have hd : d ≠ backtick := fun heq => htail (heq ▸ List.mem_cons_self)
  rw [fence_eq] at hmore hbehind
  obtain ⟨rfl, hmoreBehind⟩ := List.cons_prefix_cons.mp hbehind
  obtain _ | ⟨f, _ | ⟨g, before⟩⟩ := before
  · simp only [List.cons_append, List.nil_append, List.cons.injEq] at hmore
    obtain ⟨-, -, rfl⟩ := hmore
    exact absurd (List.cons_prefix_cons.mp (List.cons_prefix_cons.mp hmoreBehind).2).1 hd
  · simp only [List.cons_append, List.nil_append, List.cons.injEq] at hmore
    obtain ⟨-, -, -, rfl⟩ := hmore
    exact absurd (List.cons_prefix_cons.mp hmoreBehind).1 hd
  · simp only [List.cons_append, List.nil_append, List.cons.injEq] at hmore
    obtain ⟨-, -, -, hrest⟩ := hmore
    exact absurd (hrest ▸ List.mem_append_right before List.mem_cons_self) htail

theorem firstBlock?_append (hbefore : ∀ opener, IsOpener opener → ¬opener <:+: before)
    (behind : List Char) :
    firstBlock? (before ++ (fence ++ behind)) = firstBlock? (fence ++ behind) := by
  induction before with
  | nil => rfl
  | cons c before ih =>
    have hfront : blockAt? (c :: (before ++ (fence ++ behind))) = none := by
      refine blockAt?_eq_none.mpr fun opener rest hopener heq _ => ?_
      have hbegins : opener <+: c :: before ++ (fence ++ behind) := ⟨rest, heq.symm⟩
      exact hbefore opener hopener (hopener.prefix_of_append hbegins).isInfix
    have htail := ih fun opener hopener h => hbefore opener hopener (List.infix_cons h)
    rw [List.cons_append, firstBlock?, hfront, htail]

/-- Behind an opener on a line of its own, the block is what stands before the next fence. -/
theorem firstBlock?_opener {block : List Char} (hrest : Json.Stops isBlank rest)
    (h : untilFence? rest = some block) :
    firstBlock? (fence ++ ("json\n".toList ++ rest)) = some block := by
  have hown : ("json".toList.all fun letter => isLetter letter letter) = true := by decide
  have hletters : SameLetters (fence ++ "json".toList) (fence ++ "json".toList) :=
    List.rel_append (sameLetters_fence.mpr rfl) (List.forall₂_same.mpr (List.all_eq_true.mp hown))
  have hafter : afterIgnoringCase? (fence ++ "json".toList) (fence ++ ("json\n".toList ++ rest)) =
      some ('\n' :: rest) := afterIgnoringCase?_eq_some.mpr ⟨_, by simp, hletters⟩
  have hnone : afterLineBreaks rest = [] := by
    cases rest with
    | nil => rfl
    | cons c rest =>
      have hc : isBlank c = false := hrest c rfl
      have hbreak : c ≠ '\n' := by
        rintro rfl
        cases hc
      rw [afterLineBreaks, if_neg hbreak, if_neg (by rw [hc]; exact Bool.false_ne_true)]
  have hblock : blockAt? (fence ++ ("json\n".toList ++ rest)) = some block := by
    rw [blockAt?, hafter, Option.bind_eq_bind, Option.bind_some, afterLineBreaks, hnone]
    simp [h]
  rw [fence_eq, List.cons_append] at hblock ⊢
  rw [firstBlock?, hblock]

/-- What is extracted of a text with an opener on a line of its own. -/
theorem extract_eq_parse_block (hbefore : ∀ opener, IsOpener opener → ¬opener <:+: before)
    {block : List Char} (hrest : Json.Stops isBlank rest)
    (h : untilFence? rest = some block) :
    Content.extract (before ++ (fence ++ ("json\n".toList ++ rest))) =
      Content.parse (trim block) := by
  rw [Content.extract, firstBlock?_append hbefore, firstBlock?_opener hrest h]

end StructuredOutput

import Mathlib.Data.List.Induction
import StructuredOutput.Proofs.Json.Parsing

/-!
Texts with `\u` in their strings. With `\b` in place of every `\u` all characters stay where they
are, and the four digits become four characters of the string. A text that is read has the digits,
and masked in this way it is the text of a document.
-/

namespace StructuredOutput.Json

open Text

variable {rest : List Char}

/-! ### Places -/

/-- Where a place of a text lies as to strings. -/
inductive Place where
  | outside
  | inside
  /-- After a backslash. -/
  | escaped
  /-- After `\u`, where a digit is next and so many are to follow it. -/
  | owing (digits : Nat)
  deriving DecidableEq

namespace Place

/-- The place after one more character, if there can be one. -/
def step : Place → Char → Option Place
  | outside, c => if c = '"' then some inside else if c = '\\' then none else some outside
  | inside, c => if c = '"' then some outside else if c = '\\' then some escaped else some inside
  | escaped, c => if c = 'u' then some (owing 3) else some inside
  | owing n, c =>
    if (hexDigit? c).isSome then
      match n with
      | 0 => some inside
      | n + 1 => some (owing n)
    else none

/-- The place after more characters. -/
def walk (p : Place) (cs : List Char) : Option Place := cs.foldlM step p

@[simp] theorem walk_nil (p : Place) : p.walk [] = some p := rfl

theorem walk_cons (p : Place) (c : Char) (cs : List Char) :
    p.walk (c :: cs) = (p.step c).bind fun q => q.walk cs := rfl

theorem walk_append (p : Place) (cs ds : List Char) :
    p.walk (cs ++ ds) = (p.walk cs).bind fun q => q.walk ds :=
  List.foldlM_append

theorem walk_of_step {p q : Place} {c : Char} (h : p.step c = some q) (cs : List Char) :
    p.walk (c :: cs) = q.walk cs := by
  rw [walk_cons, h]
  rfl

/-- The beginning of a text with a place after it has one too. -/
theorem exists_walk_of_prefix {p : Place} {cs ds : List Char} (hbegins : cs <+: ds)
    (h : (p.walk ds).isSome = true) : ∃ q, p.walk cs = some q := by
  obtain ⟨es, rfl⟩ := hbegins
  rw [walk_append] at h
  cases hcs : p.walk cs with
  | none => simp [hcs] at h
  | some q => exact ⟨q, rfl⟩

theorem walk_concat {p q : Place} {cs : List Char} {c : Char} :
    p.walk (cs ++ [c]) = some q ↔ ∃ r, p.walk cs = some r ∧ r.step c = some q := by
  rw [walk_append, Option.bind_eq_some_iff]
  simp [walk_cons]

/-- The place after a backslash is reached from inside a string. -/
theorem step_eq_escaped {p : Place} {c : Char} (h : p.step c = some escaped) :
    p = inside ∧ c = '\\' := by
  cases p with
  | outside =>
    simp only [step] at h
    split at h
    · cases h
    split at h <;> cases h
  | inside =>
    simp only [step] at h
    split at h
    · cases h
    split at h
    · next hc => exact ⟨rfl, hc⟩
    · cases h
  | escaped =>
    simp only [step] at h
    split at h <;> cases h
  | owing n =>
    simp only [step] at h
    split at h
    · cases n <;> cases h
    · cases h

/-- Digits are owed after `\u`, or after a digit before which one more was owed. -/
theorem step_eq_owing {p : Place} {c : Char} {n : Nat} (h : p.step c = some (owing n)) :
    p = escaped ∧ c = 'u' ∧ n = 3 ∨ p = owing (n + 1) := by
  cases p with
  | outside =>
    simp only [step] at h
    split at h
    · cases h
    split at h <;> cases h
  | inside =>
    simp only [step] at h
    split at h
    · cases h
    split at h <;> cases h
  | escaped =>
    simp only [step] at h
    split at h
    · next hc =>
      cases h
      exact .inl ⟨rfl, hc, rfl⟩
    · cases h
  | owing m =>
    simp only [step] at h
    split at h
    · cases m with
      | zero => cases h
      | succ m =>
        cases h
        exact .inr rfl
    · cases h

/-- While digits are owed, they are counted from the last `\u` on. -/
theorem exists_of_walk_eq_owing {cs : List Char} {n : Nat} (h : outside.walk cs = some (owing n)) :
    ∃ front digits, cs = front ++ '\\' :: 'u' :: digits ∧ digits.length + n = 3 ∧
      outside.walk front = some inside := by
  induction cs using List.reverseRecOn generalizing n with
  | nil => cases h
  | append_singleton cs c ih =>
    obtain ⟨p, hp, hstep⟩ := walk_concat.mp h
    rcases step_eq_owing hstep with ⟨rfl, rfl, rfl⟩ | rfl
    · rcases List.eq_nil_or_concat cs with rfl | ⟨front, d, rfl⟩
      · cases hp
      · rw [List.concat_eq_append] at hp ⊢
        obtain ⟨q, hq, hlast⟩ := walk_concat.mp hp
        obtain ⟨rfl, rfl⟩ := step_eq_escaped hlast
        exact ⟨front, [], by simp, rfl, hq⟩
    · obtain ⟨front, digits, rfl, hdigits, hfront⟩ := ih hp
      refine ⟨front, digits ++ [c], by simp, ?_, hfront⟩
      simp only [List.length_append, List.length_singleton]
      omega

theorem step_owing {n : Nat} {d : Char} {ds : List Char}
    (h : ((owing (n + 1)).walk (d :: ds)).isSome = true) :
    (owing (n + 1)).step d = some (owing n) := by
  have hdigit : (hexDigit? d).isSome = true := by
    by_contra hno
    simp [walk_cons, step, hno] at h
  simp [step, hdigit]

/-- As many digits as are owed at most are counted. -/
theorem walk_owing {n : Nat} {ds : List Char} (h : ((owing n).walk ds).isSome = true)
    (hlength : ds.length ≤ n) : (owing n).walk ds = some (owing (n - ds.length)) := by
  induction ds generalizing n with
  | nil => rfl
  | cons d ds ih =>
    obtain _ | n := n
    · cases hlength
    have hstep := step_owing h
    rw [walk_of_step hstep] at h ⊢
    rw [ih h (Nat.le_of_succ_le_succ hlength), List.length_cons, Nat.add_sub_add_right]

end Place

open Place

/-- Characters that neither begin nor end a string, nor begin an escape. -/
def Plain (ds : List Char) : Prop := '"' ∉ ds ∧ '\\' ∉ ds

instance (ds : List Char) : Decidable (Plain ds) := inferInstanceAs (Decidable (_ ∧ _))

theorem Plain.append {ds es : List Char} (h : Plain ds) (h' : Plain es) : Plain (ds ++ es) := by
  constructor
  · simp [h.1, h'.1]
  · simp [h.2, h'.2]

theorem Plain.gap (g : Gap) : Plain g.chars := by
  constructor
  · intro h
    exact ne_quote_of_isSpace (g.blank _ h) rfl
  · intro h
    have hspace := g.blank _ h
    cases hspace

theorem Plain.numeral (n : Numeral) : Plain n.text := ⟨n.quote_not_mem, n.backslash_not_mem⟩

theorem Plain.openBracket (keyed : Bool) : Plain [openBracket keyed] := by
  cases keyed <;> decide

theorem Plain.closeBracket (keyed : Bool) : Plain [closeBracket keyed] := by
  cases keyed <;> decide

theorem Plain.comma : Plain [','] := by decide

theorem Plain.colon : Plain [':'] := by decide

theorem Plain.walk {ds : List Char} (h : Plain ds) (cs : List Char) :
    outside.walk (ds ++ cs) = outside.walk cs := by
  obtain ⟨hquote, hbackslash⟩ := h
  induction ds with
  | nil => rfl
  | cons d ds ih =>
    simp only [List.mem_cons, not_or] at hquote hbackslash
    have hstep : outside.step d = some outside := by
      rw [step, if_neg (Ne.symm hquote.1), if_neg (Ne.symm hbackslash.1)]
    rw [List.cons_append, walk_of_step hstep]
    exact ih hquote.2 hbackslash.2

/-! ### Masking -/

/-- The text with `b` for every `u` after a backslash that begins an escape; whether the text
begins after such a backslash is given. -/
def masked (escaping : Bool) : List Char → List Char
  | [] => []
  | c :: cs =>
    (if escaping && c = 'u' then 'b' else c) :: masked (!escaping && c = '\\') cs

theorem masked_cons (c : Char) (cs : List Char) :
    masked false (c :: cs) = c :: masked (c = '\\') cs := by
  rw [masked]
  simp

theorem masked_cons_of_ne {c : Char} (hc : c ≠ '\\') (cs : List Char) :
    masked false (c :: cs) = c :: masked false cs := by
  rw [masked_cons, decide_eq_false hc]

theorem masked_escape (e : Char) (cs : List Char) :
    masked false ('\\' :: e :: cs) = '\\' :: (if e = 'u' then 'b' else e) :: masked false cs := by
  simp [masked]

@[simp] theorem length_masked (escaping : Bool) (cs : List Char) :
    (masked escaping cs).length = cs.length := by
  induction cs generalizing escaping with
  | nil => rfl
  | cons c cs ih => simp [masked, ih]

theorem masked_take (escaping : Bool) (cs : List Char) (n : Nat) :
    masked escaping (cs.take n) = (masked escaping cs).take n := by
  induction cs generalizing escaping n with
  | nil => simp [masked]
  | cons c cs ih =>
    cases n with
    | zero => rfl
    | succ n => simp [masked, ih]

theorem masked_dropLast (escaping : Bool) (cs : List Char) :
    masked escaping cs.dropLast = (masked escaping cs).dropLast := by
  rw [List.dropLast_eq_take, List.dropLast_eq_take, masked_take, length_masked]

theorem exists_masked_append (escaping : Bool) (cs ds : List Char) :
    ∃ escaping', masked escaping (cs ++ ds) = masked escaping cs ++ masked escaping' ds := by
  induction cs generalizing escaping with
  | nil => exact ⟨escaping, rfl⟩
  | cons c cs ih =>
    obtain ⟨escaping', h⟩ := ih (!escaping && c = '\\')
    exact ⟨escaping', by rw [List.cons_append, masked, h]; rfl⟩

theorem masked_of_not_mem {cs : List Char} (h : 'u' ∉ cs) (escaping : Bool) :
    masked escaping cs = cs := by
  induction cs generalizing escaping with
  | nil => rfl
  | cons c cs ih =>
    simp only [List.mem_cons, not_or] at h
    rw [masked, ih h.2, decide_eq_false (Ne.symm h.1), Bool.and_false, if_neg Bool.false_ne_true]

theorem masked_append_of_not_mem (escaping : Bool) (cs : List Char) {ds : List Char}
    (h : 'u' ∉ ds) : masked escaping (cs ++ ds) = masked escaping cs ++ ds := by
  obtain ⟨escaping', happend⟩ := exists_masked_append escaping cs ds
  rw [happend, masked_of_not_mem h]

/-- The last character is kept, or it is a `u` that becomes a `b`. -/
theorem exists_masked_concat (escaping : Bool) (cs : List Char) (c : Char) :
    ∃ d, masked escaping (cs ++ [c]) = masked escaping cs ++ [d] ∧
      (d = c ∨ c = 'u' ∧ d = 'b') := by
  obtain ⟨escaping', happend⟩ := exists_masked_append escaping cs [c]
  refine ⟨if escaping' && c = 'u' then 'b' else c, by rw [happend]; rfl, ?_⟩
  split
  · next h => exact .inr ⟨by simpa using (Bool.and_eq_true_iff.mp h).2, rfl⟩
  · exact .inl rfl

/-- A masked text without `b` has not been changed. -/
theorem eq_of_masked {escaping : Bool} {cs ds : List Char} (h : masked escaping cs = ds)
    (hds : 'b' ∉ ds) : cs = ds := by
  induction cs generalizing escaping ds with
  | nil => exact h
  | cons c cs ih =>
    subst h
    rw [masked, List.mem_cons, not_or] at hds
    rw [masked, ← ih rfl hds.2]
    split
    · next hu => exact absurd (if_pos hu).symm hds.1
    · rfl

theorem masked_plain {ds : List Char} (h : Plain ds) (cs : List Char) :
    masked false (ds ++ cs) = ds ++ masked false cs := by
  obtain ⟨hquote, hbackslash⟩ := h
  induction ds with
  | nil => rfl
  | cons d ds ih =>
    simp only [List.mem_cons, not_or] at hquote hbackslash
    rw [List.cons_append, masked_cons_of_ne (Ne.symm hbackslash.1), ih hquote.2 hbackslash.2]
    rfl

theorem exists_of_masked_cons {cs ds : List Char} {c : Char} (h : masked false cs = c :: ds) :
    ∃ cs', cs = c :: cs' ∧ masked (c = '\\') cs' = ds := by
  rcases cs with _ | ⟨d, cs⟩
  · cases h
  · rw [masked_cons] at h
    obtain ⟨rfl, hds⟩ := List.cons.inj h
    exact ⟨cs, rfl, hds⟩

/-- Masking changes nothing in plain characters. -/
theorem exists_of_masked_plain {cs ds more : List Char} (hds : Plain ds)
    (h : masked false cs = ds ++ more) : ∃ rest, cs = ds ++ rest ∧ masked false rest = more := by
  obtain ⟨hquote, hbackslash⟩ := hds
  induction ds generalizing cs with
  | nil => exact ⟨cs, rfl, h⟩
  | cons d ds ih =>
    simp only [List.mem_cons, not_or] at hquote hbackslash
    obtain ⟨cs', rfl, hcs'⟩ := exists_of_masked_cons h
    rw [decide_eq_false (Ne.symm hbackslash.1)] at hcs'
    obtain ⟨rest, rfl, hrest⟩ := ih hcs' hquote.2 hbackslash.2
    exact ⟨rest, rfl, hrest⟩

theorem head?_of_masked {cs ds : List Char} (h : masked false cs = ds) : cs.head? = ds.head? := by
  cases cs with
  | nil => rw [← h]; rfl
  | cons c cs => rw [← h, masked_cons]; rfl

theorem Stops.of_masked {p : Char → Bool} {cs ds : List Char} (h : masked false cs = ds)
    (hds : Stops p ds) : Stops p cs := by
  intro c hc
  rw [head?_of_masked h] at hc
  exact hds c hc

/-! ### Spelling -/

/-- A text begins, outside of strings, with `ds` up to the letters of its escapes, and goes on with
`rest`. -/
structure Spells (cs ds rest : List Char) : Prop where
  masked : masked false cs = ds ++ masked false rest
  walk : outside.walk cs = outside.walk rest

namespace Spells

theorem plain {ds : List Char} (h : Plain ds) (rest : List Char) : Spells (ds ++ rest) ds rest :=
  ⟨masked_plain h rest, h.walk rest⟩

theorem trans {cs ds es middle : List Char} (h : Spells cs ds middle) (h' : Spells middle es rest) :
    Spells cs (ds ++ es) rest :=
  ⟨by rw [h.masked, h'.masked, List.append_assoc], h.walk.trans h'.walk⟩

theorem skipSpace (cs : List Char) : ∃ g : Gap, Spells cs g.chars (skipSpace cs) := by
  obtain ⟨g, hg⟩ := exists_gap cs
  refine ⟨g, ?_⟩
  have h := plain (.gap g) (Json.skipSpace cs)
  rwa [← hg] at h

end Spells

/-! ### Digits after `\u` -/

theorem plain_of_hexDigit {c : Char} (h : (hexDigit? c).isSome = true) :
    c ≠ '"' ∧ c ≠ '\\' ∧ 0x20 ≤ c.toNat := by
  refine ⟨?_, ?_, ?_⟩
  · rintro rfl
    cases h
  · rintro rfl
    cases h
  · by_contra hlow
    have hnone : hexDigit? c = none := by
      have hlt (d : Char) (hd : 0x20 ≤ d.toNat) : ¬d ≤ c := by
        intro hle
        have hnat : d.toNat ≤ c.toNat := UInt32.le_iff_toNat_le.mp hle
        omega
      simp [hexDigit?, hlt '0' (by decide), hlt 'a' (by decide), hlt 'A' (by decide)]
    rw [hnone] at h
    cases h

theorem unicodeUnit?_eq_some {cs after : List Char} {n : Nat}
    (h : unicodeUnit? cs = some (n, after)) :
    ∃ a b c d, cs = a :: b :: c :: d :: after ∧ after ≠ [] ∧ ∀ x ∈ [a, b, c, d],
      (hexDigit? x).isSome = true := by
  unfold unicodeUnit? at h
  split at h
  · next a b c d e more =>
    obtain ⟨m, hunit, heq⟩ := Option.map_eq_some_iff.mp h
    cases heq
    refine ⟨a, b, c, d, rfl, by simp, ?_⟩
    simp only [hexUnit?, Option.bind_eq_bind, Option.bind_eq_some_iff] at hunit
    obtain ⟨x, hx, y, hy, z, hz, w, hw, -⟩ := hunit
    simp [hx, hy, hz, hw]
  · cases h

theorem unicodeUnit?_of_digits {a b c d : Char} {after : List Char} (hafter : after ≠ [])
    (h : ∀ x ∈ [a, b, c, d], (hexDigit? x).isSome = true) :
    ∃ n, unicodeUnit? (a :: b :: c :: d :: after) = some (n, after) := by
  obtain ⟨e, more, rfl⟩ := List.exists_cons_of_ne_nil hafter
  simp only [List.mem_cons, List.not_mem_nil, or_false, forall_eq_or_imp, forall_eq,
    Option.isSome_iff_exists] at h
  obtain ⟨⟨x, hx⟩, ⟨y, hy⟩, ⟨z, hz⟩, w, hw⟩ := h
  exact ⟨_, by simp [unicodeUnit?, hexUnit?, hx, hy, hz, hw]; rfl⟩

/-- The pieces that an escaped code unit is masked as. -/
theorem exists_unit_pieces {cs after : List Char} {n : Nat} {pieces : List Piece} {more : List Char}
    (h : unicodeUnit? cs = some (n, after))
    (hafter : masked false after = innerText pieces ++ more) :
    (∃ pieces', masked false ('\\' :: 'u' :: cs) = innerText pieces' ++ more) ∧
      inside.walk ('\\' :: 'u' :: cs) = inside.walk after := by
  obtain ⟨a, b, c, d, rfl, -, hdigits⟩ := unicodeUnit?_eq_some h
  simp only [List.mem_cons, List.not_mem_nil, or_false, forall_eq_or_imp, forall_eq] at hdigits
  obtain ⟨ha, hb, hc, hd⟩ := hdigits
  constructor
  · refine ⟨.escape 'b' _ rfl :: .plain a (plain_of_hexDigit ha) ::
      .plain b (plain_of_hexDigit hb) :: .plain c (plain_of_hexDigit hc) ::
      .plain d (plain_of_hexDigit hd) :: pieces, ?_⟩
    rw [masked_escape, masked_cons_of_ne (plain_of_hexDigit ha).2.1,
      masked_cons_of_ne (plain_of_hexDigit hb).2.1, masked_cons_of_ne (plain_of_hexDigit hc).2.1,
      masked_cons_of_ne (plain_of_hexDigit hd).2.1, hafter]
    rfl
  · simp [walk_cons, step, ha, hb, hc, hd]

/-! ### Strings that are read -/

/-- A string that is read is masked as pieces up to its end. -/
theorem exists_masked_pieces (start : List Char) {fuel : Nat} {cs chars : List Char}
    (h : stringBody start fuel cs = .ok (chars, rest)) :
    (∃ pieces, masked false cs = innerText pieces ++ '"' :: masked false rest) ∧
      inside.walk cs = outside.walk rest := by
  induction fuel generalizing cs chars with
  | zero => cases h
  | succ fuel ih =>
    rcases stringBody_eq_ok h with ⟨rfl, -⟩ | ⟨c, after, more, htakes, hmore, -⟩
    · exact ⟨⟨[], masked_cons_of_ne (by decide) rest⟩, rfl⟩
    obtain ⟨⟨pieces, hpieces⟩, hwalk⟩ := ih hmore
    cases htakes with
    | plain quotable =>
      refine ⟨⟨.plain c quotable :: pieces, ?_⟩, ?_⟩
      · rw [masked_cons_of_ne quotable.2.1, hpieces]
        rfl
      · rw [← hwalk]
        simp [walk_cons, step, quotable]
    | escape stands =>
      have hu := ne_of_escaped? stands
      refine ⟨⟨.escape _ c stands :: pieces, ?_⟩, ?_⟩
      · rw [masked_escape, if_neg hu, hpieces]
        rfl
      · rw [← hwalk]
        simp [walk_cons, step, hu]
    | unit hunit =>
      obtain ⟨hmasked, hskip⟩ := exists_unit_pieces hunit hpieces
      exact ⟨hmasked, hskip.trans hwalk⟩
    | pair hunit hsecond =>
      obtain ⟨⟨pieces', hpieces'⟩, hskip'⟩ := exists_unit_pieces hsecond hpieces
      obtain ⟨hmasked, hskip⟩ := exists_unit_pieces hunit hpieces'
      exact ⟨hmasked, hskip.trans (hskip'.trans hwalk)⟩

theorem exists_spelled_string {cs : List Char} {s : String}
    (h : readString ('"' :: cs) = .ok (s, rest)) :
    ∃ pieces, Spells ('"' :: cs) (quotedText pieces) rest := by
  obtain ⟨⟨chars, after⟩, hbody, heq⟩ := Outcome.map_eq_ok.mp h
  cases heq
  obtain ⟨⟨pieces, hpieces⟩, hwalk⟩ := exists_masked_pieces _ hbody
  rw [List.tail_cons] at hpieces hwalk
  refine ⟨pieces, ?_, ?_⟩
  · rw [masked_cons_of_ne (by decide), hpieces]
    simp [quotedText]
  · rw [← hwalk]
    rfl

/-! ### Values that are read -/

/-- Parts that are read begin with a label and a value. -/
theorem exists_spelled_label {keyed : Bool} {fuel depth : Nat} {cs : List Char}
    {parts : List (String × Json)} (h : readParts keyed fuel depth cs = .ok (parts, rest)) :
    ∃ more, fuel = more + 1 ∧ ∃ (label : Label keyed) (body after : List Char)
      (part : String × Json), Spells cs label.text body ∧
        readValue more depth body = .ok (part.2, after) ∧
        readAfter keyed more depth part (skipSpace after) = .ok (parts, rest) := by
  obtain _ | fuel := fuel
  · cases keyed <;> cases h
  refine ⟨fuel, rfl, ?_⟩
  cases keyed with
  | false =>
    obtain ⟨value, after, hvalue, hafter⟩ := exists_item h
    exact ⟨.none, cs, after, ("", value), ⟨rfl, rfl⟩, hvalue, hafter⟩
  | true =>
    obtain ⟨key, afterKey, afterColon, value, after, hquote, hkey, hcolon, hvalue, hafter⟩ :=
      exists_entry h
    obtain ⟨tail, rfl⟩ := List.head?_eq_some_iff.mp hquote
    obtain ⟨pieces, hpieces⟩ := exists_spelled_string hkey
    obtain ⟨before, hbefore⟩ := Spells.skipSpace afterKey
    obtain ⟨gap, hgap⟩ := Spells.skipSpace afterColon
    rw [hcolon] at hbefore
    have hlabel := ((hpieces.trans hbefore).trans (.plain .colon afterColon)).trans hgap
    refine ⟨.key pieces before gap, _, after, (key, value), ?_, hvalue, hafter⟩
    simpa [Label.text] using hlabel

/-- Whatever is read as a value in so many steps is spelled as one. -/
def ValueSpelled (fuel : Nat) : Prop :=
  ∀ {depth : Nat} {cs rest : List Char} {j : Json}, readValue fuel depth cs = .ok (j, rest) →
    ∃ v : Written, Spells cs v.chars rest ∧ v.depth ≤ depth ∧
      (v.depth = 0 → (∀ items, j ≠ .array items) ∧ ∀ entries, j ≠ .object entries)

/-- Whatever is read as parts in so many steps is spelled as such. -/
def PartsSpelled (fuel : Nat) : Prop :=
  ∀ {keyed : Bool} {depth : Nat} {cs rest : List Char} {js : List (String × Json)},
    readParts keyed fuel depth cs = .ok (js, rest) →
    ∃ p : Parts keyed, Spells cs p.chars rest ∧ p.depth ≤ depth

theorem scalar_json {v : Written} (h : v.depth = 0) :
    (∀ items, v.json ≠ .array items) ∧ ∀ entries, v.json ≠ .object entries := by
  cases v with
  | number n =>
    constructor <;> intro parts <;> rw [Written.json, Numeral.json] <;> split <;> simp
  | null | bool | text => simp [Written.json]
  | empty | container => simp [Written.depth] at h

theorem valueSpelled_succ {fuel : Nat} (hparts : PartsSpelled fuel) : ValueSpelled (fuel + 1) := by
  intro depth cs rest j h
  cases readValue_eq_ok.mp h with
  | @empty depth inside _ keyed closed =>
    obtain ⟨g, hg⟩ := Spells.skipSpace inside
    rw [closed] at hg
    have hopen := (Spells.plain (.openBracket keyed) inside).trans hg
    have hclose := hopen.trans (.plain (.closeBracket keyed) rest)
    exact ⟨.empty keyed g, hclose, Nat.le_add_left 1 depth, fun hzero => by cases hzero⟩
  | @container depth inside _ js keyed _ read =>
    obtain ⟨g, hg⟩ := Spells.skipSpace inside
    have hopen := (Spells.plain (.openBracket keyed) inside).trans hg
    obtain ⟨p, hp, hdepth⟩ := hparts read
    have hwhole := hopen.trans hp
    exact ⟨.container keyed g p, hwhole, Nat.succ_le_succ hdepth, fun hzero => by cases hzero⟩
  | string read =>
    obtain ⟨pieces, hpieces⟩ := exists_spelled_string read
    exact ⟨.text pieces, hpieces, Nat.zero_le depth, fun _ => by simp⟩
  | scalar _ _ read =>
    obtain ⟨v, htext, rfl, hdepth, hplain⟩ := exists_scalar read
    rw [htext]
    exact ⟨v, .plain hplain rest, hdepth ▸ Nat.zero_le depth, scalar_json⟩

theorem partsSpelled_succ {fuel : Nat} (hvalue : ValueSpelled fuel) (hparts : PartsSpelled fuel) :
    PartsSpelled (fuel + 1) := by
  intro keyed depth cs rest js h
  obtain ⟨more, hmore, label, body, after, part, hlabel, hread, hafter⟩ := exists_spelled_label h
  cases hmore
  obtain ⟨v, hv, hdepth, -⟩ := hvalue hread
  obtain ⟨g, hg⟩ := Spells.skipSpace after
  have hpart := (hlabel.trans hv).trans hg
  rcases readAfter_eq_ok hafter with ⟨hclose, -⟩ | ⟨tail, others, hcomma, -, hothers⟩
  · rw [hclose] at hpart
    refine ⟨.last label v g, ?_, hdepth⟩
    have hlast := hpart.trans (.plain (.closeBracket keyed) rest)
    simpa [Parts.chars] using hlast
  · rw [hcomma] at hpart
    obtain ⟨before, hbefore⟩ := Spells.skipSpace tail
    obtain ⟨p, hp, hothersDepth⟩ := hparts hothers
    refine ⟨.more label v g before p, ?_, Nat.max_le.mpr ⟨hdepth, hothersDepth⟩⟩
    have hmore := ((hpart.trans (.plain .comma tail)).trans hbefore).trans hp
    simpa [Parts.chars] using hmore

theorem spelled (fuel : Nat) : ValueSpelled fuel ∧ PartsSpelled fuel := by
  induction fuel with
  | zero =>
    constructor
    · intro depth cs rest j h
      cases h
    · intro keyed depth cs rest js h
      cases keyed <;> cases h
  | succ fuel ih => exact ⟨valueSpelled_succ ih.2, partsSpelled_succ ih.1 ih.2⟩

/-- A text that is read is masked as the text of a document, and no digits are owed in it. -/
theorem exists_masked_document {cs : List Char} {j : Json} (h : read cs = .ok j) :
    ∃ d : Document, masked false cs = d.chars ∧ outside.walk cs = some outside ∧
      d.value.depth ≤ nestingLimit ∧
        (d.value.depth = 0 → (∀ items, j ≠ .array items) ∧ ∀ entries, j ≠ .object entries) := by
  obtain ⟨rest, hvalue, hend⟩ := exists_readValue h
  obtain ⟨v, hv, hdepth, hkind⟩ := (spelled _).1 hvalue
  obtain ⟨before, hbefore⟩ := Spells.skipSpace cs
  obtain ⟨after, hafter⟩ := Spells.skipSpace rest
  rw [hend] at hafter
  have hwhole := hbefore.trans (hv.trans hafter)
  refine ⟨⟨before, v, after⟩, ?_, hwhole.walk, hdepth, hkind⟩
  simpa [masked, Document.chars] using hwhole.masked

end StructuredOutput.Json

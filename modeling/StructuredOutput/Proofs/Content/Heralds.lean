import StructuredOutput.Proofs.Content.Serialize
import StructuredOutput.Proofs.Content.Truncation
import StructuredOutput.Proofs.Json.Closed

/-!
What the text of a tree tells of it when it is cut off anywhere and closed: if anything is read, its
strings are beginnings of strings of the tree, and its containers have no other parts.
-/

namespace StructuredOutput

open Text

namespace Content

/-- What is read of a part of a text, where the second tree is read of the whole: strings and
containers may go on. A number or a truth value may be another one, and an empty container
anything. -/
inductive Heralds : Content → Content → Prop
  | null : Heralds .null .null
  | bool (b : Bool) (c : Content) : Heralds (.bool b) c
  | number (x : Double) (c : Content) : Heralds (.number x) c
  | string {s t : String} (h : s.toList <+: t.toList) : Heralds (.string s) (.string t)
  | array {bs : List Content} {c : Content} (longer : bs.length ≤ c.items.length)
      (each : ∀ p ∈ bs.zip c.items, Heralds p.1 p.2) : Heralds (.array bs) c
  | object {bs : List (String × Content)} {c : Content}
      (keys : ∀ key ∈ Entries.names bs, key ∈ Entries.names c.entries)
      (each : ∀ key b d, Entries.get? bs key = some b → Entries.get? c.entries key = some d →
        Heralds b d) : Heralds (.object bs) c

theorem Heralds.refl (c : Content) : Heralds c c := by
  induction c using members_induction with
  | null => exact .null
  | bool b => exact .bool b _
  | number x => exact .number x _
  | string s => exact .string List.prefix_rfl
  | array items ih =>
    refine .array (Nat.le_refl _) fun p hp => ?_
    obtain ⟨i, hi, rfl⟩ := List.mem_iff_getElem.mp hp
    simp only [Content.items, List.getElem_zip]
    exact ih _ (List.getElem_mem _)
  | object entries ih =>
    refine .object (fun _ hkey => hkey) fun key b d hb hd => ?_
    cases hb.symm.trans hd
    exact ih _ (Entries.mem_of_get? hb)

theorem heralds_empty (keyed : Bool) (c : Content) : Heralds (container keyed []) c := by
  cases keyed with
  | false => exact .array (Nat.zero_le _) fun p hp => absurd hp List.not_mem_nil
  | true =>
    refine .object (fun key hkey => absurd hkey List.not_mem_nil) fun key b d hb => ?_
    cases hb

end Content

/-- The things of one list stand beside the first ones of another. -/
inductive Fronts {α β : Type} (R : α → β → Prop) : List α → List β → Prop
  | nil (ys : List β) : Fronts R [] ys
  | cons {x : α} {y : β} {xs : List α} {ys : List β} (first : R x y) (rest : Fronts R xs ys) :
      Fronts R (x :: xs) (y :: ys)

namespace Content

open Json

/-- Entries of which each heralds that of another tree in its place. -/
abbrev FrontEntries : List (String × Content) → List (String × Content) → Prop :=
  Fronts fun b d => b.1 = d.1 ∧ b.2.Heralds d.2

theorem Heralds.container {keyed : Bool} {bs ds : List (String × Content)}
    (h : FrontEntries bs ds) : Heralds (container keyed bs) (container keyed ds) := by
  cases keyed with
  | false =>
    refine .array ?_ ?_
    · induction h with
      | nil => exact Nat.zero_le _
      | cons _ _ ih => exact Nat.succ_le_succ ih
    · induction h with
      | nil => exact fun p hp => absurd hp List.not_mem_nil
      | cons first _ ih => exact List.forall_mem_cons.mpr ⟨first.2, ih⟩
  | true =>
    refine .object ?_ ?_
    · induction h with
      | nil => exact fun key hkey => absurd hkey List.not_mem_nil
      | cons first _ ih =>
        intro key hkey
        rcases List.mem_cons.mp hkey with rfl | hkey
        · exact List.mem_cons.mpr (.inl first.1)
        · exact List.mem_cons_of_mem _ (ih key hkey)
    · induction h with
      | nil =>
        intro key b d hb
        cases hb
      | @cons e f bs ds first _ ih =>
        obtain ⟨k, b'⟩ := e
        obtain ⟨k', d'⟩ := f
        obtain ⟨rfl, hheralds⟩ : k = k' ∧ b'.Heralds d' := first
        intro key b d hb hd
        change Entries.get? ((k, d') :: ds) key = some d at hd
        by_cases hkey : k = key
        · subst hkey
          rw [Entries.get?_cons_self] at hb hd
          cases hb
          cases hd
          exact hheralds
        · rw [Entries.get?_cons_of_ne _ _ hkey] at hb hd
          exact ih key b d hb hd

end Content

namespace Json

open Content

/-- What is read of a value heralds what is read of another one, if both are content. -/
def HeraldsData (i j : Json) : Prop :=
  ∀ b d, ofJson i = .ok b → ofJson j = .ok d → b.Heralds d

theorem HeraldsData.refl (j : Json) : HeraldsData j j := by
  intro b d hb hd
  cases hb.symm.trans hd
  exact .refl b

/-- Parts of which each heralds the one in its place. -/
abbrev FrontParts : List (String × Json) → List (String × Json) → Prop :=
  Fronts fun i j => i.1 = j.1 ∧ HeraldsData i.2 j.2

theorem FrontParts.entries {is js : List (String × Json)} (h : FrontParts is js)
    {bs ds : List (String × Content)} (hbs : ofJsonEntries is = .ok bs)
    (hds : ofJsonEntries js = .ok ds) : FrontEntries bs ds := by
  induction h generalizing bs ds with
  | nil =>
    cases hbs
    exact .nil ds
  | @cons i j _ _ first _ ih =>
    obtain ⟨key, i⟩ := i
    obtain ⟨key', j⟩ := j
    obtain ⟨b, bs, hb, hothers, rfl⟩ := ofJsonEntries_cons_eq_ok.mp hbs
    obtain ⟨d, ds, hd, hafter, rfl⟩ := ofJsonEntries_cons_eq_ok.mp hds
    exact .cons ⟨first.1, first.2 b d hb hd⟩ (ih hothers hafter)

theorem FrontParts.names {is js : List (String × Json)} (h : FrontParts is js) :
    Entries.names is <+: Entries.names js := by
  induction h with
  | nil => exact List.nil_prefix
  | cons first _ ih =>
    rw [Entries.names_cons, Entries.names_cons, first.1]
    exact (List.prefix_cons_inj _).mpr ih

theorem FrontParts.container {keyed : Bool} {is js : List (String × Json)}
    (h : FrontParts is js) (hkeys : keyed = true → (Entries.names js).Nodup) :
    HeraldsData (ofParts keyed is) (ofParts keyed js) := by
  intro b d hb hd
  have hfirst (hkeyed : keyed = true) : (Entries.names is).Nodup :=
    (hkeys hkeyed).sublist h.names.sublist
  rw [ofJson_ofParts hfirst] at hb
  rw [ofJson_ofParts hkeys] at hd
  obtain ⟨bs, hbs, rfl⟩ := Outcome.map_eq_ok.mp hb
  obtain ⟨ds, hds, rfl⟩ := Outcome.map_eq_ok.mp hd
  exact .container (h.entries hbs hds)

theorem heraldsData_empty (keyed : Bool) (j : Json) : HeraldsData (ofParts keyed []) j := by
  intro b d hb _
  have hnames (_ : keyed = true) : (Entries.names ([] : List (String × Json))).Nodup :=
    List.nodup_nil
  rw [ofJson_ofParts hnames] at hb
  cases hb
  exact heralds_empty keyed d

/-! ### Values that are cut off -/

variable {level : Nat} {keyed : Bool} {rest : List Char}

/-- A value of whose text only what heralds it is read when it is cut off and closed. Nothing that
follows goes on with an enclosing value. -/
structure Heralded (level : Nat) (j : Json) : Prop where
  rereads : ∃ limit, Rereads compactStyle level limit j
  cut : ∀ {fuel depth : Nat} {kept closing rest : List Char} {i : Json},
    kept <+: text compactStyle level j → kept ≠ text compactStyle level j →
      ClosingMarks closing → readValue fuel depth (kept ++ closing) = .ok (i, rest) →
        Bare rest ∧ HeraldsData i j

theorem Heralded.begins {j : Json} (h : Heralded level j) :
    ∃ c cs, text compactStyle level j = c :: cs ∧ beginsValue c = true :=
  h.rereads.elim fun _ h => h.begins

theorem Heralded.eq_of_readValue {fuel depth : Nat} {i j : Json} {after : List Char}
    (h : Heralded level j) (hrest : Stops continuesNumber rest)
    (hread : readValue fuel depth (text compactStyle level j ++ rest) = .ok (i, after)) :
    i = j ∧ after = rest :=
  h.rereads.elim fun _ h => h.eq_of_readValue hrest hread

/-- No blank stands before what is kept of a text that begins with a value. -/
theorem stops_kept {kept closing cs : List Char} (hkept : kept <+: cs)
    (hcs : ∃ d ds, cs = d :: ds ∧ beginsValue d = true) (hclosing : ClosingMarks closing) :
    Stops isSpace (kept ++ closing) := by
  cases kept with
  | nil => exact hclosing.bare.stops
  | cons c kept =>
    obtain ⟨d, ds, rfl, hd⟩ := hcs
    obtain ⟨rfl, -⟩ := List.cons_prefix_cons.mp hkept
    exact stops_cons (isSpace_of_beginsValue hd)

/-! #### Scalars -/

/-- A word or a number of which null is read only if it is null. -/
theorem heralded_scalar {j : Json} {c : Char} {cs : List Char}
    (hrereads : ∃ limit, Rereads compactStyle level limit j) (htext : text compactStyle level j = c :: cs)
    (hquote : c ≠ '"') (hbracket : ∀ keyed, c ≠ openBracket keyed) (hbare : Bare (c :: cs))
    (hnull : c = 'n' → j = .null) : Heralded level j where
  rereads := hrereads
  cut := by
    intro fuel depth kept closing rest i hkept hcut hclosing hread
    rw [htext] at hkept
    cases kept with
    | nil => exact absurd hread (hclosing.readValue_ne_ok _ _ _)
    | cons k kept =>
      obtain ⟨rfl, htail⟩ := List.cons_prefix_cons.mp hkept
      have hkeptBare : Bare (k :: kept) := fun d hd => hbare d (hkept.subset hd)
      obtain ⟨hrest, hi⟩ := readValue_scalar_cut hquote hbracket hkeptBare hclosing hread
      refine ⟨hrest, ?_⟩
      rcases hi with ⟨rfl, hc⟩ | ⟨b, rfl⟩ | ⟨x, rfl⟩
      · rw [hnull hc]
        exact .refl _
      · intro b' d hb _
        cases hb
        exact .bool b d
      · intro b d hb _
        have hkind := kind_of_numeral hb
        cases b <;> cases hkind
        exact .number _ d

theorem heralded_null : Heralded level .null := by
  have htext : text compactStyle level .null = ['n', 'u', 'l', 'l'] := by
    rw [text]
    rfl
  apply heralded_scalar ⟨0, rereads_null⟩ htext
  · decide
  · decide
  · decide
  · exact fun _ => rfl

theorem heralded_bool (b : Bool) : Heralded level (.bool b) := by
  cases b with
  | false =>
    have htext : text compactStyle level (.bool false) = ['f', 'a', 'l', 's', 'e'] := by
      rw [text]
      rfl
    apply heralded_scalar ⟨0, rereads_bool false⟩ htext
    · decide
    · decide
    · decide
    · intro h
      cases h
  | true =>
    have htext : text compactStyle level (.bool true) = ['t', 'r', 'u', 'e'] := by
      rw [text]
      rfl
    apply heralded_scalar ⟨0, rereads_bool true⟩ htext
    · decide
    · decide
    · decide
    · intro h
      cases h

theorem heralded_numeral {j : Json} {n : Numeral} (htext : n.text = text compactStyle level j)
    (hjson : n.json = j) : Heralded level j := by
  obtain ⟨c, cs, hcons, hc⟩ := n.exists_text_cons
  have hnumeral (d : Char) (hd : d ∈ c :: cs) : isNumeral d = true :=
    n.isNumeral_of_mem (hcons ▸ hd)
  have hfirst := hnumeral c List.mem_cons_self
  apply heralded_scalar ⟨0, rereads_numeral htext hjson⟩ (htext ▸ hcons)
  · exact ne_of_isNumeral hfirst rfl
  · exact fun keyed => ne_of_isNumeral hfirst (by cases keyed <;> rfl)
  · intro d hd
    have hne {c : Char} (hc : isNumeral c = false) : d ≠ c := ne_of_isNumeral (hnumeral d hd) hc
    exact ⟨hne rfl, by simp [isSpace, hne (show isNumeral ' ' = false from rfl),
      hne (show isNumeral '\t' = false from rfl), hne (show isNumeral '\n' = false from rfl),
      hne (show isNumeral '\r' = false from rfl)]⟩
  · rintro rfl
    cases hfirst

theorem heralded_string (t : String) : Heralded level (.string t) where
  rereads := ⟨0, rereads_string (plain_styleFor none) t⟩
  cut := by
    intro fuel depth kept closing rest i hkept hcut hclosing hread
    have htext : text compactStyle level (.string t) = stringText false t.toList := by
      rw [text]
      rfl
    rw [htext] at hkept hcut
    by_cases hne : kept = []
    · subst hne
      exact absurd hread (hclosing.readValue_ne_ok _ _ _)
    · obtain ⟨c, inside, rfl⟩ := List.exists_cons_of_ne_nil hne
      rw [stringText, List.cons_append] at hkept
      obtain rfl := (List.cons_prefix_cons.mp hkept).1
      obtain _ | fuel := fuel
      · cases hread
      simp only [List.cons_append, readValue] at hread
      obtain ⟨⟨s, after⟩, hstring, heq⟩ := Outcome.map_eq_ok.mp hread
      cases heq
      obtain ⟨hbegins, hrest⟩ := readString_cut hkept hcut hne hclosing hstring
      refine ⟨hrest.bare, fun b d hb hd => ?_⟩
      cases hb
      cases hd
      exact .string hbegins

/-! #### Parts -/

/-- What follows a part of a container: the other parts and the closing bracket. -/
def afterText (level : Nat) (keyed : Bool) : List (String × Json) → List Char
  | [] => [closeBracket keyed]
  | part :: parts => ',' :: (partText compactStyle level keyed part ++ afterText level keyed parts)

theorem intercalate_append_closeBracket (part : String × Json) (parts : List (String × Json)) :
    List.intercalate [','] ((part :: parts).map (partText compactStyle level keyed)) ++
        [closeBracket keyed] =
      partText compactStyle level keyed part ++ afterText level keyed parts := by
  induction parts generalizing part with
  | nil => simp [afterText]
  | cons next parts ih =>
    rw [List.map_cons, List.map_cons, List.intercalate_cons_cons, ← List.map_cons,
      List.append_assoc, List.append_assoc, ih, afterText]
    rfl

theorem enclose_compactStyle (part : String × Json) (parts : List (String × Json)) :
    compactStyle.enclose level (openBracket keyed) (closeBracket keyed)
        ((part :: parts).map (partText compactStyle (level + 1) keyed)) =
      openBracket keyed ::
        (partText compactStyle (level + 1) keyed part ++ afterText (level + 1) keyed parts) := by
  rw [← intercalate_append_closeBracket]
  simp [Style.enclose, Style.lineBreak, compactStyle]

theorem partText_keyed (name : String) (j : Json) :
    partText compactStyle level true (name, j) =
      stringText false name.toList ++ ':' :: text compactStyle level j := by
  simp [partText, compactStyle]

theorem begins_partText (keyed : Bool) {part : String × Json} (h : Heralded level part.2) :
    ∃ c cs, partText compactStyle level keyed part = c :: cs ∧ beginsValue c = true := by
  cases keyed with
  | false => exact h.begins
  | true => exact ⟨'"', _, rfl, rfl⟩

/-- A part of which the whole text is there is read, and then what follows it. -/
theorem readAfter_of_partText {part : String × Json} {fuel depth : Nat} {after : List Char}
    {is : List (String × Json)} (h : Heralded level part.2)
    (hname : keyed = false → part.1 = "") (hafter : Stops continuesNumber after)
    (hread : readParts keyed (fuel + 1) depth (partText compactStyle level keyed part ++ after) =
      .ok (is, rest)) :
    readAfter keyed fuel depth part (skipSpace after) = .ok (is, rest) := by
  obtain ⟨name, j⟩ := part
  cases keyed with
  | false =>
    obtain rfl : name = "" := hname rfl
    obtain ⟨value, beyond, hvalue, hrest⟩ := exists_item hread
    obtain ⟨rfl, rfl⟩ := h.eq_of_readValue hafter hvalue
    exact hrest
  | true =>
    rw [partText_keyed, List.append_assoc, List.cons_append] at hread
    obtain ⟨key, afterKey, afterColon, value, beyond, -, hkey, hcolon, hvalue, hrest⟩ :=
      exists_entry hread
    rw [readString_stringText, String.ofList_toList] at hkey
    cases hkey
    rw [skipSpace_of_stops (stops_cons rfl)] at hcolon
    cases hcolon
    obtain ⟨limit, hrereads⟩ := h.rereads
    rw [skipSpace_of_stops (hrereads.stops after)] at hvalue
    obtain ⟨rfl, rfl⟩ := h.eq_of_readValue hafter hvalue
    exact hrest

/-- What follows a value that is cut off is the closing bracket. -/
theorem eq_of_readAfter_bare {part : String × Json} {fuel depth : Nat} {cs : List Char}
    {is : List (String × Json)} (hcs : Bare cs)
    (h : readAfter keyed fuel depth part (skipSpace cs) = .ok (is, rest)) :
    is = [part] ∧ Bare rest := by
  rw [skipSpace_of_stops hcs.stops] at h
  rcases readAfter_eq_ok h with ⟨rfl, rfl⟩ | ⟨body, others, rfl, -⟩
  · exact ⟨rfl, fun c hc => hcs c (List.mem_cons_of_mem _ hc)⟩
  · exact absurd rfl (hcs ',' List.mem_cons_self).1

/-- Of a part that is cut off at most what heralds it is read. -/
theorem readParts_part_cut {part : String × Json} {fuel depth : Nat} {kept closing : List Char}
    {is : List (String × Json)} (h : Heralded level part.2) (hname : keyed = false → part.1 = "")
    (hkept : kept <+: partText compactStyle level keyed part)
    (hcut : kept ≠ partText compactStyle level keyed part) (hclosing : ClosingMarks closing)
    (hread : readParts keyed fuel depth (kept ++ closing) = .ok (is, rest)) :
    ∃ i, is = [(part.1, i)] ∧ HeraldsData i part.2 ∧ Bare rest := by
  obtain ⟨name, j⟩ := part
  obtain _ | fuel := fuel
  · cases keyed <;> cases hread
  cases keyed with
  | false =>
    obtain rfl : name = "" := hname rfl
    obtain ⟨value, after, hvalue, hafter⟩ := exists_item hread
    obtain ⟨hbare, hheralds⟩ := h.cut hkept hcut hclosing hvalue
    obtain ⟨rfl, hrest⟩ := eq_of_readAfter_bare hbare hafter
    exact ⟨value, rfl, hheralds, hrest⟩
  | true =>
    rw [partText_keyed] at hkept hcut
    rcases prefix_append_cases hkept with ⟨hkey, -⟩ | ⟨more, rfl, hmore⟩
    · exact absurd hread (readParts_key_ne_ok hkey hclosing _ _ _)
    cases more with
    | nil =>
      rw [List.append_nil] at hread
      exact absurd hread (readParts_key_ne_ok List.prefix_rfl hclosing _ _ _)
    | cons c kept =>
      obtain ⟨rfl, hvaluePart⟩ := List.cons_prefix_cons.mp hmore
      rw [List.append_assoc, List.cons_append] at hread
      obtain ⟨key, afterKey, afterColon, value, after, -, hkey, hcolon, hvalue, hafter⟩ :=
        exists_entry hread
      rw [readString_stringText, String.ofList_toList] at hkey
      cases hkey
      rw [skipSpace_of_stops (stops_cons rfl)] at hcolon
      cases hcolon
      rw [skipSpace_of_stops (stops_kept hvaluePart h.begins hclosing)] at hvalue
      have hshort : kept ≠ text compactStyle level j := fun heq => hcut (by rw [heq])
      obtain ⟨hbare, hheralds⟩ := h.cut hvaluePart hshort hclosing hvalue
      obtain ⟨rfl, hrest⟩ := eq_of_readAfter_bare hbare hafter
      exact ⟨value, rfl, hheralds, hrest⟩

/-- Of parts that are cut off the first ones are read, up to one that heralds that in its place. -/
theorem readParts_cut {part : String × Json} {parts : List (String × Json)} {fuel depth : Nat}
    {kept closing : List Char} {is : List (String × Json)}
    (each : ∀ p ∈ part :: parts, Heralded level p.2)
    (hnames : keyed = false → ∀ p ∈ part :: parts, p.1 = "")
    (hkept : kept <+: partText compactStyle level keyed part ++ afterText level keyed parts)
    (hcut : kept ≠ partText compactStyle level keyed part ++ afterText level keyed parts)
    (hclosing : ClosingMarks closing)
    (hread : readParts keyed fuel depth (kept ++ closing) = .ok (is, rest)) :
    FrontParts is (part :: parts) ∧ Bare rest := by
  rcases prefix_append_cases hkept with ⟨hpart, hshort⟩ | ⟨more, rfl, hmore⟩
  · obtain ⟨i, rfl, hheralds, hrest⟩ := readParts_part_cut (each part List.mem_cons_self)
      (fun h => hnames h part List.mem_cons_self) hpart hshort hclosing hread
    exact ⟨.cons ⟨rfl, hheralds⟩ (.nil parts), hrest⟩
  · obtain _ | fuel := fuel
    · cases keyed <;> cases hread
    have hshort : more ≠ afterText level keyed parts := fun heq => hcut (by rw [heq])
    rw [List.append_assoc] at hread
    cases more with
    | nil =>
      have hafter := readAfter_of_partText (each part List.mem_cons_self)
        (fun h => hnames h part List.mem_cons_self) hclosing.stops hread
      obtain ⟨rfl, hrest⟩ := eq_of_readAfter_bare hclosing.bare hafter
      exact ⟨.cons ⟨rfl, .refl part.2⟩ (.nil parts), hrest⟩
    | cons c more =>
      cases parts with
      | nil =>
        obtain ⟨rfl, hnil⟩ := List.cons_prefix_cons.mp hmore
        obtain rfl := List.prefix_nil.mp hnil
        exact absurd rfl hshort
      | cons next parts =>
        obtain ⟨rfl, hothers⟩ := List.cons_prefix_cons.mp hmore
        have hafter := readAfter_of_partText (each part List.mem_cons_self)
          (fun h => hnames h part List.mem_cons_self) (stops_cons rfl) hread
        have hnext := each next (List.mem_cons_of_mem _ List.mem_cons_self)
        have hspace : Stops isSpace (more ++ closing) := by
          obtain ⟨d, ds, hcons, hd⟩ := begins_partText keyed hnext
          refine stops_kept hothers ⟨d, ds ++ afterText level keyed parts, ?_, hd⟩ hclosing
          rw [hcons, List.cons_append]
        change readAfter keyed fuel depth part (skipSpace (',' :: (more ++ closing))) = _ at hafter
        rw [skipSpace_of_stops (stops_cons rfl), readAfter_comma,
          skipSpace_of_stops hspace] at hafter
        obtain ⟨⟨others, beyond⟩, hread', heq⟩ := Outcome.map_eq_ok.mp hafter
        cases heq
        obtain ⟨hfront, hrest⟩ := readParts_cut (fun p hp => each p (List.mem_cons_of_mem _ hp))
          (fun h p hp => hnames h p (List.mem_cons_of_mem _ hp)) hothers
          (fun heq => hshort (by rw [heq, afterText])) hclosing hread'
        exact ⟨.cons ⟨rfl, .refl part.2⟩ hfront, hrest⟩
termination_by parts.length

/-- Of a container that is cut off after its bracket nothing but an empty one is read. -/
theorem readValue_open_closing {fuel depth : Nat} {closing : List Char} {i : Json}
    (hclosing : ClosingMarks closing)
    (h : readValue fuel depth (openBracket keyed :: closing) = .ok (i, rest)) :
    i = ofParts keyed [] ∧ Bare rest := by
  obtain _ | fuel := fuel
  · cases h
  obtain _ | depth := depth
  · cases keyed <;> cases h
  rw [readValue_open, skipSpace_of_stops hclosing.bare.stops] at h
  split at h
  · cases h
    exact ⟨rfl, fun c hc => hclosing.bare c (List.mem_of_mem_tail hc)⟩
  · obtain ⟨found, hread, -⟩ := Outcome.map_eq_ok.mp h
    exact absurd hread (hclosing.readParts_ne_ok _ _ _ _)

/-- A container of which all parts are heralded is heralded. -/
theorem heralded_container (keyed : Bool) (parts : List (String × Json))
    (hnames : keyed = false → ∀ p ∈ parts, p.1 = "")
    (hkeys : keyed = true → (Entries.names parts).Nodup)
    (each : ∀ p ∈ parts, Heralded (level + 1) p.2) {j : Json} {limit : Nat}
    (hrereads : Rereads compactStyle level limit j)
    (htext : text compactStyle level j = compactStyle.enclose level (openBracket keyed)
      (closeBracket keyed) (parts.map (partText compactStyle (level + 1) keyed)))
    (hjson : ofParts keyed parts = j) : Heralded level j where
  rereads := ⟨limit, hrereads⟩
  cut := by
    intro fuel depth kept closing rest i hkept hcut hclosing hread
    subst hjson
    rw [htext] at hkept hcut
    have hempty (h : readValue fuel depth (openBracket keyed :: closing) = .ok (i, rest)) :
        Bare rest ∧ HeraldsData i (ofParts keyed parts) := by
      obtain ⟨rfl, hrest⟩ := readValue_open_closing hclosing h
      exact ⟨hrest, heraldsData_empty keyed _⟩
    cases kept with
    | nil => exact absurd hread (hclosing.readValue_ne_ok _ _ _)
    | cons c kept =>
    cases parts with
    | nil =>
      obtain ⟨rfl, hinside⟩ := List.cons_prefix_cons.mp hkept
      rcases List.prefix_concat_iff.mp (show kept <+: [] ++ [closeBracket keyed] from hinside) with
        rfl | hnil
      · exact absurd rfl hcut
      · obtain rfl := List.prefix_nil.mp hnil
        exact hempty hread
    | cons part parts =>
      rw [enclose_compactStyle] at hkept hcut
      obtain ⟨rfl, hinside⟩ := List.cons_prefix_cons.mp hkept
      by_cases hnil : kept = []
      · subst hnil
        exact hempty hread
      obtain _ | fuel := fuel
      · cases hread
      obtain _ | depth := depth
      · cases keyed <;> cases hread
      obtain ⟨d, ds, hcons, hd⟩ := begins_partText keyed (each part List.mem_cons_self)
      have hbegins : ∃ d ds, partText compactStyle (level + 1) keyed part ++
          afterText (level + 1) keyed parts = d :: ds ∧ beginsValue d = true :=
        ⟨d, _, by rw [hcons, List.cons_append], hd⟩
      have hhead : (kept ++ closing).head? ≠ some (closeBracket keyed) := by
        obtain ⟨k, kept, rfl⟩ := List.exists_cons_of_ne_nil hnil
        rw [hcons, List.cons_append] at hinside
        obtain ⟨rfl, -⟩ := List.cons_prefix_cons.mp hinside
        simpa using ne_closeBracket_of_beginsValue hd keyed
      rw [List.cons_append, readValue_open,
        skipSpace_of_stops (stops_kept hinside hbegins hclosing), if_neg hhead] at hread
      obtain ⟨⟨is, beyond⟩, hparts, heq⟩ := Outcome.map_eq_ok.mp hread
      cases heq
      obtain ⟨hfront, hrest⟩ := readParts_cut each hnames hinside
        (fun heq => hcut (by rw [heq])) hclosing hparts
      exact ⟨hrest, hfront.container hkeys⟩

end Json

namespace Content

open Json

/-- The text of a tree heralds it. -/
theorem heralded_toJson (c : Content) (hkeys : c.KeysDiffer) (level : Nat) :
    Heralded level c.toJson := by
  have hrereads := rereads_toJson (plain_styleFor none) c hkeys level (Nat.le_refl c.depth)
  induction c using members_induction generalizing level with
  | null => exact heralded_null
  | bool b => exact heralded_bool b
  | number x =>
    obtain ⟨n, htext, hjson⟩ := exists_numeral_of_number x (plain_styleFor none) level
    exact heralded_numeral htext hjson
  | string t => exact heralded_string t
  | array items ih =>
    apply heralded_container false ((toItems items).map fun j => ("", j)) _ _ _ hrereads
    · rw [toJson, Json.text, itemTexts_eq]
      rfl
    · simp [toJson, ofParts, Function.comp_def]
    · simp
    · intro h
      cases h
    · rw [toItems_eq_map, List.map_map]
      refine List.forall_mem_map.mpr fun c hc => ?_
      have hc' := itemsDiffer_iff.mp hkeys c hc
      exact ih c hc hc' (level + 1)
        (rereads_toJson (plain_styleFor none) c hc' (level + 1) (Nat.le_refl c.depth))
  | object entries ih =>
    apply heralded_container true (toEntries entries) _ _ _ hrereads
    · rw [toJson, Json.text, entryTexts_eq]
      rfl
    · rw [toJson, ofParts, if_pos rfl, Entries.ofList_of_nodup]
      rw [names_toEntries]
      exact hkeys.1
    · intro h
      cases h
    · intro _
      rw [names_toEntries]
      exact hkeys.1
    · rw [toEntries_eq_map]
      refine List.forall_mem_map.mpr fun e he => ?_
      have he' := entriesDiffer_iff.mp hkeys.2 e he
      exact ih e he he' (level + 1)
        (rereads_toJson (plain_styleFor none) e.2 he' (level + 1) (Nat.le_refl e.2.depth))

/-- Whatever is read of the text of a tree, cut off anywhere and closed, heralds the tree. -/
theorem heralds_of_parse {b c : Content} (hkeys : c.KeysDiffer) {kept closing : List Char}
    (hkept : kept <+: (c.serialize none).toList) (hclosing : ClosingMarks closing)
    (h : parse (kept ++ closing) = .ok b) : b.Heralds c.positiveZeros := by
  have hheralded := heralded_toJson c hkeys 0
  obtain ⟨j, hread, hb⟩ := parse_eq_ok.mp h
  obtain ⟨rest, hvalue, -⟩ := exists_readValue hread
  rw [toList_serialize] at hkept
  rw [skipSpace_of_stops (stops_kept hkept hheralded.begins hclosing)] at hvalue
  have hdata : HeraldsData j c.toJson := by
    by_cases hcut : kept = Json.text compactStyle 0 c.toJson
    · subst hcut
      rw [(hheralded.eq_of_readValue hclosing.stops hvalue).1]
      exact .refl _
    · exact (hheralded.cut hkept hcut hclosing hvalue).2
  exact hdata b _ hb (ofJson_toJson c hkeys)

/-- If the text of a tree is read at all, the tree is read. -/
theorem eq_of_parse_serialize {b c : Content} (hkeys : c.KeysDiffer)
    (h : parse (c.serialize none).toList = .ok b) : b = c.positiveZeros := by
  have hrereads : Rereads compactStyle 0 c.depth c.toJson :=
    rereads_toJson (plain_styleFor none) c hkeys 0 (Nat.le_refl c.depth)
  have hstops := hrereads.stops []
  obtain ⟨j, hread, hb⟩ := parse_eq_ok.mp h
  obtain ⟨rest, hvalue, -⟩ := exists_readValue hread
  rw [List.append_nil] at hstops
  rw [toList_serialize, skipSpace_of_stops hstops, ← List.append_nil (Json.text _ _ _)] at hvalue
  obtain ⟨rfl, -⟩ := hrereads.eq_of_readValue (stops_nil _) hvalue
  exact Except.ok.inj (hb.symm.trans (ofJson_toJson c hkeys))

end Content

end StructuredOutput

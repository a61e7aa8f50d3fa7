import StructuredOutput.Content.Parse
import StructuredOutput.Proofs.Entries
import StructuredOutput.Proofs.Json.Cut
import StructuredOutput.Proofs.Outcome

/-!
Truncations of content trees, and that what remains of a written value of which only the beginning
is known is a truncation of it.
-/

namespace StructuredOutput

namespace Content

/-- One tree is another one cut off: the same, the beginning of a string, or the first parts of a
container, where only the last one may itself be cut off. -/
inductive Truncation : Content → Content → Prop
  | same (c : Content) : Truncation c c
  | text {s t : String} (h : s.toList <+: t.toList) : Truncation (.string s) (.string t)
  | noItems (cs : List Content) : Truncation (.array []) (.array cs)
  | items (bs cs : List Content) {b c : Content} (h : Truncation b c) :
    Truncation (.array (bs ++ [b])) (.array (bs ++ c :: cs))
  | noEntries (es : List (String × Content)) : Truncation (.object []) (.object es)
  | entries (ds es : List (String × Content)) (key : String) {b c : Content} (h : Truncation b c) :
    Truncation (.object (ds ++ [(key, b)])) (.object (ds ++ (key, c) :: es))

/-- The first entries of a list, the last of which may be cut off. -/
inductive EntriesTruncation : List (String × Content) → List (String × Content) → Prop
  | last (key : String) {b c : Content} (h : Truncation b c) (es : List (String × Content)) :
    EntriesTruncation [(key, b)] ((key, c) :: es)
  | more (e : String × Content) {ds es : List (String × Content)} (h : EntriesTruncation ds es) :
    EntriesTruncation (e :: ds) (e :: es)

theorem EntriesTruncation.exists_last {ds es : List (String × Content)}
    (h : EntriesTruncation ds es) :
    ∃ fs gs key b c, ds = fs ++ [(key, b)] ∧ es = fs ++ (key, c) :: gs ∧ Truncation b c := by
  induction h with
  | last key h es => exact ⟨[], es, key, _, _, rfl, rfl, h⟩
  | more e _ ih =>
    obtain ⟨fs, gs, key, b, c, rfl, rfl, h⟩ := ih
    exact ⟨e :: fs, gs, key, b, c, rfl, rfl, h⟩

/-- A container of the given entries, the keys of which do not matter in an array. -/
def container (keyed : Bool) (entries : List (String × Content)) : Content :=
  if keyed then .object entries else .array (entries.map (·.2))

theorem EntriesTruncation.container (keyed : Bool) {ds es : List (String × Content)}
    (h : EntriesTruncation ds es) : Truncation (container keyed ds) (container keyed es) := by
  obtain ⟨fs, gs, key, b, c, rfl, rfl, hlast⟩ := h.exists_last
  cases keyed with
  | true => exact .entries fs gs key hlast
  | false => simpa [Content.container] using Truncation.items (fs.map (·.2)) (gs.map (·.2)) hlast

theorem ofItems_map (js : List (String × Json)) :
    ofItems (js.map (·.2)) = (ofJsonEntries js).map fun es => es.map (·.2) := by
  induction js with
  | nil => rfl
  | cons e js ih =>
    obtain ⟨k, j⟩ := e
    rw [List.map_cons, ofItems, ofJsonEntries, ih]
    cases ofJson j with
    | error fault => rfl
    | ok c => cases ofJsonEntries js <;> rfl

theorem names_of_ofJsonEntries {js : List (String × Json)} {es : List (String × Content)}
    (h : ofJsonEntries js = .ok es) : Entries.names es = Entries.names js := by
  induction js generalizing es with
  | nil =>
    cases h
    rfl
  | cons e js ih =>
    obtain ⟨k, j⟩ := e
    rw [ofJsonEntries] at h
    simp only [Outcome.bind_eq_ok] at h
    obtain ⟨c, -, cs, hcs, heq⟩ := h
    cases heq
    simp [ih hcs]

/-- The content of a container in which no key is repeated. -/
theorem ofJson_ofParts {keyed : Bool} {js : List (String × Json)}
    (hkeys : keyed = true → (Entries.names js).Nodup) :
    ofJson (Json.ofParts keyed js) = (ofJsonEntries js).map (container keyed) := by
  cases keyed with
  | false =>
    change (ofItems (js.map (·.2))).map array = _
    rw [ofItems_map]
    cases ofJsonEntries js <;> rfl
  | true =>
    change (ofJsonEntries (Entries.ofList js)).map ofEntries = _
    rw [Entries.ofList_of_nodup (hkeys rfl)]
    cases hes : ofJsonEntries js with
    | error fault => rfl
    | ok es =>
      have hnames := names_of_ofJsonEntries hes
      change Except.ok (object (Entries.ofList es)) = _
      rw [Entries.ofList_of_nodup (hnames ▸ hkeys rfl)]
      rfl

theorem ofJsonEntries_cons_eq_ok {key : String} {j : Json} {js : List (String × Json)}
    {es : List (String × Content)} :
    ofJsonEntries ((key, j) :: js) = .ok es ↔
      ∃ c cs, ofJson j = .ok c ∧ ofJsonEntries js = .ok cs ∧ es = (key, c) :: cs := by
  rw [ofJsonEntries]
  simp only [Outcome.bind_eq_ok, Except.ok.injEq]
  constructor
  · rintro ⟨c, hc, cs, hcs, rfl⟩
    exact ⟨c, cs, hc, hcs, rfl⟩
  · rintro ⟨c, cs, hc, hcs, rfl⟩
    exact ⟨c, hc, cs, hcs, rfl⟩

theorem kind_of_ofFinite {fault : NumberFault} {x : Floating} {c : Content}
    (h : ofFinite fault x = .ok c) : c.kind = .number := by
  cases x <;> cases h
  rfl

theorem kind_of_ofFloating {x : Floating} {c : Content} (h : ofFloating x = .ok c) :
    c.kind = .number := by
  cases x <;> cases h
  rfl

theorem kind_of_numeral {x : Json.Numeral} {c : Content} (h : ofJson x.json = .ok c) :
    c.kind = .number := by
  unfold Json.Numeral.json at h
  split at h
  · rw [ofJson, ofInteger] at h
    exact kind_of_ofFinite h
  · rw [ofJson] at h
    exact kind_of_ofFloating h

theorem parse_eq_ok {text : List Char} {c : Content} :
    parse text = .ok c ↔ ∃ j, Json.read text = .ok j ∧ ofJson j = .ok c := by
  rw [parse]
  cases hread : Json.read text with
  | error failure => simp [ofReading]
  | ok j => cases hc : ofJson j <;> simp [ofReading, hc]

end Content

namespace Json

open Content

/-- One value is another, or the other one cut at `n` characters or later. -/
def Written.CutLater (v : Written) (n : Nat) (w : Written) : Prop :=
  w = v ∨ ∃ m, n ≤ m ∧ v.cut m = some w

def Parts.CutLater {keyed : Bool} (p : Parts keyed) (n : Nat) (q : Parts keyed) : Prop :=
  q = p ∨ ∃ m, n ≤ m ∧ p.cut m = some q

variable {keyed : Bool} {n : Nat}

theorem Parts.CutLater.head_last {label : Label keyed} {v : Written} {after : Gap}
    {r : Parts keyed} (h : (Parts.last label v after).CutLater n r) :
    ∃ x, r.json = [(label.name, x.json)] ∧ v.CutLater (n - label.text.length) x ∧
      (label.text.length + v.chars.length + after.chars.length < n → x = v) := by
  rcases h with rfl | ⟨m, hm, hr⟩
  · exact ⟨v, rfl, .inl rfl, fun _ => rfl⟩
  · rcases Parts.cut_last_eq hr with ⟨-, rfl⟩ | ⟨hlength, x, gap, hx, rfl⟩
    · exact ⟨v, rfl, .inl rfl, fun _ => rfl⟩
    · exact ⟨x, rfl, .inr ⟨_, Nat.sub_le_sub_right hm _, hx⟩, fun _ => by omega⟩

theorem Parts.CutLater.head_more {label : Label keyed} {v : Written} {after before : Gap}
    {rest r : Parts keyed} (h : (Parts.more label v after before rest).CutLater n r) :
    ∃ x js, r.json = (label.name, x.json) :: js ∧ v.CutLater (n - label.text.length) x ∧
      (label.text.length + v.chars.length + after.chars.length < n → x = v) := by
  rcases h with rfl | ⟨m, hm, hr⟩
  · exact ⟨v, _, rfl, .inl rfl, fun _ => rfl⟩
  · rcases Parts.cut_more_eq rfl hr with ⟨-, r', -, rfl⟩ | ⟨-, -, rfl⟩ | ⟨hlength, x, gap, hx, rfl⟩
    · exact ⟨v, _, rfl, .inl rfl, fun _ => rfl⟩
    · exact ⟨v, _, rfl, .inl rfl, fun _ => rfl⟩
    · exact ⟨x, _, rfl, .inr ⟨_, Nat.sub_le_sub_right hm _, hx⟩, fun _ => by omega⟩

/-- When a part of the rest is known, what is known later has the first part and more of the
rest. -/
theorem Parts.CutLater.tail {label : Label keyed} {v : Written} {after before : Gap}
    {rest q r : Parts keyed} {comma k : Nat}
    (hcomma : comma = label.text.length + v.chars.length + after.chars.length)
    (hn : comma < n) (hk : k = n - comma - 1 - before.chars.length) (hq : rest.cut k = some q)
    (h : (Parts.more label v after before rest).CutLater n r) :
    ∃ r', r.json = (label.name, v.json) :: r'.json ∧ rest.CutLater k r' := by
  subst hk
  rcases h with rfl | ⟨m, hm, hr⟩
  · exact ⟨rest, rfl, .inl rfl⟩
  · rcases Parts.cut_more_eq hcomma hr with ⟨-, r', hr', rfl⟩ | ⟨-, hnone, -⟩ | ⟨hlength, -⟩
    · exact ⟨r', rfl, .inr ⟨_, by omega, hr'⟩⟩
    · have hsome := rest.cut_isSome (m := m - comma - 1 - before.chars.length) (by omega)
        (Option.isSome_of_mem hq)
      rw [hnone] at hsome
      cases hsome
    · omega

theorem Written.CutLater.text {pieces : List Piece} {x : Written}
    (h : (Written.text pieces).CutLater n x) :
    ∃ more, x = .text more ∧ cutPieces pieces (n - 1) <+: more := by
  rcases h with rfl | ⟨m, hm, hx⟩
  · refine ⟨pieces, rfl, ?_⟩
    have hprefix := cutPieces_prefix pieces (Nat.le_max_left (n - 1) (innerText pieces).length)
    rwa [cutPieces_of_le (Nat.le_max_right (n - 1) (innerText pieces).length)] at hprefix
  · cases (Option.ite_none_left_eq_some.mp hx).2
    exact ⟨_, rfl, cutPieces_prefix pieces (Nat.sub_le_sub_right hm 1)⟩

theorem Written.truncation_of_cut_self {v w x : Written} {c : Content}
    (hself : ∀ m y, v.cut m = some y → y = v) (hw : v.cut n = some w) (hx : v.CutLater n x)
    (hc : ofJson x.json = .ok c) : ∃ b, ofJson w.json = .ok b ∧ Truncation b c := by
  have hxv : x = v := by
    rcases hx with hx | ⟨m, -, hm⟩
    · exact hx
    · exact hself m x hm
  rw [hself n w hw, ← hxv]
  exact ⟨c, hc, .same c⟩

mutual

/-- What remains of a value when less of it is known is a truncation of what remains when more of
it, or all of it, is known. -/
theorem Written.truncation_cut (v : Written) {n : Nat} {w x : Written} {c : Content}
    (hkeys : v.KeysDiffer) (hw : v.cut n = some w) (hx : v.CutLater n x)
    (hc : ofJson x.json = .ok c) : ∃ b, ofJson w.json = .ok b ∧ Truncation b c := by
  cases v with
  | null =>
    refine Written.truncation_of_cut_self (fun m y h => ?_) hw hx hc
    cases (Option.ite_none_left_eq_some.mp h).2
    rfl
  | bool b =>
    refine Written.truncation_of_cut_self (fun m y h => ?_) hw hx hc
    cases (Option.ite_none_left_eq_some.mp h).2
    rfl
  | number y => cases hw
  | text pieces =>
    obtain ⟨hn, heq⟩ := Option.ite_none_left_eq_some.mp hw
    cases heq
    obtain ⟨more, rfl, hprefix⟩ := hx.text
    cases hc
    refine ⟨_, rfl, .text ?_⟩
    simpa [stringOf] using hprefix.map Piece.char
  | empty keyed inside =>
    refine Written.truncation_of_cut_self (fun m y h => ?_) hw hx hc
    cases (Option.ite_none_left_eq_some.mp h).2
    rfl
  | container keyed before parts =>
    obtain ⟨q, hq, rfl⟩ := Option.map_eq_some_iff.mp hw
    have hr : ∃ r, x = .container keyed before r ∧
        parts.CutLater (n - 1 - before.chars.length) r := by
      rcases hx with rfl | ⟨m, hm, hx⟩
      · exact ⟨parts, rfl, .inl rfl⟩
      · obtain ⟨r, hr, rfl⟩ := Option.map_eq_some_iff.mp hx
        exact ⟨r, rfl, .inr ⟨_, by omega, hr⟩⟩
    obtain ⟨r, rfl, hr⟩ := hr
    have hnames {p : Parts keyed} (h : Entries.names p.json <+: Entries.names parts.json)
        (hkeyed : keyed = true) : (Entries.names p.json).Nodup :=
      (hkeys.1 hkeyed).sublist h.sublist
    have hrnames : Entries.names r.json <+: Entries.names parts.json := by
      rcases hr with rfl | ⟨m, -, hr⟩
      · exact List.prefix_rfl
      · exact parts.names_cut hr
    rw [Written.json, ofJson_ofParts (hnames hrnames)] at hc
    obtain ⟨es, hes, rfl⟩ := Outcome.map_eq_ok.mp hc
    obtain ⟨ds, hds, htruncation⟩ := parts.truncation_cut hkeys.2 hq hr hes
    refine ⟨_, ?_, htruncation.container keyed⟩
    rw [Written.json, ofJson_ofParts (hnames (parts.names_cut hq)), hds]
    rfl

theorem Parts.truncation_cut {keyed : Bool} (p : Parts keyed) {n : Nat} {q r : Parts keyed}
    {es : List (String × Content)} (hkeys : p.KeysDiffer) (hq : p.cut n = some q)
    (hr : p.CutLater n r) (hes : ofJsonEntries r.json = .ok es) :
    ∃ ds, ofJsonEntries q.json = .ok ds ∧ EntriesTruncation ds es := by
  cases p with
  | last label v after =>
    obtain ⟨x, hjson, hx, hwhole⟩ := hr.head_last
    rw [hjson, ofJsonEntries_cons_eq_ok] at hes
    obtain ⟨c, cs, hc, -, rfl⟩ := hes
    rcases Parts.cut_last_eq hq with ⟨hn, rfl⟩ | ⟨-, w, gap, hw, rfl⟩
    · rw [hwhole hn] at hc
      exact ⟨_, ofJsonEntries_cons_eq_ok.mpr ⟨c, [], hc, rfl, rfl⟩, .last _ (.same c) cs⟩
    · obtain ⟨b, hb, htruncation⟩ := v.truncation_cut hkeys hw hx hc
      exact ⟨_, ofJsonEntries_cons_eq_ok.mpr ⟨b, [], hb, rfl, rfl⟩, .last _ htruncation cs⟩
  | more label v after before rest =>
    rcases Parts.cut_more_eq rfl hq with ⟨hn, q', hq', rfl⟩ | ⟨hn, -, rfl⟩ | ⟨-, w, gap, hw, rfl⟩
    · obtain ⟨r', hjson, hr'⟩ := hr.tail rfl hn rfl hq'
      rw [hjson, ofJsonEntries_cons_eq_ok] at hes
      obtain ⟨c, cs, hc, hcs, rfl⟩ := hes
      obtain ⟨ds, hds, htruncation⟩ := rest.truncation_cut hkeys.2 hq' hr' hcs
      exact ⟨_, ofJsonEntries_cons_eq_ok.mpr ⟨c, ds, hc, hds, rfl⟩, .more _ htruncation⟩
    · obtain ⟨x, js, hjson, -, hwhole⟩ := hr.head_more
      rw [hjson, ofJsonEntries_cons_eq_ok, hwhole hn] at hes
      obtain ⟨c, cs, hc, -, rfl⟩ := hes
      exact ⟨_, ofJsonEntries_cons_eq_ok.mpr ⟨c, [], hc, rfl, rfl⟩, .last _ (.same c) cs⟩
    · obtain ⟨x, js, hjson, hx, -⟩ := hr.head_more
      rw [hjson, ofJsonEntries_cons_eq_ok] at hes
      obtain ⟨c, cs, hc, -, rfl⟩ := hes
      obtain ⟨b, hb, htruncation⟩ := v.truncation_cut hkeys.1 hw hx hc
      exact ⟨_, ofJsonEntries_cons_eq_ok.mpr ⟨b, [], hb, rfl, rfl⟩, .last _ htruncation cs⟩

end

end Json

end StructuredOutput

import StructuredOutput.Proofs.Codec.Inversion
import StructuredOutput.Proofs.Content.Truncation
import StructuredOutput.Proofs.Stream.Order

/-!
What the beginning of content tells is below what more of it tells, unless a text that stands for an
option, a member or a case begins another one.
-/

namespace StructuredOutput

variable {ds : Declarations}

/-! ### Beginnings of content -/

namespace Content

mutual

/-- One tree is the beginning of another: parts are missing at the end of any container, and any text
may go on. -/
inductive Begins : Content → Content → Prop
  | scalar (c : Content) (h : c.isScalar = true) : Begins c c
  | text {s t : String} (h : s.toList <+: t.toList) : Begins (.string s) (.string t)
  | array {bs cs : List Content} (h : BeginsItems bs cs) : Begins (.array bs) (.array cs)
  | object {bs cs : List (String × Content)} (h : BeginsEntries bs cs) :
      Begins (.object bs) (.object cs)

inductive BeginsItems : List Content → List Content → Prop
  | nil (cs : List Content) : BeginsItems [] cs
  | cons {b c : Content} {bs cs : List Content} (h : Begins b c) (hs : BeginsItems bs cs) :
      BeginsItems (b :: bs) (c :: cs)

inductive BeginsEntries : List (String × Content) → List (String × Content) → Prop
  | nil (cs : List (String × Content)) : BeginsEntries [] cs
  | cons (key : String) {b c : Content} {bs cs : List (String × Content)} (h : Begins b c)
      (hs : BeginsEntries bs cs) : BeginsEntries ((key, b) :: bs) ((key, c) :: cs)

end

mutual

theorem Begins.refl (c : Content) : Begins c c := by
  match c with
  | .array items => exact .array (BeginsItems.refl items)
  | .object entries => exact .object (BeginsEntries.refl entries)
  | .null | .bool _ | .number _ | .string _ => exact .scalar _ rfl

theorem BeginsItems.refl (cs : List Content) : BeginsItems cs cs := by
  match cs with
  | [] => exact .nil []
  | c :: cs => exact .cons (Begins.refl c) (BeginsItems.refl cs)

theorem BeginsEntries.refl (cs : List (String × Content)) : BeginsEntries cs cs := by
  match cs with
  | [] => exact .nil []
  | (k, c) :: cs => exact .cons k (Begins.refl c) (BeginsEntries.refl cs)

end

theorem Truncation.begins {b c : Content} (h : Truncation b c) : Begins b c := by
  induction h with
  | same c => exact Begins.refl c
  | text h => exact .text h
  | noItems cs => exact .array (.nil cs)
  | @items bs cs b c _ ih =>
    apply Begins.array
    induction bs with
    | nil => exact .cons ih (.nil cs)
    | cons d bs ihs => exact .cons (Begins.refl d) ihs
  | noEntries es => exact .object (.nil es)
  | @entries ds es key b c _ ih =>
    apply Begins.object
    induction ds with
    | nil => exact .cons key ih (.nil es)
    | cons d ds ihs => exact .cons d.1 (Begins.refl d.2) ihs

theorem BeginsEntries.exists_get? {bs cs : List (String × Content)} (h : BeginsEntries bs cs)
    {key : String} {b : Content} (hb : Entries.get? bs key = some b) :
    ∃ c, Entries.get? cs key = some c ∧ Begins b c := by
  induction bs generalizing cs with
  | nil => cases hb
  | cons e bs ih =>
    cases h with
    | @cons k b' c _ cs hbc hs =>
      by_cases hk : k = key
      · subst hk
        rw [Entries.get?_cons_self] at hb
        cases hb
        exact ⟨c, Entries.get?_cons_self _ _ _, hbc⟩
      · rw [Entries.get?_cons_of_ne _ _ hk] at hb ⊢
        exact ih hs hb

theorem Begins.exists_array {bs : List Content} {c : Content} (h : Begins (.array bs) c) :
    ∃ cs, c = .array cs ∧ BeginsItems bs cs := by
  cases h with
  | scalar _ h => cases h
  | array h => exact ⟨_, rfl, h⟩

theorem Begins.exists_object {bs : List (String × Content)} {c : Content}
    (h : Begins (.object bs) c) : ∃ cs, c = .object cs ∧ BeginsEntries bs cs := by
  cases h with
  | scalar _ h => cases h
  | object h => exact ⟨_, rfl, h⟩

theorem Begins.exists_string {s : String} {c : Content} (h : Begins (.string s) c) :
    ∃ t, c = .string t ∧ s.toList <+: t.toList := by
  cases h with
  | scalar => exact ⟨s, rfl, List.prefix_rfl⟩
  | text h => exact ⟨_, rfl, h⟩

end Content

/-! ### Texts that stand for something -/

namespace Shape

/-- The texts that stand for the options of a literal, the members of an enumeration or the cases of
a union. -/
def wires (ds : Declarations) : Shape → List String
  | literal values _ => values
  | enum id _ _ => (ds.enumOf id).wires.map (·.1)
  | union _ _ cases => cases.map (·.tag)
  | _ => []

end Shape

/-- In no shape that is reached does a text that stands for something begin another one. -/
def PrefixFree (ds : Declarations) (shape : Shape) : Prop :=
  ∀ s, Reaches ds shape s → ∀ a ∈ s.wires ds, ∀ b ∈ s.wires ds, a.toList <+: b.toList → a = b

theorem PrefixFree.of_reaches {s t : Shape} (h : PrefixFree ds s) (hst : Reaches ds s t) :
    PrefixFree ds t :=
  fun u htu => h u (hst.trans htu)

/-- A text that stands for something and begins one that does is the same at every stage. -/
theorem PrefixFree.eq_of_prefix {shape : Shape} (h : PrefixFree ds shape) {a b c : String}
    (ha : a ∈ shape.core.wires ds) (hc : c ∈ shape.core.wires ds) (hab : a.toList <+: b.toList)
    (hbc : b.toList <+: c.toList) : a = b := by
  obtain rfl := h _ (.core shape) a ha c hc (hab.trans hbc)
  exact String.toList_inj.mp (hab.eq_of_length_le hbc.length_le)

theorem mem_wires_of_caseFor? {name tag : String} {description : Option String}
    {cases : List Case} {one : Case} (h : caseFor? cases tag = some one) :
    tag ∈ (Shape.union name description cases).wires ds := by
  obtain ⟨hmem, htag⟩ := mem_of_caseFor? h
  exact List.mem_map.mpr ⟨one, hmem, htag⟩

namespace Snapshot

open Content Value

theorem le_leaf {shape : Shape} (hfree : PrefixFree ds shape) {s t u : String}
    (hst : s.toList <+: t.toList) (htu : t.toList <+: u.toList) {v : Value}
    (hwhole : Decoding.LeafValue ds shape.core (.string u) v) :
    Le (leaf ds shape.core (.string s)) (leaf ds shape.core (.string t)) := by
  have hsame (hs : s ∈ shape.core.wires ds) (hu : u ∈ shape.core.wires ds) :
      Le (leaf ds shape.core (.string s)) (leaf ds shape.core (.string t)) := by
    rw [hfree.eq_of_prefix hs hu hst htu]
    exact .same _
  cases hcore : shape.core with
  | primitive type constraints =>
    cases type with
    | text => exact .text hst
    | integer | real | bool => exact .unknown _
  | literal values constraints =>
    rw [hcore] at hsame hwhole
    by_cases hs : s ∈ values
    · cases hwhole with
      | literal option => exact hsame hs option
    · simp only [leaf, List.contains_eq_mem, hs, decide_false, Bool.false_eq_true, ↓reduceIte]
      exact .unknown _
  | enum id name description =>
    rw [hcore] at hsame hwhole
    by_cases hs : s ∈ (ds.enumOf id).wires.map (·.1)
    · cases hwhole with
      | member declared =>
        exact hsame hs (List.mem_map_of_mem (Entries.mem_of_get? declared))
    · have hnone : Entries.get? (ds.enumOf id).wires s = none := Entries.get?_eq_none.mpr hs
      simp only [leaf, hnone]
      exact .unknown _
  | array | optional | record | union => exact .unknown _

/-- The case that the beginning of an object names is that of the whole object. -/
theorem caseOf?_of_begins {name : String} {description : Option String} {cases : List Case}
    (hfree : PrefixFree ds (.union name description cases)) {bs cs es : List (String × Content)}
    (hbc : BeginsEntries bs cs) (hce : BeginsEntries cs es) {whole found : Case}
    (hwhole : caseOf? cases es = some whole)
    (hfound : caseOf? cases bs = some found) : caseOf? cases cs = some found ∧ whole = found := by
  unfold caseOf? at hfound
  split at hfound
  · next tag htag =>
    obtain ⟨c, hc, htagc⟩ := hbc.exists_get? htag
    obtain ⟨later, rfl, hlater⟩ := htagc.exists_string
    obtain ⟨e, he, hce⟩ := hce.exists_get? hc
    obtain ⟨last, rfl, hlast⟩ := hce.exists_string
    rw [caseOf?, he] at hwhole
    dsimp only at hwhole
    -- each tag begins the next, and the first and the last of them stand for cases
    have hmem {t : String} {one : Case} (h : caseFor? cases t = some one) :
        t ∈ (Shape.union name description cases).core.wires ds := mem_wires_of_caseFor? h
    have hbegin := hfree.eq_of_prefix (hmem hfound) (hmem hwhole) hlater hlast
    have hall := hfree.eq_of_prefix (hmem hfound) (hmem hwhole) (hlater.trans hlast)
      List.prefix_rfl
    rw [← hall, hfound] at hwhole
    refine ⟨?_, (Option.some.inj hwhole).symm⟩
    rw [caseOf?, hc, ← hbegin]
    exact hfound
  · cases hfound

/-- The record that the beginning of an object is an instance of is that of the whole object. -/
theorem instanceOf?_of_begins {shape : Shape} (hfree : PrefixFree ds shape)
    {bs cs es : List (String × Content)} (hbc : BeginsEntries bs cs) (hce : BeginsEntries cs es)
    {whole found : String} (hwhole : instanceOf? es shape = some whole)
    (hfound : instanceOf? bs shape = some found) :
    instanceOf? cs shape = some found ∧ whole = found := by
  cases shape with
  | record =>
    cases hfound
    cases hwhole
    exact ⟨rfl, rfl⟩
  | union name description cases =>
    obtain ⟨first, hfirst, rfl⟩ := Option.map_eq_some_iff.mp hfound
    obtain ⟨last, hlast, rfl⟩ := Option.map_eq_some_iff.mp hwhole
    obtain ⟨hlater, rfl⟩ := caseOf?_of_begins hfree hbc hce hlast hfirst
    exact ⟨by rw [instanceOf?, hlater, Option.map_some], rfl⟩
  | _ => cases hfound

/-! ### Growth -/

/-- Whatever content begins with this, when all of it decodes: what the beginning tells about a shape
is below what more of the content tells. -/
def Grows (ds : Declarations) (b : Content) : Prop :=
  ∀ shape, PrefixFree ds shape → ∀ c e, Begins b c → Begins c e →
    ∀ path v, Decoding.value ds e shape path = .ok v →
      ∀ p q, value ds b shape = .ok p → value ds c shape = .ok q → Le p q

theorem grows_string (s : String) : Grows ds (.string s) := by
  intro shape hfree c e hbc hce path v hdecode p q hp hq
  obtain ⟨t, rfl, hst⟩ := hbc.exists_string
  obtain ⟨u, rfl, htu⟩ := hce.exists_string
  cases tells_of_value hp with
  | leaf =>
    cases tells_of_value hq with
    | leaf =>
      cases Decoding.gives_of_value hdecode with
      | leaf hwhole => exact le_leaf hfree hst htu hwhole

/-! #### Arrays -/

theorem tuple_nil_le (qs : List Value) : Le (.tuple []) (.tuple qs) :=
  .tuple (Nat.zero_le _) fun _ h => absurd h (Nat.not_lt_zero _)

theorem tuple_cons_le {p q : Value} {ps qs : List Value} (h : Le p q)
    (hs : Le (.tuple ps) (.tuple qs)) : Le (.tuple (p :: ps)) (.tuple (q :: qs)) := by
  have hparts : ps.length ≤ qs.length ∧
      ∀ index < ps.length, Le (atIndex ps index) (atIndex qs index) := by
    cases hs with
    | same => exact ⟨Nat.le_refl _, fun index _ => .same _⟩
    | tuple longer each => exact ⟨longer, each⟩
  refine .tuple (Nat.succ_le_succ hparts.1) fun index hindex => ?_
  cases index with
  | zero => exact h
  | succ index =>
    rw [atIndex_succ, atIndex_succ]
    exact hparts.2 index (Nat.lt_of_succ_lt_succ hindex)

/-- The items that are known grow when each of them does: the first unknown one ends them. -/
theorem le_known {bs cs es : List Content} (each : ∀ b ∈ bs, Grows ds b) {item : Shape}
    (hfree : PrefixFree ds item) (hbc : BeginsItems bs cs) (hce : BeginsItems cs es) {path : Path}
    {i : Nat} {vs : List Value} (hdecode : Decoding.values ds es item path i = .ok vs)
    {ps qs : List Value} (hp : known ds bs item = .ok ps) (hq : known ds cs item = .ok qs) :
    Le (.tuple ps) (.tuple qs) := by
  induction bs generalizing cs es i vs ps qs with
  | nil =>
    rw [known] at hp
    cases hp
    exact tuple_nil_le qs
  | cons b bs ih =>
    cases hbc with
    | @cons _ c _ cs hb hbs =>
    cases hce with
    | @cons _ e _ es hc hcs =>
    rw [Decoding.values] at hdecode
    obtain ⟨v, hv, hdecode⟩ := Outcome.bind_eq_ok.mp hdecode
    obtain ⟨vs, hvs, -⟩ := Outcome.bind_eq_ok.mp hdecode
    rw [known] at hp hq
    obtain ⟨p, hbp, hp⟩ := Outcome.bind_eq_ok.mp hp
    obtain ⟨q, hcq, hq⟩ := Outcome.bind_eq_ok.mp hq
    have hle := each b List.mem_cons_self item hfree c e hb hc _ v hv p q hbp hcq
    cases hunknown : p.isUnknown with
    | true =>
      rw [hunknown] at hp
      cases hp
      exact tuple_nil_le qs
    | false =>
      have hlater : q.isUnknown = false := isUnknown_eq_false.mpr
        (hle.ne_unknown (isUnknown_eq_false.mp hunknown))
      rw [hunknown] at hp
      rw [hlater] at hq
      obtain ⟨ps, hps, hp⟩ := Outcome.bind_eq_ok.mp hp
      obtain ⟨qs, hqs, hq⟩ := Outcome.bind_eq_ok.mp hq
      cases hp
      cases hq
      apply tuple_cons_le hle
      exact ih (fun b hb => each b (List.mem_cons_of_mem _ hb)) hbs hcs hvs hps hqs

theorem grows_array {bs : List Content} (each : ∀ b ∈ bs, Grows ds b) :
    Grows ds (.array bs) := by
  intro shape hfree c e hbc hce path v hdecode p q hp hq
  obtain ⟨cs, rfl, hbcs⟩ := hbc.exists_array
  obtain ⟨es, rfl, hces⟩ := hce.exists_array
  cases tells_of_value hp with
  | leaf scalar => cases scalar
  | noItems => exact .unknown q
  | items core hps =>
    rw [value_array core] at hq
    rw [Decoding.value_array core] at hdecode
    obtain ⟨qs, hqs, rfl⟩ := Outcome.map_eq_ok.mp hq
    obtain ⟨vs, hvs, rfl⟩ := Outcome.map_eq_ok.mp hdecode
    exact le_known each (hfree.of_reaches (.item_of_core core)) hbcs hces hvs hps hqs

/-! #### Objects -/

variable {bs cs es : List (String × Content)}

/-- A slot grows when what its entry tells does. -/
theorem le_slot (each : ∀ b ∈ bs, Grows ds b.2) {f : FieldShape} (hfree : PrefixFree ds f.whole)
    (hbc : BeginsEntries bs cs) (hce : BeginsEntries cs es) {path : Path} {v p q : Value}
    (hdecode : Decoding.field ds es f path = .ok v) (hp : slot ds bs f = .ok p)
    (hq : slot ds cs f = .ok q) : Le p q := by
  rw [slot_eq] at hp hq
  cases hget : Entries.get? bs f.key with
  | none =>
    rw [hget] at hp
    cases hp
    exact .unknown q
  | some b =>
    obtain ⟨c, hc, hb⟩ := hbc.exists_get? hget
    obtain ⟨e, he, hlater⟩ := hce.exists_get? hc
    rw [hget] at hp
    rw [hc] at hq
    rw [Decoding.field_eq, he] at hdecode
    exact each (f.key, b) (Entries.mem_of_get? hget) f.whole hfree c e hb hlater _ v hdecode p q
      hp hq

theorem grows_object (each : ∀ b ∈ bs, Grows ds b.2) : Grows ds (.object bs) := by
  intro shape hfree c e hbc hce path v hdecode p q hp hq
  obtain ⟨cs, rfl, hbcs⟩ := hbc.exists_object
  obtain ⟨es, rfl, hces⟩ := hce.exists_object
  cases tells_of_value hp with
  | leaf scalar => cases scalar
  | noInstance => exact .unknown q
  | @slots _ _ id fields ps belongs resolved names hslots =>
    cases Decoding.gives_of_value hdecode with
    | leaf holds => cases holds.isScalar
    | @made _ _ whole _ given belongs' resolved' hgiven =>
      have hcore := hfree.of_reaches (.core shape)
      obtain ⟨hlater, rfl⟩ := instanceOf?_of_begins hcore hbcs hces belongs' belongs
      cases resolved.symm.trans resolved'
      cases tells_of_value hq with
      | leaf scalar => cases scalar
      | noInstance stranger => cases stranger.symm.trans hlater
      | slots belongs' resolved' names' hslots' =>
        cases belongs'.symm.trans hlater
        cases resolved.symm.trans resolved'
        -- all three instances are of one record, so their slots grow one by one
        refine .slots (names'.trans names.symm) fun name => ?_
        by_cases hname : name ∈ Entries.names ps
        · rw [names] at hname
          obtain ⟨f, hf, rfl⟩ := List.mem_map.mp hname
          obtain ⟨e, -, he⟩ := Outcome.exists_mem_right (Outcome.mapM_eq_ok.mp hgiven) hf
          obtain ⟨w, hw, -⟩ := Outcome.functorMap_eq_ok.mp he
          have hfield := hfree.of_reaches
            (.field_of_core (mem_of_instanceOf? belongs) resolved hf)
          exact le_slot each hfield hbcs hces hw (hslots f hf) (hslots' f hf)
        · rw [inSlot_of_not_mem hname]
          exact .unknown _

theorem grows_of_eq {b : Content} (h : ∀ c, Begins b c → c = b) : Grows ds b := by
  intro shape _ c e hbc _ path v _ p q hp hq
  rw [h c hbc, hp] at hq
  cases hq
  exact .same p

/-- What the beginning of content tells is below what more of it tells, when all of it decodes. -/
theorem grows (b : Content) : Grows ds b := by
  induction b using members_induction with
  | null | bool | number =>
    apply grows_of_eq
    intro c hbc
    cases hbc
    rfl
  | string s => exact grows_string s
  | array bs each => exact grows_array each
  | object bs each => exact grows_object each

end Snapshot

/-- What the beginning of content tells about a type is below what more of it tells. -/
theorem le_snapshot {t : TypeExpr} {shape : Shape} (hshape : ds.shapeOf t = .ok shape)
    (hfree : PrefixFree ds shape) {b c e : Content} (hbc : b.Truncation c) (hce : c.Truncation e)
    {v p q : Value} (hdecode : decode ds e t = .ok v) (hp : snapshot ds b t = .ok p)
    (hq : snapshot ds c t = .ok q) : p.Le q := by
  rw [snapshot, hshape] at hp hq
  rw [decode, hshape] at hdecode
  exact Snapshot.grows b shape hfree c e hbc.begins hce.begins _ v hdecode p q hp hq

end StructuredOutput

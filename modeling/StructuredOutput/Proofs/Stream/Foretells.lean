import StructuredOutput.Proofs.Stream.Choices

/-!
What the beginnings of a text tell of the value in it: each snapshot is foretold by the content of
the whole text, and so is the join of two. Snapshots that are foretold by the same content show the
same choices, and the value that the content holds shows them too, where no text that stands for a
choice begins another one.
-/

namespace StructuredOutput

variable {ds : Declarations} {c : Content} {shape : Shape}

open Value

/-- The record of which an object is an instance, as far as its discriminator has come. -/
inductive Promises (entries : List (String × Content)) : Shape → String → Prop
  | record (id name : String) (description : Option String) :
      Promises entries (.record id name description) id
  | case {name tag t : String} {description : Option String} {cases : List Case} {one : Case}
      (given : Entries.get? entries discriminatorKey = some (.string t))
      (begins : tag.toList <+: t.toList) (named : caseFor? cases tag = some one) :
      Promises entries (.union name description cases) one.record

/-- A snapshot that some beginning of the text of content may yield. -/
inductive Foretells (ds : Declarations) : Content → Shape → Value → Prop
  | unknown (c : Content) (shape : Shape) : Foretells ds c shape .unknown
  | null (shape : Shape) : Foretells ds .null shape .null
  | scalar {shape : Shape} {type : Primitive} {constraints : List Constraint} {v : Value}
      (core : shape.core = .primitive type constraints) (c : Content)
      (noInstance : v.instance? = none) (noItems : v.items? = none) : Foretells ds c shape v
  | option {shape : Shape} {values : List String} {constraints : List Constraint} {s t : String}
      (core : shape.core = .literal values constraints) (mem : s ∈ values)
      (begins : s.toList <+: t.toList) : Foretells ds (.string t) shape (.text s)
  | member {shape : Shape} {id name wire t : String} {description : Option String}
      {m : String × Value} (core : shape.core = .enum id name description)
      (declared : Entries.get? (ds.enumOf id).wires wire = some m)
      (begins : wire.toList <+: t.toList) :
      Foretells ds (.string t) shape (.member id m.1 m.2 (ds.enumOf id).mixin.isSome)
  | items {c : Content} {shape item : Shape} {container : Container}
      {constraints : List Constraint} {vs : List Value}
      (core : shape.core = .array item container constraints)
      (longer : vs.length ≤ c.items.length)
      (each : ∀ index d, c.items[index]? = some d → Foretells ds d item (atIndex vs index)) :
      Foretells ds c shape (.tuple vs)
  | slots {c : Content} {shape : Shape} {id : String} {fields : List FieldShape}
      {vs : List (String × Value)} (promised : Promises c.entries shape.core id)
      (resolved : ds.fieldShapes id = .ok fields) (names : Entries.names vs = fields.map (·.attr))
      (absent : ∀ f ∈ fields, Entries.get? c.entries f.key = none → inSlot vs f.attr = .unknown)
      (each : ∀ f ∈ fields, ∀ d, Entries.get? c.entries f.key = some d →
        Foretells ds d f.whole (inSlot vs f.attr)) : Foretells ds c shape (.slots id vs)

theorem Promises.mem_records {entries : List (String × Content)} {id : String}
    (h : Promises entries shape id) : id ∈ shape.records := by
  cases h with
  | record => exact List.mem_singleton_self id
  | case given begins named => exact List.mem_map_of_mem (List.mem_of_find?_eq_some named)

/-- Texts that stand for something and begin the same text are the same. -/
theorem PrefixFree.eq_of_begins {s : Shape} (h : PrefixFree ds shape) (hs : Reaches ds shape s)
    {a b : String} {cs : List Char} (ha : a ∈ s.wires ds) (hb : b ∈ s.wires ds)
    (hacs : a.toList <+: cs) (hbcs : b.toList <+: cs) : a = b := by
  rcases List.prefix_or_prefix_of_prefix hacs hbcs with hab | hba
  · exact h s hs a ha b hb hab
  · exact (h s hs b hb a ha hba).symm

/-- Where no tag begins another one, only one record is promised. -/
theorem Promises.unique {entries : List (String × Content)} {id id' : String}
    (hfree : PrefixFree ds shape) (h : Promises entries shape id)
    (h' : Promises entries shape id') :
    id = id' := by
  cases h with
  | record =>
    cases h'
    rfl
  | case given begins named =>
    cases h' with
    | case given' begins' named' =>
      cases given.symm.trans given'
      obtain rfl := hfree.eq_of_begins (.refl _) (mem_wires_of_caseFor? named)
        (mem_wires_of_caseFor? named') begins begins'
      cases named.symm.trans named'
      rfl

namespace Snapshot

/-! ### What content tells is foretold -/

theorem parts_primitive (type : Primitive) (c : Content) :
    (primitive type c).instance? = none ∧ (primitive type c).items? = none := by
  unfold primitive
  repeat' split
  all_goals exact ⟨rfl, rfl⟩

theorem foretells_leaf {b : Content} (h : b.Heralds c) (hscalar : b.isScalar = true) :
    Foretells ds c shape (leaf ds shape.core b) := by
  cases hcore : shape.core with
  | primitive type constraints =>
    obtain ⟨hinstance, hitems⟩ := parts_primitive type b
    exact .scalar hcore c hinstance hitems
  | literal values constraints =>
    cases h with
    | @string s t hprefix =>
      by_cases hs : s ∈ values
      · rw [leaf, if_pos (List.contains_iff_mem.mpr hs)]
        exact .option hcore hs hprefix
      · rw [leaf, if_neg (by simpa using hs)]
        exact .unknown _ _
    | array | object => cases hscalar
    | null | bool | number => exact .unknown _ _
  | enum id name description =>
    cases h with
    | @string s t hprefix =>
      cases hget : Entries.get? (ds.enumOf id).wires s with
      | none =>
        simp only [leaf, hget]
        exact .unknown _ _
      | some m =>
        simp only [leaf, hget]
        exact .member hcore hget hprefix
    | array | object => cases hscalar
    | null | bool | number => exact .unknown _ _
  | array | optional | record | union => exact .unknown _ _

theorem foretells_scalar {b : Content} {v : Value} (h : b.Heralds c) (hscalar : b.isScalar = true)
    (hv : value ds b shape = .ok v) : Foretells ds c shape v := by
  cases tells_of_value hv with
  | null =>
    cases h
    exact .null shape
  | leaf => exact foretells_leaf h hscalar
  | noItems | items | noInstance | slots => cases hscalar

theorem known_spec {items : List Content} {item : Shape} {vs : List Value}
    (h : known ds items item = .ok vs) :
    vs.length ≤ items.length ∧ ∀ index < vs.length, ∃ c, items[index]? = some c ∧
      value ds c item = .ok (atIndex vs index) := by
  induction items generalizing vs with
  | nil =>
    rw [known] at h
    cases h
    exact ⟨Nat.le_refl _, fun index hindex => absurd hindex (Nat.not_lt_zero _)⟩
  | cons c cs ih =>
    rw [known] at h
    obtain ⟨v, hv, h⟩ := Outcome.bind_eq_ok.mp h
    split at h
    · cases h
      exact ⟨Nat.zero_le _, fun index hindex => absurd hindex (Nat.not_lt_zero _)⟩
    · obtain ⟨rest, hrest, h⟩ := Outcome.bind_eq_ok.mp h
      cases h
      obtain ⟨hlength, heach⟩ := ih hrest
      refine ⟨Nat.succ_le_succ hlength, fun index hindex => ?_⟩
      cases index with
      | zero => exact ⟨c, rfl, hv⟩
      | succ index => simpa using heach index (Nat.lt_of_succ_lt_succ hindex)

theorem foretells_array {bs : List Content} {v : Value} (longer : bs.length ≤ c.items.length)
    (each : ∀ p ∈ bs.zip c.items, ∀ shape v, value ds p.1 shape = .ok v →
      Foretells ds p.2 shape v) (hv : value ds (.array bs) shape = .ok v) :
    Foretells ds c shape v := by
  cases tells_of_value hv with
  | leaf scalar => cases scalar
  | noItems => exact .unknown c shape
  | @items _ item _ _ _ vs hcore hknown =>
    obtain ⟨hlength, hknown⟩ := known_spec hknown
    refine .items hcore (Nat.le_trans hlength longer) fun index d hd => ?_
    by_cases hindex : index < vs.length
    · obtain ⟨b, hb, hvalue⟩ := hknown index hindex
      have hpair : (b, d) ∈ bs.zip c.items := by
        refine List.mem_of_getElem? (i := index) ?_
        rw [List.getElem?_zip_eq_some]
        exact ⟨hb, hd⟩
      exact each (b, d) hpair item _ hvalue
    · rw [atIndex_of_le (Nat.not_lt.mp hindex)]
      exact .unknown d item

/-- A slot is foretold by the entry that it is told by, which comes with the whole object. -/
theorem foretells_slot {bs : List (String × Content)} {f : FieldShape} {v : Value} {d : Content}
    (each : ∀ key b d, Entries.get? bs key = some b → Entries.get? c.entries key = some d →
      ∀ shape v, value ds b shape = .ok v → Foretells ds d shape v)
    (hd : Entries.get? c.entries f.key = some d) (hv : slot ds bs f = .ok v) :
    Foretells ds d f.whole v := by
  rw [slot_eq] at hv
  cases hget : Entries.get? bs f.key with
  | none =>
    rw [hget] at hv
    cases hv
    exact .unknown d _
  | some b =>
    rw [hget] at hv
    exact each f.key b d hget hd f.whole v hv

/-- An object promises the record of which what has come of it is an instance. -/
theorem promises_of_heralds {bs es : List (String × Content)} {shape : Shape} {id : String}
    (keys : ∀ key ∈ Entries.names bs, key ∈ Entries.names es)
    (heralds : ∀ key b d, Entries.get? bs key = some b → Entries.get? es key = some d →
      b.Heralds d)
    (h : instanceOf? bs shape = some id) : Promises es shape id := by
  cases shape with
  | record id' name description =>
    cases h
    exact .record id name description
  | union name description cases =>
    obtain ⟨one, hone, rfl⟩ := Option.map_eq_some_iff.mp h
    unfold caseOf? at hone
    split at hone
    · next tag htag =>
      obtain ⟨d, hd⟩ : ∃ d, Entries.get? es discriminatorKey = some d := by
        apply Option.ne_none_iff_exists'.mp
        rw [ne_eq, Entries.get?_eq_none, not_not]
        exact keys _ (List.mem_map_of_mem (Entries.mem_of_get? htag))
      obtain ⟨t, rfl, hprefix⟩ : ∃ t, d = .string t ∧ tag.toList <+: t.toList := by
        cases heralds _ _ _ htag hd with
        | string h => exact ⟨_, rfl, h⟩
      exact .case hd hprefix hone
    · cases hone
  | _ => cases h

theorem foretells_object {bs : List (String × Content)} {v : Value}
    (keys : ∀ key ∈ Entries.names bs, key ∈ Entries.names c.entries)
    (heralds : ∀ key b d, Entries.get? bs key = some b → Entries.get? c.entries key = some d →
      b.Heralds d)
    (each : ∀ key b d, Entries.get? bs key = some b → Entries.get? c.entries key = some d →
      ∀ shape v, value ds b shape = .ok v → Foretells ds d shape v)
    (hv : value ds (.object bs) shape = .ok v) : Foretells ds c shape v := by
  cases tells_of_value hv with
  | leaf scalar => cases scalar
  | noInstance => exact .unknown c shape
  | slots belongs resolved names hslots =>
    refine .slots (promises_of_heralds keys heralds belongs) resolved names
      (fun f hf hnone => ?_) fun f hf d hd => foretells_slot each hd (hslots f hf)
    have hslot := hslots f hf
    have habsent : Entries.get? bs f.key = none := by
      rw [Entries.get?_eq_none] at hnone ⊢
      exact fun hmem => hnone (keys _ hmem)
    rw [slot_eq, habsent] at hslot
    exact (Except.ok.inj hslot).symm

/-- What is told by content that heralds other content is foretold by that. -/
theorem foretells_value {b : Content} {v : Value} (h : b.Heralds c)
    (hv : value ds b shape = .ok v) : Foretells ds c shape v := by
  induction h generalizing shape v with
  | null => exact foretells_scalar .null rfl hv
  | bool b c => exact foretells_scalar (.bool b c) rfl hv
  | number x c => exact foretells_scalar (.number x c) rfl hv
  | string h => exact foretells_scalar (.string h) rfl hv
  | array longer _ ih => exact foretells_array longer (fun p hp shape v => ih p hp) hv
  | object keys heralds ih =>
    exact foretells_object keys heralds (fun key b d hb hd shape v => ih key b d hb hd) hv

/-! ### Joins are foretold -/

theorem not_paired {p q : Value} (hinstance : q.instance? = none) (hitems : q.items? = none) :
    ¬ Paired p q := by
  intro h
  have hparts := hasParts_of_paired h
  cases q with
  | slots => cases hinstance
  | tuple => cases hitems
  | _ => cases hparts

theorem foretells_merge_of_unpaired {p q : Value} (hp : Foretells ds c shape p)
    (hq : Foretells ds c shape q) (h : ¬ Paired p q) : Foretells ds c shape (merge p q) := by
  by_cases hknown : q = .unknown
  · rw [hknown, merge_unknown]
    exact hp
  · rw [merge_of_unpaired h hknown]
    exact hq

theorem foretells_items {item : Shape} {container : Container} {constraints : List Constraint}
    {ps : List Value} (core : shape.core = .array item container constraints)
    (h : Foretells ds c shape (.tuple ps)) : ps.length ≤ c.items.length ∧
      ∀ index d, c.items[index]? = some d → Foretells ds d item (atIndex ps index) := by
  cases h with
  | scalar core' => cases core.symm.trans core'
  | items core' longer each =>
    cases core.symm.trans core'
    exact ⟨longer, each⟩

theorem foretells_slots {id : String} {fields : List FieldShape} {ps : List (String × Value)}
    (resolved : ds.fieldShapes id = .ok fields) (h : Foretells ds c shape (.slots id ps)) :
    Promises c.entries shape.core id ∧ Entries.names ps = fields.map (·.attr) ∧ ∀ f ∈ fields,
      (Entries.get? c.entries f.key = none → inSlot ps f.attr = .unknown) ∧
      ∀ d, Entries.get? c.entries f.key = some d → Foretells ds d f.whole (inSlot ps f.attr) := by
  cases h with
  | scalar core _ noInstance => cases noInstance
  | slots promised resolved' names absent each =>
    cases resolved.symm.trans resolved'
    exact ⟨promised, names, fun f hf => ⟨absent f hf, each f hf⟩⟩

/-- The join of two snapshots that are foretold is foretold. -/
theorem foretells_merge {p q : Value} (hp : Foretells ds c shape p)
    (hq : Foretells ds c shape q) : Foretells ds c shape (merge p q) := by
  induction hq generalizing p with
  | unknown => simpa using hp
  | null => exact foretells_merge_of_unpaired hp (.null _) (not_paired rfl rfl)
  | scalar core c hinstance hitems =>
    exact foretells_merge_of_unpaired hp (.scalar core c hinstance hitems)
      (not_paired hinstance hitems)
  | option core mem begins =>
    exact foretells_merge_of_unpaired hp (.option core mem begins) (not_paired rfl rfl)
  | member core declared begins =>
    exact foretells_merge_of_unpaired hp (.member core declared begins) (not_paired rfl rfl)
  | @items c shape item container constraints ms core longer each ih =>
    cases p with
    | tuple ps =>
      obtain ⟨hlength, heach⟩ := foretells_items core hp
      rw [merge_tuple]
      refine .items core (by rw [length_mergeItems]; omega) fun index d hd => ?_
      rw [atIndex_mergeItems]
      exact ih index d hd (heach index d hd)
    | _ => exact foretells_merge_of_unpaired hp (.items core longer each) id
  | @slots c shape id fields ms promised resolved names absent each ih =>
    have hq := Foretells.slots promised resolved names absent each
    cases p with
    | slots id' ps =>
      by_cases hid : id' = id
      · subst hid
        obtain ⟨-, -, hfields⟩ := foretells_slots resolved hp
        have hjoin {f : FieldShape} (hf : f ∈ fields) : inSlot (mergeSlots ps ms) f.attr =
            merge (inSlot ps f.attr) (inSlot ms f.attr) :=
          inSlot_mergeSlots ps (names ▸ List.mem_map_of_mem hf)
        rw [merge_slots]
        refine .slots promised resolved ((names_mergeSlots ps ms).trans names)
          (fun f hf hnone => ?_) fun f hf d hd => ?_
        · rw [hjoin hf, absent f hf hnone, (hfields f hf).1 hnone, merge_unknown]
        · rw [hjoin hf]
          exact ih f hf d hd ((hfields f hf).2 d hd)
      · exact foretells_merge_of_unpaired hp hq hid
    | _ => exact foretells_merge_of_unpaired hp hq fun h => h

/-! ### Choices that are foretold -/

/-- Nothing that null foretells shows a choice. -/
theorem silent_of_null {p : Value} (h : Foretells ds .null shape p) : Silent ds shape p := by
  cases h with
  | unknown => exact .unknown shape
  | null => exact .null shape
  | scalar core _ noInstance noItems =>
    refine .of_noParts ?_ noInstance noItems
    simp [Shape.choice?, core]
  | items core longer =>
    obtain rfl := List.length_eq_zero_iff.mp (Nat.le_zero.mp longer)
    intro place
    cases place with
    | nil => simp [choiceAt, Shape.choice?, core]
    | cons step place =>
      cases step with
      | slot => rfl
      | item index =>
        rw [choiceAt_item core rfl]
        exact Silent.unknown _ place
  | @slots _ _ id fields ps promised resolved names absent each =>
    have hnoChoice : shape.choice? (.slots id ps) = none := by
      generalize hcore : shape.core = core at promised
      cases promised with
      | record => simp [Shape.choice?, hcore]
      | case given => cases given
    intro place
    cases place with
    | nil => exact hnoChoice
    | cons step place =>
      cases step with
      | item index => simp [choiceAt, items?]
      | slot name =>
        rw [choiceAt_slot resolved rfl]
        cases hfind : fields.find? fun f => f.attr == name with
        | none => rfl
        | some f =>
          have hname : f.attr = name := by simpa using List.find?_some hfind
          rw [← hname, absent f (List.mem_of_find?_eq_some hfind) rfl]
          exact Silent.unknown f.whole place

/-- Nothing that is foretold of a scalar shows a choice. -/
theorem silent_of_primitive {type : Primitive} {constraints : List Constraint}
    (core : shape.core = .primitive type constraints) {p : Value} (h : Foretells ds c shape p) :
    Silent ds shape p := by
  cases h with
  | unknown => exact .unknown shape
  | null => exact .null shape
  | scalar _ _ noInstance noItems =>
    refine .of_noParts ?_ noInstance noItems
    simp [Shape.choice?, core]
  | option core' => cases core.symm.trans core'
  | member core' => cases core.symm.trans core'
  | items core' => cases core.symm.trans core'
  | slots promised =>
    rw [core] at promised
    cases promised

/-- Of a literal at most the option is foretold that begins its text. -/
theorem silent_or_option (hfree : PrefixFree ds shape) {values : List String}
    {constraints : List Constraint} (core : shape.core = .literal values constraints)
    {s t : String} (mem : s ∈ values) (begins : s.toList <+: t.toList) {p : Value}
    (h : Foretells ds (.string t) shape p) : Silent ds shape p ∨ p = .text s := by
  cases h with
  | unknown => exact .inl (.unknown shape)
  | scalar core' => cases core.symm.trans core'
  | option core' mem' begins' =>
    cases core.symm.trans core'
    have hwire {a : String} (ha : a ∈ values) : a ∈ shape.core.wires ds := by
      rwa [core]
    exact .inr (congrArg _ (hfree.eq_of_begins (.core shape) (hwire mem') (hwire mem) begins'
      begins))
  | member core' => cases core.symm.trans core'
  | items core' => cases core.symm.trans core'
  | slots promised =>
    rw [core] at promised
    cases promised

/-- Of an enumeration at most the member is foretold of which the wire begins the text. -/
theorem silent_or_member (hfree : PrefixFree ds shape) {id name wire t : String}
    {description : Option String} {m : String × Value}
    (core : shape.core = .enum id name description)
    (declared : Entries.get? (ds.enumOf id).wires wire = some m)
    (begins : wire.toList <+: t.toList) {p : Value} (h : Foretells ds (.string t) shape p) :
    Silent ds shape p ∨ p = (ds.enumOf id).memberValue id m := by
  cases h with
  | unknown => exact .inl (.unknown shape)
  | scalar core' => cases core.symm.trans core'
  | option core' => cases core.symm.trans core'
  | member core' declared' begins' =>
    cases core.symm.trans core'
    have hwire {a : String} {m : String × Value}
        (ha : Entries.get? (ds.enumOf id).wires a = some m) : a ∈ shape.core.wires ds := by
      rw [core]
      exact List.mem_map_of_mem (Entries.mem_of_get? ha)
    obtain rfl := hfree.eq_of_begins (.core shape) (hwire declared') (hwire declared) begins'
      begins
    cases declared.symm.trans declared'
    exact .inr rfl
  | items core' => cases core.symm.trans core'
  | slots promised =>
    rw [core] at promised
    cases promised

theorem silent_or_tuple {item : Shape} {container : Container} {constraints : List Constraint}
    (core : shape.core = .array item container constraints) {p : Value}
    (h : Foretells ds c shape p) : Silent ds shape p ∨ ∃ ps, p = .tuple ps := by
  cases h with
  | unknown => exact .inl (.unknown shape)
  | null => exact .inl (.null shape)
  | scalar core' => cases core.symm.trans core'
  | option core' => cases core.symm.trans core'
  | member core' => cases core.symm.trans core'
  | items => exact .inr ⟨_, rfl⟩
  | slots promised =>
    rw [core] at promised
    cases promised

theorem silent_or_slots (hfree : PrefixFree ds shape) {id : String}
    (promised : Promises c.entries shape.core id) {p : Value} (h : Foretells ds c shape p) :
    Silent ds shape p ∨ ∃ ps, p = .slots id ps := by
  have hother {s : Shape} (core : shape.core = s) (hs : s.records = []) : False := by
    have hmem := promised.mem_records
    rw [core, hs] at hmem
    cases hmem
  cases h with
  | unknown => exact .inl (.unknown shape)
  | null => exact .inl (.null shape)
  | scalar core => exact (hother core rfl).elim
  | option core => exact (hother core rfl).elim
  | member core => exact (hother core rfl).elim
  | items core => exact (hother core rfl).elim
  | slots promised' =>
    rw [promised'.unique (hfree.of_reaches (.core shape)) promised]
    exact .inr ⟨_, rfl⟩

/-- What is foretold is borne out by its join with what is foretold too. -/
theorem bearsOut_merge (hfree : PrefixFree ds shape) {p q : Value} (hp : Foretells ds c shape p)
    (hq : Foretells ds c shape q) : BearsOut ds shape p (merge p q) := by
  induction hq generalizing p with
  | unknown =>
    rw [merge_unknown]
    exact .same _ p
  | null => exact .silent (silent_of_null hp) _
  | scalar core => exact .silent (silent_of_primitive core hp) _
  | option core mem begins =>
    rcases silent_or_option hfree core mem begins hp with hsilent | rfl
    · exact .silent hsilent _
    · exact .same _ _
  | member core declared begins =>
    rcases silent_or_member hfree core declared begins hp with hsilent | rfl
    · exact .silent hsilent _
    · exact .same _ _
  | @items c shape item container constraints ms core longer each ih =>
    rcases silent_or_tuple core hp with hsilent | ⟨ps, rfl⟩
    · exact .silent hsilent _
    obtain ⟨hlength, heach⟩ := foretells_items core hp
    have hitem : PrefixFree ds item := hfree.of_reaches (.item_of_core core)
    rw [merge_tuple]
    refine .items core rfl fun index hindex => ?_
    obtain ⟨d, hd⟩ : ∃ d, c.items[index]? = some d :=
      ⟨_, List.getElem?_eq_getElem (Nat.lt_of_lt_of_le hindex hlength)⟩
    rw [atIndex_mergeItems]
    exact ih index d hd hitem (heach index d hd)
  | @slots c shape id fields ms promised resolved names absent each ih =>
    rcases silent_or_slots hfree promised hp with hsilent | ⟨ps, rfl⟩
    · exact .silent hsilent _
    obtain ⟨-, -, hfields⟩ := foretells_slots resolved hp
    rw [merge_slots]
    refine .slots rfl resolved fun f hf => ?_
    rw [inSlot_mergeSlots ps (names ▸ List.mem_map_of_mem hf)]
    have hfield : PrefixFree ds f.whole :=
      hfree.of_reaches (.field_of_core promised.mem_records resolved hf)
    cases hget : Entries.get? c.entries f.key with
    | none =>
      rw [(hfields f hf).1 hget]
      exact .silent (.unknown _) _
    | some d => exact ih f hf d hget hfield ((hfields f hf).2 d hget)

/-- An object promises the record that it is an instance of. -/
theorem promises_of_instanceOf? {entries : List (String × Content)} {shape : Shape} {id : String}
    (h : instanceOf? entries shape = some id) : Promises entries shape id := by
  refine promises_of_heralds (fun _ hkey => hkey) (fun key b d hb hd => ?_) h
  cases hb.symm.trans hd
  exact .refl b

/-- What is foretold is borne out by the value that the content holds. -/
theorem bearsOut_of_holds (hfree : PrefixFree ds shape) {p w : Value}
    (hp : Foretells ds c shape p) (hw : Holds ds c shape w) : BearsOut ds shape p w := by
  induction hw generalizing p with
  | null => exact .silent (silent_of_null hp) _
  | text core => exact .silent (silent_of_primitive core hp) _
  | bool core => exact .silent (silent_of_primitive core hp) _
  | real core => exact .silent (silent_of_primitive core hp) _
  | integer core => exact .silent (silent_of_primitive core hp) _
  | literal core option =>
    rcases silent_or_option hfree core option List.prefix_rfl hp with hsilent | rfl
    · exact .silent hsilent _
    · exact .same _ _
  | member core declared =>
    rcases silent_or_member hfree core declared List.prefix_rfl hp with hsilent | rfl
    · exact .silent hsilent _
    · exact .same _ _
  | @array shape item container constraints items vs core length each ih =>
    rcases silent_or_tuple core hp with hsilent | ⟨ps, rfl⟩
    · exact .silent hsilent _
    obtain ⟨hlength, heach⟩ := foretells_items core hp
    have hitem : PrefixFree ds item := hfree.of_reaches (.item_of_core core)
    have hitems : (container.collect vs).items? = some vs := by cases container <;> rfl
    refine .items core hitems fun index hindex => ?_
    have hcontent : index < items.length := Nat.lt_of_lt_of_le hindex hlength
    have hvalue : index < vs.length := length ▸ hcontent
    have hpair : (items[index], vs[index]) ∈ items.zip vs := by
      refine List.mem_of_getElem? (i := index) ?_
      rw [List.getElem?_zip_eq_some]
      exact ⟨List.getElem?_eq_getElem hcontent, List.getElem?_eq_getElem hvalue⟩
    have hat : atIndex vs index = vs[index] := by simp [atIndex, hvalue]
    rw [hat]
    exact ih _ hpair hitem (heach index _ (List.getElem?_eq_getElem hcontent))
  | @object shape entries id fields attrs belongs resolved given absent present ih =>
    have promised : Promises (Content.object entries).entries shape.core id :=
      promises_of_instanceOf? belongs
    rcases silent_or_slots hfree promised hp with hsilent | ⟨ps, rfl⟩
    · exact .silent hsilent _
    obtain ⟨-, -, hfields⟩ := foretells_slots resolved hp
    refine .slots rfl resolved fun f hf => ?_
    have hfield : PrefixFree ds f.whole :=
      hfree.of_reaches (.field_of_core promised.mem_records resolved hf)
    cases hget : Entries.get? entries f.key with
    | none =>
      rw [(hfields f hf).1 hget]
      exact .silent (.unknown _) _
    | some d =>
      obtain ⟨v, hv⟩ := given f hf
      rw [inSlot_of_get? hv]
      exact ih f hf d v hget hv hfield ((hfields f hf).2 d hget)

end Snapshot

end StructuredOutput

import Mathlib
import StructuredOutput.Proofs.Schema.Termination

/-!
How often bodies are built. A derivation is followed with a note of every role whose body is begun:
the body of a record, of an enumeration or of a union, and that of a case of a union. No role is
noted twice, and without the notes it is the same derivation.
-/

namespace StructuredOutput

/-- The role in which a role is built: that of the union for a case, and else the role itself. -/
def Role.owner : Role → Role
  | .case name records _ => .union name records
  | role => role

/-- A step of a derivation, with the roles whose bodies are begun. -/
def Noted (α : Type) : Type := Derivation → (Except TypeFault α × Derivation) × List Role

namespace Noted

variable {α β : Type}

instance : Monad Noted where
  pure a := fun d => ((.ok a, d), [])
  bind m f := fun d =>
    match m d with
    | ((.ok a, d'), notes) => ((f a d').1, notes ++ (f a d').2)
    | ((.error fault, d'), notes) => ((.error fault, d'), notes)

/-- A step in which no body is begun. -/
def quiet (m : Derive α) : Noted α := fun d => (m.run d, [])

/-- Notes that the body of a role is begun. -/
def note (role : Role) : Noted Unit := fun d => ((.ok (), d), [role])

/-- The steps over a list, one after the other. -/
def each (f : α → Noted β) : List α → Noted (List β)
  | [] => pure []
  | x :: xs => do
    let y ← f x
    let ys ← each f xs
    pure (y :: ys)

/-- The schema of a role, with a note before its body. -/
def once (role : Role) (base : String) (body : String → Noted Schema) : Noted Schema := do
  let name ← quiet (Derivation.claim role base)
  let d ← quiet get
  if d.building.contains role then pure (.ref name)
  else
    match Entries.get? d.built role with
    | some s => pure s
    | none => do
      note role
      quiet (set (d.begin role))
      let s ← body name
      quiet (modify fun d => d.finish role name s)
      pure s

/-- Builds arrays around the schemas of other shapes. -/
def arrays (other : Shape → Noted Schema) : Shape → Noted Schema
  | .array item _ constraints => do
    let s ← arrays other item
    quiet (Derivation.lift ((Schema.array s []).constrain constraints))
  | s => other s

/-- The object of a record with properties before those of its fields. -/
def objectOf (ds : Declarations) (field : Shape → Noted Schema) (id name : String)
    (description : Option String) (leading : List (Property Schema)) : Noted Schema :=
  match ds.fieldShapes id with
  | .error fault => quiet (throw fault)
  | .ok fields => do
    let properties ← each (fun f => do
      let s ← field f.shape
      pure (⟨f.key, s, f.description, f.optional⟩ : Property Schema)) fields
    quiet (Derivation.lift (Schema.ofProperties name description (leading ++ properties)))

/-- The schema of a shape that is no array, with a note before the body of each case, too. -/
def build (ds : Declarations) : (fuel : Nat) → Shape → Noted Schema
  | 0, _ => quiet (throw .endless)
  | fuel + 1, shape =>
    match shape with
    | .enum id name description =>
      once (.enum id) name fun name =>
        pure (.union name description
          ((ds.enumOf id).wires.map fun w => .string [.constant w.1]))
    | .record id name description =>
      once (.record id) name fun name =>
        objectOf ds (arrays (build ds fuel)) id name description []
    | .union name description cases =>
      let records := cases.map (·.record)
      once (.union name records) name fun unionName => do
        let alternatives ← each (fun c => do
          let caseName ←
            quiet (Derivation.claim (.case name records c.record) (ds.schemaName c.record))
          note (.case name records c.record)
          let tag : Property Schema := ⟨discriminatorKey, .string [.constant c.tag], none, false⟩
          objectOf ds (arrays (build ds fuel)) c.record caseName (ds.naming c.record).description
            [tag]) cases
        pure (.union unionName description alternatives)
    | shape => quiet (Derivation.build ds (fuel + 1) shape)

end Noted

/-- The schema of a type, with what is reported on the way and the roles whose bodies are begun. -/
def Declarations.noteSchema (ds : Declarations) (t : TypeExpr) :
    (Except TypeFault SchemaGraph × List Notice) × List Role :=
  match ds.shapeOf t with
  | .error fault => ((.error fault, []), [])
  | .ok (.optional _) => ((.error (.definition (.optionalRoot (t.shown ds))), []), [])
  | .ok shape =>
    match Noted.arrays (Noted.build ds (ds.derivationDepth t)) shape .start with
    | ((.error fault, d), notes) => ((.error fault, d.notices), notes)
    | ((.ok root, d), notes) =>
      ((.ok ⟨root, d.table⟩, d.notices ++ [.schemaDerived (t.label ds) root.kindName]), notes)

namespace Noted

variable {ds : Declarations} {α β : Type}

/-! ### Single steps -/

theorem bind_eq (m : Noted α) (f : α → Noted β) (d : Derivation) :
    (m >>= f) d =
      match m d with
      | ((.ok a, d'), notes) => ((f a d').1, notes ++ (f a d').2)
      | ((.error fault, d'), notes) => ((.error fault, d'), notes) := rfl

theorem quiet_bind {m : Derive α} {d d' : Derivation} {a : α} (h : m.run d = (.ok a, d'))
    (f : α → Noted β) : (quiet m >>= f) d = f a d' := by
  rw [bind_eq, quiet, h]
  rfl

/-! ### Without the notes -/

/-- Without its notes, a step is the given one. -/
def Erases (m : Noted α) (plain : Derive α) : Prop := ∀ d, (m d).1 = plain.run d

namespace Erases

theorem quiet (plain : Derive α) : Erases (Noted.quiet plain) plain := fun _ => rfl

theorem pure (a : α) : Erases (Pure.pure a) (Pure.pure a) := fun _ => rfl

theorem bind {m : Noted α} {plain : Derive α} {f : α → Noted β} {g : α → Derive β}
    (hm : Erases m plain) (hf : ∀ a, Erases (f a) (g a)) : Erases (m >>= f) (plain >>= g) := by
  intro d
  rw [Derivation.run_bind, ← hm d, bind_eq]
  rcases m d with ⟨⟨_ | a, d'⟩, notes⟩
  · rfl
  · exact hf a d'

theorem note {role : Role} {f : Unit → Noted β} {plain : Derive β} (h : Erases (f ()) plain) :
    Erases (Noted.note role >>= f) plain := h

theorem each {f : α → Noted β} {g : α → Derive β} (xs : List α)
    (h : ∀ x ∈ xs, Erases (f x) (g x)) : Erases (Noted.each f xs) (xs.mapM g) := by
  induction xs with
  | nil => exact .pure []
  | cons x xs ih =>
    rw [List.mapM_cons]
    refine (h x List.mem_cons_self).bind fun y => ?_
    exact (ih fun z hz => h z (List.mem_cons_of_mem x hz)).bind fun ys => .pure _

theorem once {role : Role} {base : String} {body : String → Noted Schema}
    {plain : String → Derive Schema} (h : ∀ name, Erases (body name) (plain name)) :
    Erases (Noted.once role base body) (Derivation.once role base plain) := by
  refine (Erases.quiet _).bind fun name => (Erases.quiet get).bind fun d => ?_
  split
  · exact .pure _
  cases Entries.get? d.built role with
  | some s => exact .pure s
  | none => exact .note ((Erases.quiet _).bind fun _ =>
      (h name).bind fun s => (Erases.quiet _).bind fun _ => .pure s)

theorem arrays {other : Shape → Noted Schema} {plain : Shape → Derive Schema} (shape : Shape)
    (h : ∀ s, Erases (other s) (plain s)) :
    Erases (Noted.arrays other shape) (Derivation.arrays plain shape) := by
  induction shape with
  | array item container constraints ih => exact ih.bind fun s => .quiet _
  | _ => exact h _

theorem objectOf {field : Shape → Noted Schema} {plain : Shape → Derive Schema} {id name : String}
    {description : Option String} {leading : List (Property Schema)}
    (h : ∀ s, Erases (field s) (plain s)) :
    Erases (Noted.objectOf ds field id name description leading)
      (Derivation.objectOf ds plain id name description leading) := by
  unfold Noted.objectOf Derivation.objectOf
  cases ds.fieldShapes id with
  | error fault => exact .quiet _
  | ok fields =>
    have hproperties := Erases.each fields fun f _ => (h f.shape).bind fun s =>
      .pure (⟨f.key, s, f.description, f.optional⟩ : Property Schema)
    exact hproperties.bind fun properties => .quiet _

theorem build (fuel : Nat) (shape : Shape) :
    Erases (Noted.build ds fuel shape) (Derivation.build ds fuel shape) := by
  induction fuel generalizing shape with
  | zero => exact .quiet _
  | succ fuel ih =>
    have hfield (s : Shape) : Erases (Noted.arrays (Noted.build ds fuel) s)
        (Derivation.arrays (Derivation.build ds fuel) s) := .arrays s ih
    cases shape with
    | enum id name description => exact .once fun name => .pure _
    | record id name description => exact .once fun name => .objectOf hfield
    | union name description cases =>
      refine .once fun unionName => (Erases.each cases fun c _ => ?_).bind fun alternatives => .pure _
      exact (Erases.quiet _).bind fun caseName => .note (.objectOf hfield)
    | primitive | literal | array | optional => exact .quiet _

end Erases

/-! ### No role is noted twice -/

/-- What a step notes is noted once, and it is either expected or in a role that had not been begun.
Every role that is noted has been begun afterwards, and what has been begun before still is. -/
structure Fresh (expected : List Role) (d : Derivation) (notes : List Role) (d' : Derivation) :
    Prop where
  nodup : notes.Nodup
  new : ∀ r ∈ notes, r ∈ expected ∨ ¬ d.Begun r.owner
  begun : ∀ r ∈ notes, d'.Begun r.owner
  kept : ∀ r, d.Begun r → d'.Begun r

namespace Fresh

variable {d d' d'' : Derivation} {notes notes' expected expected' : List Role}

theorem silent (expected : List Role) (h : ∀ r, d.Begun r → d'.Begun r) :
    Fresh expected d [] d' where
  nodup := List.nodup_nil
  new := fun _ h => absurd h List.not_mem_nil
  begun := fun _ h => absurd h List.not_mem_nil
  kept := h

theorem mono (h : Fresh expected d notes d') (hsub : expected ⊆ expected') :
    Fresh expected' d notes d' :=
  { h with new := fun r hr => (h.new r hr).imp_left fun hr => hsub hr }

/-- What one step notes is not noted by the next one, as it has been begun by then. -/
theorem trans (h : Fresh expected d notes d') (h' : Fresh expected' d' notes' d'')
    (hdisjoint : expected.Disjoint expected') (howner : ∀ r ∈ expected', d.Begun r.owner) :
    Fresh (expected ++ expected') d (notes ++ notes') d'' where
  nodup := by
    refine List.nodup_append'.mpr ⟨h.nodup, h'.nodup, fun r hr hr' => ?_⟩
    rcases h'.new r hr' with hexpected | hnew
    · rcases h.new r hr with hbefore | hnew
      · exact hdisjoint hbefore hexpected
      · exact hnew (howner r hexpected)
    · exact hnew (h.begun r hr)
  new := by
    intro r hr
    rcases List.mem_append.mp hr with hr | hr
    · exact (h.new r hr).imp_left (List.mem_append_left _)
    · exact (h'.new r hr).imp (List.mem_append_right _) fun hnew hbegun => hnew (h.kept _ hbegun)
  begun := by
    intro r hr
    rcases List.mem_append.mp hr with hr | hr
    · exact h'.kept _ (h.begun r hr)
    · exact h'.begun r hr
  kept := fun r hr => h'.kept r (h.kept r hr)

end Fresh

/-- A step notes nothing twice, and of what has been begun it notes expected roles only. -/
def NotesOnce (expected : List Role) (m : Noted α) : Prop :=
  ∀ d, (∀ r ∈ expected, d.Begun r.owner) → Fresh expected d (m d).2 (m d).1.2

namespace NotesOnce

variable {expected expected' : List Role}

theorem quiet {m : Derive α} (h : ∀ d r, d.Begun r → (m.run d).2.Begun r) :
    NotesOnce [] (Noted.quiet m) := fun d _ => .silent [] (h d)

theorem pure (a : α) : NotesOnce [] (Pure.pure a) := fun _ _ => .silent [] fun _ h => h

theorem lift (r : Except DefinitionError α) : NotesOnce [] (Noted.quiet (Derivation.lift r)) := by
  cases r <;> exact .quiet fun _ _ h => h

theorem claim (role : Role) (base : String) :
    NotesOnce [] (Noted.quiet (Derivation.claim role base)) := by
  refine .quiet fun d r hr => ?_
  obtain ⟨name, d', hrun, hclaims⟩ := Derivation.exists_run_claim role base d
  rw [hrun]
  unfold Derivation.Begun at hr ⊢
  rwa [hclaims.building, hclaims.built]

theorem bind {m : Noted α} {f : α → Noted β} (hm : NotesOnce expected m)
    (hf : ∀ a, NotesOnce expected' (f a)) (hdisjoint : expected.Disjoint expected') :
    NotesOnce (expected ++ expected') (m >>= f) := by
  intro d howner
  obtain ⟨hbefore, hafter⟩ := List.forall_mem_append.mp howner
  have hfresh := hm d hbefore
  rw [bind_eq]
  rcases hresult : m d with ⟨⟨fault | a, d'⟩, notes⟩
  · rw [hresult] at hfresh
    exact hfresh.mono (List.subset_append_left _ _)
  · rw [hresult] at hfresh
    exact hfresh.trans (hf a d' fun r hr => hfresh.kept _ (hafter r hr)) hdisjoint hafter

/-- A step that expects nothing may come before or after another one. -/
theorem andThen {m : Noted α} {f : α → Noted β} (hm : NotesOnce expected m)
    (hf : ∀ a, NotesOnce [] (f a)) : NotesOnce expected (m >>= f) :=
  List.append_nil expected ▸ hm.bind hf (List.disjoint_nil_right _)

theorem after {m : Noted α} {f : α → Noted β} (hm : NotesOnce [] m)
    (hf : ∀ a, NotesOnce expected (f a)) : NotesOnce expected (m >>= f) :=
  hm.bind hf (List.disjoint_nil_left _)

/-- Steps that expect different roles expect all of them together. -/
theorem each {f : α → Noted β} (expect : α → List Role) (xs : List α)
    (h : ∀ x ∈ xs, NotesOnce (expect x) (f x)) (hnodup : (xs.flatMap expect).Nodup) :
    NotesOnce (xs.flatMap expect) (Noted.each f xs) := by
  induction xs with
  | nil => exact .pure []
  | cons x xs ih =>
    rw [List.flatMap_cons] at hnodup ⊢
    obtain ⟨-, hrest, hdisjoint⟩ := List.nodup_append'.mp hnodup
    refine (h x List.mem_cons_self).bind (fun y => ?_) hdisjoint
    exact (ih (fun z hz => h z (List.mem_cons_of_mem x hz)) hrest).andThen fun ys => .pure _

/-- A role that is expected is noted. -/
theorem note (role : Role) : NotesOnce [role] (Noted.note role) := by
  intro d howner
  exact ⟨List.nodup_singleton _, fun r hr => .inl hr, howner, fun _ h => h⟩

end NotesOnce

/-- What becomes of a role that has a name; the role is noted if its body is built. -/
theorem once_eq {role : Role} {base name : String} {d d₀ : Derivation}
    (hclaim : (Derivation.claim role base).run d = (.ok name, d₀)) (body : String → Noted Schema) :
    once role base body d =
      if role ∈ d₀.building then ((.ok (.ref name), d₀), [])
      else
        match Entries.get? d₀.built role with
        | some s => ((.ok s, d₀), [])
        | none =>
          match body name (d₀.begin role) with
          | ((.ok s, d₁), notes) => ((.ok s, d₁.finish role name s), role :: notes)
          | ((.error fault, d₁), notes) => ((.error fault, d₁), role :: notes) := by
  have hget : (get : Derive Derivation).run d₀ = (.ok d₀, d₀) := rfl
  rw [once, quiet_bind hclaim, quiet_bind hget]
  by_cases hbuilding : role ∈ d₀.building
  · rw [if_pos hbuilding, if_pos (List.contains_iff_mem.mpr hbuilding)]
    rfl
  rw [if_neg hbuilding, if_neg (fun h => hbuilding (List.contains_iff_mem.mp h))]
  cases Entries.get? d₀.built role with
  | some s => rfl
  | none =>
    dsimp only
    have hset : (set (d₀.begin role) : Derive PUnit).run d₀ = (.ok ⟨⟩, d₀.begin role) := rfl
    rw [bind_eq, note]
    dsimp only
    rw [quiet_bind hset, bind_eq]
    rcases body name (d₀.begin role) with ⟨⟨_ | s, d₁⟩, notes⟩
    · rfl
    · change ((Except.ok s, d₁.finish role name s), [role] ++ (notes ++ [])) = _
      rw [List.append_nil]
      rfl

theorem Fresh.finish {d d' : Derivation} {notes expected : List Role}
    (h : Fresh expected d notes d') (role : Role) (name : String) (s : Schema) :
    Fresh expected d notes (d'.finish role name s) where
  nodup := h.nodup
  new := h.new
  begun := fun r hr => Derivation.begun_finish (h.begun r hr) role name s
  kept := fun r hr => Derivation.begun_finish (h.kept r hr) role name s

/-- A role is noted before its body if it is begun for the first time. Whatever the body may note is
in the role, and so it is new, too. -/
theorem Fresh.of_body {d d₀ d' : Derivation} {role : Role} {notes expected : List Role}
    (h : Fresh expected d₀ notes d') (hself : role.owner = role)
    (hexpected : ∀ r ∈ expected, r.owner = role ∧ r ≠ role) (hnew : ¬ d.Begun role)
    (hbegun : d₀.Begun role) (hkept : ∀ r, d.Begun r → d₀.Begun r) :
    Fresh [] d (role :: notes) d' where
  nodup := by
    refine List.nodup_cons.mpr ⟨fun hr => ?_, h.nodup⟩
    rcases h.new role hr with hr | hr
    · exact (hexpected role hr).2 rfl
    · exact hr (hself.symm ▸ hbegun)
  new := by
    refine List.forall_mem_cons.mpr ⟨.inr (hself.symm ▸ hnew), fun r hr => .inr ?_⟩
    rcases h.new r hr with hr | hr
    · exact (hexpected r hr).1.symm ▸ hnew
    · exact fun hbefore => hr (hkept _ hbefore)
  begun := List.forall_mem_cons.mpr ⟨hself.symm ▸ h.kept role hbegun, h.begun⟩
  kept := fun r hr => h.kept r (hkept r hr)

/-- The body of a role is noted once, as it is begun only before the role is, and what the body may
note is in the role itself. -/
theorem NotesOnce.once {role : Role} {base : String} {body : String → Noted Schema}
    {expected : List Role} (hself : role.owner = role)
    (hexpected : ∀ r ∈ expected, r.owner = role ∧ r ≠ role)
    (hbody : ∀ name, NotesOnce expected (body name)) : NotesOnce [] (Noted.once role base body) := by
  intro d _
  obtain ⟨name, d₀, hclaim, hclaims⟩ := Derivation.exists_run_claim role base d
  have hclaimed (r : Role) : d₀.Begun r ↔ d.Begun r := by
    rw [Derivation.Begun, Derivation.Begun, hclaims.building, hclaims.built]
  rw [once_eq hclaim]
  split
  · exact .silent [] fun r => (hclaimed r).mpr
  next hidle =>
  split
  · exact .silent [] fun r => (hclaimed r).mpr
  next hunbuilt =>
  have hnew : ¬ d.Begun role := by
    rw [← hclaimed]
    rintro (h | ⟨t, ht⟩)
    · exact hidle h
    · cases hunbuilt.symm.trans ht
  have hbegun : (d₀.begin role).Begun role := .inl List.mem_cons_self
  have hkept (r : Role) (h : d.Begun r) : (d₀.begin role).Begun r :=
    ((hclaimed r).mpr h).imp_left (List.mem_cons_of_mem role)
  have hfresh := (hbody name (d₀.begin role) fun r hr => (hexpected r hr).1.symm ▸ hbegun).of_body
    hself hexpected hnew hbegun hkept
  rcases hresult : body name (d₀.begin role) with ⟨⟨fault | s, d₁⟩, notes⟩
  · rw [hresult] at hfresh
    exact hfresh
  · rw [hresult] at hfresh
    exact hfresh.finish role name s

theorem NotesOnce.arrays {other : Shape → Noted Schema} (shape : Shape)
    (h : ∀ s, Reaches ds shape s → NotesOnce [] (other s)) :
    NotesOnce [] (Noted.arrays other shape) := by
  induction shape with
  | array item container constraints ih =>
    have hitem : Reaches ds (.array item container constraints) item := .item (.refl item)
    exact (ih fun s hs => h s (hitem.trans hs)).andThen fun s => .lift _
  | _ => exact h _ (.refl _)

theorem NotesOnce.objectOf {field : Shape → Noted Schema} {id name : String}
    {description : Option String} {leading : List (Property Schema)}
    (h : ∀ fields, ds.fieldShapes id = .ok fields → ∀ f ∈ fields, NotesOnce [] (field f.shape)) :
    NotesOnce [] (Noted.objectOf ds field id name description leading) := by
  unfold Noted.objectOf
  split
  · exact .quiet fun _ _ h => h
  · next fields hfields =>
    have hnone : (fields.flatMap fun _ => ([] : List Role)) = [] := by
      rw [List.flatMap_eq_nil_iff]
      exact fun _ _ => rfl
    have hproperties := NotesOnce.each (fun _ => []) fields (fun f hf =>
      (h fields hfields f hf).andThen fun s =>
        .pure (⟨f.key, s, f.description, f.optional⟩ : Property Schema))
      (by rw [hnone]; exact List.nodup_nil)
    rw [hnone] at hproperties
    exact hproperties.andThen fun properties => .lift _

theorem NotesOnce.build (fuel : Nat) {shape : Shape} (hcoherent : shape.Coherent ds) :
    NotesOnce [] (Noted.build ds fuel shape) := by
  induction fuel generalizing shape with
  | zero => exact .quiet fun _ _ h => h
  | succ fuel ih =>
    have hfields (id : String) (hid : id ∈ shape.records) :
        ∀ fields, ds.fieldShapes id = .ok fields → ∀ f ∈ fields,
          NotesOnce [] (Noted.arrays (Noted.build ds fuel) f.shape) := by
      intro fields hresolved f hf
      have hfield : Reaches ds shape f.shape := .field hid hresolved hf (.shape_of_field f)
      exact .arrays f.shape fun s hs => ih ((hfield.trans hs).coherent hcoherent)
    cases shape with
    | primitive | literal => exact .lift _
    | array | optional => exact .quiet fun _ _ h => h
    | enum id name description =>
      exact .once rfl (fun r hr => absurd hr List.not_mem_nil) fun name => .pure _
    | record id name description =>
      exact .once rfl (fun r hr => absurd hr List.not_mem_nil) fun schemaName =>
        .objectOf (hfields id (List.mem_singleton_self id))
    | union name description cases =>
      -- The cases of the union are expected while the union is being built.
      have hnodup : (cases.flatMap fun c =>
          [Role.case name (cases.map (·.record)) c.record]).Nodup := by
        have hrecords := Derivation.nodup_records hcoherent.1 hcoherent.2
        have hcases : Function.Injective (Role.case name (cases.map (·.record))) :=
          fun _ _ h => (Role.case.inj h).2.2
        have hmap := hrecords.map hcases
        rwa [List.map_map, List.map_eq_flatMap] at hmap
      refine .once rfl (fun r hr => ?_) fun unionName =>
        (NotesOnce.each _ cases (fun c hc => ?_) hnodup).andThen fun alternatives => .pure _
      · obtain ⟨c, -, hr⟩ := List.mem_flatMap.mp hr
        obtain rfl := List.mem_singleton.mp hr
        exact ⟨rfl, by simp⟩
      · refine (NotesOnce.claim _ _).after fun caseName => (NotesOnce.note _).andThen fun _ => ?_
        exact .objectOf (hfields c.record (List.mem_map_of_mem hc))

end Noted

namespace Declarations

variable {ds : Declarations}

/-- Without the notes, the schema of a type is derived. -/
theorem noteSchema_fst (ds : Declarations) (t : TypeExpr) :
    (ds.noteSchema t).1 = ds.deriveSchema t := by
  unfold noteSchema deriveSchema
  cases hshape : ds.shapeOf t with
  | error fault => rfl
  | ok shape =>
    have herases : (Noted.arrays (Noted.build ds (ds.derivationDepth t)) shape .start).1 =
        (Derivation.arrays (Derivation.build ds (ds.derivationDepth t)) shape).run .start :=
      Noted.Erases.arrays shape (Noted.Erases.build (ds.derivationDepth t)) .start
    cases shape with
    | optional inner => rfl
    | _ =>
      dsimp only
      rw [← herases]
      rcases Noted.arrays _ _ _ with ⟨⟨_ | root, d⟩, notes⟩ <;> rfl

/-- No body is begun twice while the schema of a type is derived. -/
theorem noteSchema_snd_nodup (ds : Declarations) (t : TypeExpr) : (ds.noteSchema t).2.Nodup := by
  unfold noteSchema
  split
  · exact List.nodup_nil
  · exact List.nodup_nil
  next shape _ hshape =>
  have honce : Noted.NotesOnce [] (Noted.arrays (Noted.build ds (ds.derivationDepth t)) shape) :=
    .arrays shape fun s hs => .build _ (hs.coherent (coherent_of_shapeOf hshape))
  have hfresh := honce .start fun r hr => absurd hr List.not_mem_nil
  split <;> next hresult => exact (hresult ▸ hfresh).nodup

/-- Where no alias reaches itself but through the fields of a record, a type has a schema or is
refused with a reason, unless one of its literals can be changed; and on the way the body of every
record, enumeration, union and case of a union is begun once at most. -/
theorem schemaFor_ends (h : ds.Acyclic) (cache : SchemaCache) (t : TypeExpr) :
    (Decided (ds.schemaFor cache t).1 ↔ t.changeable? = none) ∧
      (ds.noteSchema t).1 = ds.deriveSchema t ∧ (ds.noteSchema t).2.Nodup :=
  ⟨h.decided_schemaFor_iff cache t, ds.noteSchema_fst t, ds.noteSchema_snd_nodup t⟩

end Declarations

/-- Trees, named by an alias, that are leaves or forks with a tree in front and perhaps one behind. -/
def grove : Declarations :=
  ⟨"grove", [
    ("Leaf", .record ⟨"Leaf", none, none, [⟨"size", .atom .integer, none, none, false, none, true⟩]⟩),
    ("Tree", .typeAlias (.union [.named "Leaf", .named "Fork"])),
    ("Fork", .record ⟨"Fork", none, none,
      [⟨"front", .named "Tree", none, none, false, none, true⟩,
        ⟨"behind", .union [.named "Tree", .atom .none], none, none, false, none, true⟩]⟩)]⟩

namespace Grove

/-- The alias leads to a union of records, and no further. -/
theorem acyclic : grove.Acyclic := by
  intro id h
  have hunion (u : TypeExpr) :
      ¬ grove.RestsOn (.union [.named "Leaf", .named "Fork"]) u := by
    intro hu
    cases hu with
    | only hone => simp [Declarations.present, Declarations.isNone] at hone
    | array harray => cases harray
  have halias {u : TypeExpr} (hu : grove.RestsOn (.named id) u) :
      u = .union [.named "Leaf", .named "Fork"] := by
    cases hu with
    | follow hbody =>
      have hmem := Entries.mem_of_get? hbody
      simp only [grove, List.mem_cons, Prod.mk.injEq, reduceCtorEq, and_false, false_or, or_false,
        List.not_mem_nil, Declaration.typeAlias.injEq] at hmem
      exact hmem.2
    | array harray => cases harray
  obtain ⟨u, hu, hrest⟩ := Relation.TransGen.head'_iff.mp h
  obtain rfl := halias hu
  rcases hrest.cases_head with heq | ⟨v, hv, -⟩
  · cases heq
  · exact hunion v hv

def fork : Shape := .record "Fork" "Fork" none

def tree : Shape := .union "Tree" none [⟨"Leaf", "leaf"⟩, ⟨"Fork", "fork"⟩]

theorem shapeOf_fork : grove.shapeOf (.named "Fork") = .ok fork := by cbv

theorem fieldShapes_leaf :
    grove.fieldShapes "Leaf" = .ok [⟨"size", "size", .primitive .integer [], false, none⟩] := by cbv

theorem fieldShapes_fork :
    grove.fieldShapes "Fork" = .ok [⟨"front", "front", tree, false, none⟩,
      ⟨"behind", "behind", tree, true, none⟩] := by cbv

/-- The roles whose bodies are begun for the schema of a fork. -/
def begun : List Role :=
  [.record "Fork", .union "Tree" ["Leaf", "Fork"], .case "Tree" ["Leaf", "Fork"] "Leaf",
    .case "Tree" ["Leaf", "Fork"] "Fork"]

theorem noteSchema_fork : (grove.noteSchema (.named "Fork")).2 = begun := by
  have hdepth : grove.derivationDepth (.named "Fork") = 193 + 1 + 1 + 1 := rfl
  simp only [Declarations.noteSchema, shapeOf_fork, hdepth, fork, Noted.arrays]
  rw [Noted.build]
  simp only [Noted.objectOf, fieldShapes_fork, Noted.each, Noted.arrays, tree]
  rw [Noted.build]
  simp only [Noted.objectOf, fieldShapes_leaf, fieldShapes_fork, Noted.each, Noted.arrays, tree]
  rfl

end Grove

namespace Declarations

open Grove in
theorem schemaFor_ends_grove :
    grove.Acyclic ∧ Decided (grove.schemaFor [] (.named "Fork")).1 ∧
      (grove.noteSchema (.named "Fork")).1 = grove.deriveSchema (.named "Fork") ∧
      (grove.noteSchema (.named "Fork")).2 = begun ∧ begun.Nodup := by
  obtain ⟨hdecided, herased, hnodup⟩ := schemaFor_ends acyclic [] (.named "Fork")
  exact ⟨acyclic, hdecided.mpr rfl, herased, noteSchema_fork, noteSchema_fork ▸ hnodup⟩

/-- A literal of a list has no shape for a stated reason, but its schema fails without one. -/
theorem not_schemaFor_ends :
    empty.Acyclic ∧
      (∃ cause, empty.shapeOf (.literal [.list []]) = .error (.definition cause)) ∧
      (empty.schemaFor [] (.literal [.list []])).1 = .error (.changeableLiteral "list") ∧
      ¬ Decided (empty.schemaFor [] (.literal [.list []])).1 := by
  have hresult : (empty.schemaFor [] (.literal [.list []])).1 =
      .error (.changeableLiteral "list") := rfl
  refine ⟨fun id h => ?_, ?_, hresult, fun hdecided => ?_⟩
  · obtain ⟨u, hu, -⟩ := Relation.TransGen.head'_iff.mp h
    cases hu with
    | follow hbody => cases hbody
    | array harray => cases harray
  · rw [shapeOf, resolve]
    exact ⟨_, rfl⟩
  · obtain ⟨cause, hcause⟩ := hdecided _ hresult
    cases hcause

end Declarations

end StructuredOutput

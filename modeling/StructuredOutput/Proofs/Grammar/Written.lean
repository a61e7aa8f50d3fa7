import StructuredOutput.Proofs.Grammar.Notation
import StructuredOutput.Proofs.Json.Reading

/-!
What the written form of a grammar is read as. A sequence inside a sequence, or as an alternative,
has no marks of its own, so that its items stand among those around it; everything else is read as
it is.
-/

namespace StructuredOutput.Grammar

open Json Text

/-! ### Tokens -/

/-- A text is one token, if no name goes on after it. -/
def Token.Written (t : Token) (w : List Char) : Prop :=
  ∀ rest, Stops isNameChar rest → tokensFrom .start (w ++ rest) = (tokensFrom .start rest).map (t :: ·)

/-- A character that completes no token. -/
theorem tokensFrom_cons {place after : Place} {c : Char} (h : place.next c = some ([], after))
    (cs : List Char) : tokensFrom place (c :: cs) = tokensFrom after cs := by
  rw [tokensFrom, h]
  exact congrFun Option.map_id _

section

variable {stage after : Stage} {t : Token} {w rest : List Char} {rules : List Rule}

theorem readFrom_blank : readFrom stage (' ' :: rest) = readFrom stage rest := by
  rw [readFrom, tokensFrom_cons rfl, readFrom]

theorem readFrom_token (hw : tokensFrom .start (w ++ rest) = (tokensFrom .start rest).map (t :: ·))
    (hnext : stage.next t = some (rules, after)) :
    readFrom stage (w ++ rest) = (readFrom after rest).map (rules ++ ·) := by
  rw [readFrom, readFrom, hw]
  cases tokensFrom .start rest with
  | none => rfl
  | some ts => simp [rulesFrom, hnext]

/-- A token that completes no rule. -/
theorem readFrom_part (hw : t.Written w) (hrest : Stops isNameChar rest)
    (hnext : stage.next t = some ([], after)) :
    readFrom stage (w ++ rest) = readFrom after rest := by
  simp [readFrom_token (hw rest hrest) hnext]

end

/-! ### Names -/

theorem Place.next_start {c : Char} (h : isNameChar c = true) :
    Place.start.next c = some ([], .name [c]) := by
  change Place.begin c = _
  unfold Place.begin
  split <;> first | (exact absurd h (by decide)) | exact if_pos h

theorem tokensFrom_name {read cs rest : List Char} (hcs : ∀ c ∈ cs, isNameChar c = true)
    (hrest : Stops isNameChar rest) : tokensFrom (.name read) (cs ++ rest) =
      (tokensFrom .start rest).map (.name (read ++ cs) :: ·) := by
  induction cs generalizing read with
  | nil =>
    rw [List.append_nil, List.nil_append]
    cases rest with
    | nil => rfl
    | cons c rest =>
      have hc : isNameChar c = false := hrest c rfl
      simp only [tokensFrom, Place.next, hc]
      cases Place.begin c with
      | none => rfl
      | some found =>
        cases h : tokensFrom found.2 rest <;> simp [h]
  | cons c cs ih =>
    obtain ⟨hc, hcs⟩ := List.forall_mem_cons.mp hcs
    have hnext : (Place.name read).next c = some ([], .name (read ++ [c])) := if_pos hc
    rw [List.append_cons, ← ih hcs, List.cons_append, tokensFrom_cons hnext]

theorem written_name {cs : List Char} (h : IsName cs) : (Token.name cs).Written cs := by
  intro rest hrest
  obtain ⟨c, cs, rfl⟩ := List.exists_cons_of_ne_nil h.1
  obtain ⟨hc, hcs⟩ := List.forall_mem_cons.mp h.2
  rw [List.cons_append, tokensFrom_cons (Place.next_start hc), tokensFrom_name hcs hrest,
    List.singleton_append]

/-! ### Between marks -/

/-- A text between marks goes on after some characters. -/
def Quote.Keeps (q : Quote) (cs : List Char) : Prop :=
  ∀ read rest, tokensFrom (.quoted q read false) (cs ++ rest) =
    tokensFrom (.quoted q (read ++ cs) false) rest

namespace Quote

variable {q : Quote} {cs ds : List Char}

theorem keeps_nil : q.Keeps [] := fun read _ => by rw [List.append_nil, List.nil_append]

theorem Keeps.append (hcs : q.Keeps cs) (hds : q.Keeps ds) : q.Keeps (cs ++ ds) := fun read rest => by
  rw [List.append_assoc, hcs, hds, List.append_assoc]

theorem keeps_flatMap {α : Type} {f : α → List Char} {xs : List α} (h : ∀ x ∈ xs, q.Keeps (f x)) :
    q.Keeps (xs.flatMap f) := by
  induction xs with
  | nil => exact keeps_nil
  | cons x xs ih =>
    rw [List.flatMap_cons]
    exact (h x List.mem_cons_self).append (ih fun y hy => h y (List.mem_cons_of_mem x hy))

theorem keeps_plain {c : Char} (hclose : c ≠ q.close) (hescape : c ≠ '\\') : q.Keeps [c] := by
  intro read rest
  exact tokensFrom_cons (by simp [Place.next, hclose, hescape]) rest

theorem keeps_escaped (hq : q.close ≠ '\\') (c : Char) : q.Keeps ['\\', c] := by
  intro read rest
  have hmark : (Place.quoted q read false).next '\\' =
      some ([], .quoted q (read ++ ['\\']) true) := by
    simp [Place.next, hq.symm]
  have hnext : (Place.quoted q (read ++ ['\\']) true).next c =
      some ([], .quoted q (read ++ ['\\', c]) false) := by
    simp [Place.next]
  exact (tokensFrom_cons hmark (c :: rest)).trans (tokensFrom_cons hnext rest)

theorem written {opening : Char} {t : Token}
    (hopening : Place.start.next opening = some ([], .quoted q [] false)) (hkeeps : q.Keeps cs)
    (ht : q.token? cs = some t) : t.Written (opening :: (cs ++ [q.close])) := by
  intro rest _
  rw [List.cons_append, tokensFrom_cons hopening, List.append_assoc, hkeeps, List.nil_append]
  simp [tokensFrom, Place.next, ht]

end Quote

/-! ### Terminals -/

theorem symbols_terminal (cs : List Char) : symbols (cs.flatMap terminalChar) =
    some (cs.map fun c => (c, decide (c = '"' ∨ c = '\\'))) := by
  induction cs with
  | nil => rfl
  | cons c cs ih =>
    rw [List.flatMap_cons, terminalChar]
    split
    · next h => rcases h with rfl | rfl <;> simp [symbols, ih]
    · next h =>
      have hplain : c ≠ '\\' := fun heq => h (.inr heq)
      rw [List.singleton_append, symbols, ih, List.map_cons, decide_eq_false h]
      · rfl
      all_goals simp [hplain]

theorem written_terminal (cs : List Char) : (Token.literal cs).Written (terminalText cs) := by
  have hkeeps : Quote.literal.Keeps (cs.flatMap terminalChar) := by
    refine Quote.keeps_flatMap fun c _ => ?_
    unfold terminalChar
    split
    · exact Quote.keeps_escaped (by decide) c
    · next h => exact Quote.keeps_plain (fun heq => h (.inl heq)) fun heq => h (.inr heq)
  refine Quote.written rfl hkeeps ?_
  simp [Quote.token?, symbols_terminal, Function.comp_def]

/-! ### Repetition -/

theorem timesOf_text (least : Nat) (greatest : Option Nat) :
    timesOf (decimal least ++ ',' :: (greatest.map decimal).getD []) = some (least, greatest) := by
  have hdigits (n : Nat) : ∀ c ∈ decimal n, c.isDigit = true := fun _ => isDigit_of_mem_decimal
  have hvalue (n : Nat) : ofDigits ((decimal n).filterMap asciiDigit?) = n :=
    (ofDigits_asciiDigits (hdigits n)).trans (ofDigitChars_decimal n)
  have hsome (n : Nat) : decimal n ≠ [] := Nat.toDigits_ne_nil
  have hstops : Stops Char.isDigit (',' :: (greatest.map decimal).getD []) := by
    rintro _ ⟨⟩
    rfl
  simp only [timesOf, takeWhile_append (hdigits least) hstops,
    dropWhile_append (hdigits least) hstops, hsome, if_false, hvalue]
  cases greatest with
  | none => rfl
  | some n =>
    have hall : (decimal n).all Char.isDigit = true := List.all_eq_true.mpr (hdigits n)
    have hn := hvalue n
    obtain ⟨c, ds, hcons⟩ := List.exists_cons_of_ne_nil (hsome n)
    rw [hcons] at hall hn
    simp only [Option.map_some, Option.getD_some, hcons, hall, hn, if_true]

theorem written_times (least : Nat) (greatest : Option Nat) :
    (Token.times least greatest).Written (timesText least greatest) := by
  have hdigit (c : Char) (hc : c.isDigit = true) : Quote.times.Keeps [c] := by
    refine Quote.keeps_plain ?_ ?_ <;> rintro rfl <;> cases hc
  have hdecimal (n : Nat) : Quote.times.Keeps (decimal n) := by
    rw [← List.flatMap_singleton' (decimal n)]
    exact Quote.keeps_flatMap fun c hc => hdigit c (isDigit_of_mem_decimal hc)
  have hgreatest : Quote.times.Keeps ((greatest.map decimal).getD []) := by
    cases greatest with
    | none => exact Quote.keeps_nil
    | some n => exact hdecimal n
  have hcomma : Quote.times.Keeps [','] := Quote.keeps_plain (by decide) (by decide)
  have hkeeps := (hdecimal least).append (hcomma.append hgreatest)
  have ht : Quote.times.token? (decimal least ++ ',' :: (greatest.map decimal).getD []) =
      some (.times least greatest) := by
    rw [Quote.token?, timesOf_text]
    rfl
  exact Quote.written rfl hkeeps ht

/-! ### Expressions -/

/-- The sequences of items that the written form of an expression is read as. A choice of nothing
is written like the empty sequence; whether it may be read so is said by `lenient`. -/
inductive ReadAs (lenient : Bool) : Expr → List (List Expr) → Prop
  | terminal (text : List Char) : ReadAs lenient (.terminal text) [[.terminal text]]
  | chars {negated : Bool} {ranges : List (Char × Char)}
      (written : (Token.chars negated ranges).Written (Expr.chars negated ranges).text) :
      ReadAs lenient (.chars negated ranges) [[.chars negated ranges]]
  | rule {name : String} (isName : IsName name.toList) : ReadAs lenient (.rule name) [[.rule name]]
  | nil : ReadAs lenient (.seq []) [[]]
  | cons {e : Expr} {es : List Expr} {items rest : List Expr} (head : ReadAs lenient e [items])
      (tail : ReadAs lenient (.seq es) [rest]) : ReadAs lenient (.seq (e :: es)) [items ++ rest]
  | empty (may : lenient = true) : ReadAs lenient (.alt []) [[]]
  | last {e : Expr} {items : List Expr} (one : ReadAs lenient e [items]) :
      ReadAs lenient (.alt [e]) [items]
  | more {e next : Expr} {es : List Expr} {items : List Expr} {others : List (List Expr)}
      (one : ReadAs lenient e [items]) (rest : ReadAs lenient (.alt (next :: es)) others) :
      ReadAs lenient (.alt (e :: next :: es)) (items :: others)
  | group {e : Expr} {sequences : List (List Expr)} (inner : ReadAs lenient e sequences) :
      ReadAs lenient (.group e) [[.group (choice sequences)]]
  | opt {e item : Expr} (inner : ReadAs lenient e [[item]]) : ReadAs lenient (.opt e) [[.opt item]]
  | star {e item : Expr} (inner : ReadAs lenient e [[item]]) :
      ReadAs lenient (.star e) [[.star item]]
  | plus {e item : Expr} (inner : ReadAs lenient e [[item]]) :
      ReadAs lenient (.plus e) [[.plus item]]
  | times {e item : Expr} (inner : ReadAs lenient e [[item]]) (least : Nat)
      (greatest : Option Nat) : ReadAs lenient (.times e least greatest) [[.times item least greatest]]

theorem text_seq_singleton (e : Expr) : (Expr.seq [e]).text = e.text := by
  simp [Expr.text, texts]

theorem text_seq_cons (e next : Expr) (es : List Expr) : (Expr.seq (e :: next :: es)).text =
    e.text ++ ' ' :: (Expr.seq (next :: es)).text := by
  simp [Expr.text, texts]

theorem text_alt_singleton (e : Expr) : (Expr.alt [e]).text = e.text := by
  simp [Expr.text, texts]

theorem text_alt_cons (e next : Expr) (es : List Expr) : (Expr.alt (e :: next :: es)).text =
    e.text ++ ' ' :: '|' :: ' ' :: (Expr.alt (next :: es)).text := by
  simp [Expr.text, texts]

namespace Frame

/-- Adds sequences, the first of which goes on with the last items. -/
def take (f : Frame) : List (List Expr) → Frame
  | [] => f
  | [items] => { f with items := f.items ++ items }
  | items :: others => ({ f with items := f.items ++ items }.split).take others

theorem take_nil_items (f : Frame) : f.take [[]] = f := by simp [take]

theorem take_append (f : Frame) (items rest : List Expr) :
    f.take [items ++ rest] = (f.take [items]).take [rest] := by
  simp [take]

theorem take_cons (f : Frame) (items : List Expr) {others : List (List Expr)} (h : others ≠ []) :
    f.take (items :: others) = (f.take [items]).split.take others := by
  cases others with
  | nil => exact absurd rfl h
  | cons => rfl

theorem again_take (f : Frame) (e : Expr) (wrap : Expr → Expr) :
    (f.take [[e]]).again wrap = some (f.take [[wrap e]]) := by
  simp [take, again]

theorem expr_take {sequences : List (List Expr)} (h : sequences ≠ []) :
    (empty.take sequences).expr = choice sequences := by
  have hall (f : Frame) (hf : f.items = []) : (f.take sequences).expr = choice (f.done ++ sequences) := by
    induction sequences generalizing f with
    | nil => exact absurd rfl h
    | cons items others ih =>
      cases others with
      | nil => simp [take, expr, hf]
      | cons next others =>
        rw [take_cons _ _ (List.cons_ne_nil _ _), ih (List.cons_ne_nil _ _) _ rfl]
        simp [take, split, hf]
  exact hall empty rfl

end Frame

variable {lenient : Bool} {e : Expr} {sequences : List (List Expr)}

theorem ReadAs.ne_nil (h : ReadAs lenient e sequences) : sequences ≠ [] := by
  cases h <;> exact List.cons_ne_nil _ _

theorem written_mark {c : Char} {t : Token} (h : Place.start.next c = some ([t], .start)) :
    t.Written [c] := by
  intro rest _
  simp [tokensFrom, h]

theorem stops_of_cons {c : Char} (hc : isNameChar c = false) (cs : List Char) :
    Stops isNameChar (c :: cs) := by
  rintro _ ⟨⟩
  exact hc

/-- A text adds sequences to the body of a rule. -/
def Adds (w : List Char) (sequences : List (List Expr)) : Prop :=
  ∀ name top outer rest, Stops isNameChar rest →
    readFrom (.body name top outer) (w ++ rest) =
      readFrom (.body name (top.take sequences) outer) rest

namespace Adds

variable {v w : List Char} {items others : List Expr}

theorem nil : Adds [] [[]] := fun name top outer rest _ => by
  rw [Frame.take_nil_items, List.nil_append]

theorem token {t : Token} {item : Expr} (hw : t.Written w) (hnext : ∀ name top outer,
    Stage.next (.body name top outer) t = some ([], .body name (top.push item) outer)) :
    Adds w [[item]] :=
  fun name top outer _ hrest => readFrom_part hw hrest (hnext name top outer)

theorem seq (hv : Adds v [items]) (hw : Adds w [others]) :
    Adds (v ++ ' ' :: w) [items ++ others] := by
  intro name top outer rest hrest
  rw [List.append_assoc, List.cons_append, hv name top outer _ (stops_of_cons rfl _),
    readFrom_blank, hw name _ outer rest hrest, Frame.take_append]

theorem alt (hv : Adds v [items]) (hw : Adds w sequences) (hsome : sequences ≠ []) :
    Adds (v ++ ' ' :: '|' :: ' ' :: w) (items :: sequences) := by
  intro name top outer rest hrest
  have hsplit : Stage.next (.body name (top.take [items]) outer) .bar =
      some ([], .body name (top.take [items]).split outer) := rfl
  have hbar : readFrom (.body name (top.take [items]) outer) ('|' :: ' ' :: (w ++ rest)) =
      readFrom (.body name (top.take [items]).split outer) (' ' :: (w ++ rest)) :=
    readFrom_part (written_mark rfl) (stops_of_cons rfl _) hsplit
  simp only [List.append_assoc, List.cons_append]
  rw [hv name top outer _ (stops_of_cons rfl _), readFrom_blank, hbar, readFrom_blank,
    hw name _ outer rest hrest, Frame.take_cons _ _ hsome]

theorem group (hw : Adds w sequences) (hsome : sequences ≠ []) :
    Adds ('(' :: ' ' :: w ++ [' ', ')']) [[.group (choice sequences)]] := by
  intro name top outer rest hrest
  have hopen : readFrom (.body name top outer) ('(' :: ' ' :: (w ++ ' ' :: ')' :: rest)) =
      readFrom (.body name .empty (top :: outer)) (' ' :: (w ++ ' ' :: ')' :: rest)) :=
    readFrom_part (written_mark rfl) (stops_of_cons rfl _) rfl
  have hnext : Stage.next (.body name (Frame.empty.take sequences) (top :: outer)) .closes =
      some ([], .body name (top.take [[.group (choice sequences)]]) outer) := by
    rw [← Frame.expr_take hsome]
    rfl
  have hclose : readFrom (.body name (Frame.empty.take sequences) (top :: outer)) (')' :: rest) =
      readFrom (.body name (top.take [[.group (choice sequences)]]) outer) rest :=
    readFrom_part (written_mark rfl) hrest hnext
  simp only [List.append_assoc, List.cons_append, List.nil_append]
  rw [hopen, readFrom_blank, hw name _ _ _ (stops_of_cons rfl _), readFrom_blank, hclose]

/-- A mark of repetition belongs to the one item before it. -/
theorem again {t : Token} {item : Expr} {wrap : Expr → Expr} (hv : Adds v [[item]])
    (hw : t.Written w) (hstops : ∀ rest, Stops isNameChar (w ++ rest))
    (hnext : ∀ name top outer, Stage.next (.body name top outer) t =
      (top.again wrap).map fun top => ([], .body name top outer)) :
    Adds (v ++ w) [[wrap item]] := by
  intro name top outer rest hrest
  rw [List.append_assoc, hv name top outer _ (hstops rest)]
  refine readFrom_part hw hrest ?_
  rw [hnext, Frame.again_take]
  rfl

end Adds

/-- The written form of an expression adds the sequences that it is read as. -/
theorem ReadAs.adds (h : ReadAs lenient e sequences) : Adds e.text sequences := by
  induction h with
  | terminal text => exact .token (written_terminal text) fun _ _ _ => rfl
  | chars written => exact .token written fun _ _ _ => rfl
  | @rule name isName =>
    refine .token (written_name isName) fun _ _ _ => ?_
    simp [Stage.next, Expr.text]
  | nil | empty => exact .nil
  | @cons e es _ _ _ tail ihead itail =>
    cases es with
    | nil =>
      cases tail
      rwa [text_seq_singleton, List.append_nil]
    | cons next es =>
      rw [text_seq_cons]
      exact ihead.seq itail
  | last _ ih => rwa [text_alt_singleton]
  | more _ rest ihone ihrest =>
    rw [text_alt_cons]
    exact ihone.alt ihrest rest.ne_nil
  | group inner ih => exact ih.group inner.ne_nil
  | opt _ ih | star _ ih | plus _ ih =>
    exact ih.again (written_mark rfl) (fun _ => stops_of_cons rfl _) fun _ _ _ => rfl
  | times _ least greatest ih =>
    exact ih.again (written_times least greatest) (fun _ => stops_of_cons rfl _) fun _ _ _ => rfl

/-! ### Rules -/

/-- A rule as it is read: its body is the choice of the sequences that its body is read as. -/
def Rule.ReadAs (lenient : Bool) (r r' : Rule) : Prop :=
  IsName r.name.toList ∧ r'.name = r.name ∧
    ∃ sequences, Grammar.ReadAs lenient r.body sequences ∧ r'.body = choice sequences

theorem readFrom_line {r r' : Rule} (h : r.ReadAs lenient r') (rest : List Char) :
    readFrom .between (r.line ++ rest) = (readFrom .between rest).map (r' :: ·) := by
  obtain ⟨_, body⟩ := r
  obtain ⟨name, _⟩ := r'
  obtain ⟨hname, hsame, sequences, hread, hbody⟩ := h
  dsimp only at hname hsame hread hbody
  subst hsame hbody
  have hnamed : Stage.between.next (.name name.toList) = some ([], .named name) := by
    simp [Stage.next]
  have hdefines : Token.defines.Written [':', ':', '='] := by
    intro rest _
    rw [List.cons_append, tokensFrom_cons rfl, List.cons_append, tokensFrom_cons rfl]
    rfl
  have hend : Stage.next (.body name (Frame.empty.take sequences) []) .newline =
      some ([⟨name, choice sequences⟩], .between) := by
    rw [← Frame.expr_take hread.ne_nil]
    rfl
  have hline : Rule.line ⟨name, body⟩ ++ rest =
      name.toList ++ (' ' :: ([':', ':', '='] ++ ' ' :: (body.text ++ (['\n'] ++ rest)))) := by
    simp [Rule.line]
  rw [hline, readFrom_part (written_name hname) (stops_of_cons rfl _) hnamed, readFrom_blank,
    readFrom_part hdefines (stops_of_cons rfl _) rfl, readFrom_blank,
    hread.adds _ _ _ (['\n'] ++ rest) (stops_of_cons rfl rest), readFrom_token rfl hend]
  rfl

theorem read_lines {rules rules' : List Rule} (h : List.Forall₂ (Rule.ReadAs lenient) rules rules') :
    read (rules.flatMap Rule.line) = some rules' := by
  induction h with
  | nil => rfl
  | cons hfirst _ ih =>
    rw [List.flatMap_cons, read, readFrom_line hfirst, ← read, ih]
    rfl

/-! ### What rules derive as they are read -/

section

variable {rules rules' : List Rule} {depth : Nat} {cs : List Char} {items : List Expr}

theorem derives_choice : Derives rules depth (choice sequences) cs ↔
    ∃ items ∈ sequences, Derives rules depth (.seq items) cs := by
  simp [choice, derives_alt]

@[simp] theorem derives_choice_singleton : Derives rules depth (choice [items]) cs ↔
    Derives rules depth (.seq items) cs := by
  simp [derives_choice]

theorem derives_choice_cons : Derives rules depth (choice (items :: sequences)) cs ↔
    Derives rules depth (.seq items) cs ∨ Derives rules depth (choice sequences) cs := by
  simp [derives_choice]

/-- What one expression derives, the other does with its rules. -/
def Covers (depth : Nat) (rules' : List Rule) (e' : Expr) (rules : List Rule) (e : Expr) : Prop :=
  ∀ cs, Derives rules depth e cs → Derives rules' depth e' cs

namespace Covers

variable {e' : Expr} {es es' : List Expr}

theorem opt (h : Covers depth rules' e' rules e) : Covers depth rules' (.opt e') rules (.opt e) :=
  fun cs hcs => derives_opt.mpr ((derives_opt.mp hcs).imp_right (h cs))

theorem times (h : Covers depth rules' e' rules e) (least : Nat) (greatest : Option Nat) :
    Covers depth rules' (.times e' least greatest) rules (.times e least greatest) := by
  intro cs hcs
  obtain ⟨parts, rfl, hleast, hgreatest, hparts⟩ := derives_times.mp hcs
  exact .times hleast hgreatest fun ds hds => h ds (hparts ds hds)

theorem star (h : Covers depth rules' e' rules e) : Covers depth rules' (.star e') rules (.star e) :=
  fun cs hcs => derives_star.mpr (h.times 0 none cs (derives_star.mp hcs))

theorem plus (h : Covers depth rules' e' rules e) : Covers depth rules' (.plus e') rules (.plus e) :=
  fun cs hcs => derives_plus.mpr (h.times 1 none cs (derives_plus.mp hcs))

theorem group (h : Covers depth rules' e' rules e) :
    Covers depth rules' (.group e') rules (.group e) :=
  fun cs hcs => derives_group.mpr (h cs (derives_group.mp hcs))

theorem seq_append {others : List Expr} (h : Covers depth rules' (.seq items) rules e)
    (hs : Covers depth rules' (.seq others) rules (.seq es)) :
    Covers depth rules' (.seq (items ++ others)) rules (.seq (e :: es)) := by
  intro cs hcs
  obtain ⟨ds, rest, rfl, hds, hrest⟩ := derives_seq_cons.mp hcs
  exact derives_seq_append.mpr ⟨ds, rest, rfl, h ds hds, hs rest hrest⟩

theorem of_seq_append {others : List Expr} (h : Covers depth rules e rules' (.seq items))
    (hs : Covers depth rules (.seq es) rules' (.seq others)) :
    Covers depth rules (.seq (e :: es)) rules' (.seq (items ++ others)) := by
  intro cs hcs
  obtain ⟨ds, rest, rfl, hds, hrest⟩ := derives_seq_append.mp hcs
  exact derives_seq_cons.mpr ⟨ds, rest, rfl, h ds hds, hs rest hrest⟩

end Covers

section

variable {item : Expr}

theorem covers_choice : Covers depth rules' (choice [items]) rules e ↔
    Covers depth rules' (.seq items) rules e := by
  simp [Covers]

theorem covers_item : Covers depth rules' (choice [[item]]) rules e ↔
    Covers depth rules' item rules e := by
  simp [Covers, derives_seq_singleton]

theorem choice_covers : Covers depth rules e rules' (choice [items]) ↔
    Covers depth rules e rules' (.seq items) := by
  simp [Covers]

theorem item_covers : Covers depth rules e rules' (choice [[item]]) ↔
    Covers depth rules e rules' item := by
  simp [Covers, derives_seq_singleton]

end

/-- As it is read an expression derives what it does, with rules that derive at least as much. -/
theorem ReadAs.covers (h : ReadAs lenient e sequences)
    (hrules : ∀ name, Covers depth rules' (.rule name) rules (.rule name)) :
    Covers depth rules' (choice sequences) rules e := by
  induction h with
  | terminal text => exact covers_item.mpr fun cs => by simp
  | chars written => exact covers_item.mpr fun cs => by simp [derives_chars]
  | rule => exact covers_item.mpr (hrules _)
  | nil => exact covers_choice.mpr fun cs => by simp
  | cons _ _ ihead itail =>
    exact covers_choice.mpr ((covers_choice.mp ihead).seq_append (covers_choice.mp itail))
  | empty => exact fun cs hcs => by simp [derives_alt] at hcs
  | last _ ih => exact fun cs hcs => ih cs (by simpa [derives_alt] using hcs)
  | more _ _ ihone ihrest =>
    intro cs hcs
    exact derives_choice_cons.mpr
      ((derives_alt_cons.mp hcs).imp (covers_choice.mp ihone cs) (ihrest cs))
  | group _ ih => exact covers_item.mpr ih.group
  | opt _ ih => exact covers_item.mpr (covers_item.mp ih).opt
  | star _ ih => exact covers_item.mpr (covers_item.mp ih).star
  | plus _ ih => exact covers_item.mpr (covers_item.mp ih).plus
  | times _ least greatest ih => exact covers_item.mpr ((covers_item.mp ih).times least greatest)

/-- As it is read an expression derives no more than it does, unless a choice of nothing is read. -/
theorem ReadAs.covered (h : ReadAs false e sequences)
    (hrules : ∀ name, Covers depth rules (.rule name) rules' (.rule name)) :
    Covers depth rules e rules' (choice sequences) := by
  induction h with
  | terminal text => exact item_covers.mpr fun cs => by simp
  | chars written => exact item_covers.mpr fun cs => by simp [derives_chars]
  | rule => exact item_covers.mpr (hrules _)
  | nil => exact choice_covers.mpr fun cs => by simp
  | cons _ _ ihead itail =>
    exact choice_covers.mpr ((choice_covers.mp ihead).of_seq_append (choice_covers.mp itail))
  | empty may => cases may
  | last _ ih => exact fun cs hcs => by simpa [derives_alt] using ih cs hcs
  | more _ _ ihone ihrest =>
    intro cs hcs
    exact derives_alt_cons.mpr
      ((derives_choice_cons.mp hcs).imp (choice_covers.mp ihone cs) (ihrest cs))
  | group _ ih => exact item_covers.mpr ih.group
  | opt _ ih => exact item_covers.mpr (item_covers.mp ih).opt
  | star _ ih => exact item_covers.mpr (item_covers.mp ih).star
  | plus _ ih => exact item_covers.mpr (item_covers.mp ih).plus
  | times _ least greatest ih => exact item_covers.mpr ((item_covers.mp ih).times least greatest)

/-- Every rule derives what it does, as it is read. -/
theorem covers_of_read (h : List.Forall₂ (Rule.ReadAs lenient) rules rules') (depth : Nat)
    (name : String) : Covers depth rules' (.rule name) rules (.rule name) := by
  induction depth generalizing name with
  | zero => exact fun cs hcs => absurd hcs not_derives_rule
  | succ depth ih =>
    intro cs hcs
    cases hcs with
    | rule mem body =>
      obtain ⟨r', hr', -, hname, sequences, hread, hbody⟩ := Outcome.exists_mem_right h mem
      rw [← hname]
      exact .rule hr' (hbody ▸ hread.covers ih _ body)

theorem covered_of_read (h : List.Forall₂ (Rule.ReadAs false) rules rules') (depth : Nat)
    (name : String) : Covers depth rules (.rule name) rules' (.rule name) := by
  induction depth generalizing name with
  | zero => exact fun cs hcs => absurd hcs not_derives_rule
  | succ depth ih =>
    intro cs hcs
    cases hcs with
    | rule mem body =>
      obtain ⟨r, hr, -, hname, sequences, hread, hbody⟩ := Outcome.exists_mem_left h mem
      rw [hname]
      exact .rule hr (hread.covered ih _ (hbody ▸ body))

theorem read_text (h : List.Forall₂ (Rule.ReadAs lenient) rules rules') :
    read (text rules).toList = some rules' := by
  rw [text, String.toList_ofList, read_lines h]

/-- A text that the rules generate is admitted by the text of the grammar. -/
theorem admits_of_generates (h : List.Forall₂ (Rule.ReadAs lenient) rules rules')
    (hcs : Generates rules cs) : Admits (text rules) cs := by
  obtain ⟨depth, hderives⟩ := hcs
  exact ⟨rules', read_text h, depth, covers_of_read h depth "root" cs hderives⟩

theorem generates_of_admits (h : List.Forall₂ (Rule.ReadAs false) rules rules')
    (hcs : Admits (text rules) cs) : Generates rules cs := by
  obtain ⟨found, hfound, depth, hderives⟩ := hcs
  obtain rfl := Option.some.inj ((read_text h).symm.trans hfound)
  exact ⟨depth, covered_of_read h depth "root" cs hderives⟩

end

end StructuredOutput.Grammar

import Mathlib
import StructuredOutput.Proofs.Document.Validity

/-!
JSON pointers in the fragments of URIs: octets are percent-decoded, split at slashes and unescaped,
and what comes of this is followed through a document. The pointer that is written for a definition
leads there exactly if nothing in the name is changed by that.
-/

namespace StructuredOutput.Document

variable {name key s t : String} {bytes rest : List UInt8} {members : Members}

/-! ### Octets -/

/-- The octets of a text in UTF-8. -/
def octets (s : String) : List UInt8 := s.toList.flatMap String.utf8EncodeChar

theorem octets_append (s t : String) : octets (s ++ t) = octets s ++ octets t := by
  rw [octets, String.toList_append, List.flatMap_append]
  rfl

theorem octets_inj : octets s = octets t ↔ s = t := by
  refine ⟨fun h => ?_, congrArg octets⟩
  have hbytes : s.toList.utf8Encode = t.toList.utf8Encode := congrArg List.toByteArray h
  rwa [String.utf8Encode_toList, String.utf8Encode_toList, String.toByteArray_inj] at hbytes

/-! ### Decoding -/

/-- The value of a hexadecimal digit. -/
def hexValue? (b : UInt8) : Option UInt8 :=
  if 48 ≤ b ∧ b ≤ 57 then some (b - 48)
  else if 65 ≤ b ∧ b ≤ 70 then some (b - 55)
  else if 97 ≤ b ∧ b ≤ 102 then some (b - 87)
  else none

/-- The octet that a percent sign and two hexadecimal digits stand for. -/
def percentValue? (p a b : UInt8) : Option UInt8 :=
  if p = 37 then do return 16 * (← hexValue? a) + (← hexValue? b)
  else none

/-- Octets with all percent signs before two hexadecimal digits decoded. -/
def percentDecoded : List UInt8 → List UInt8
  | [] => []
  | [a] => [a]
  | [a, b] => [a, b]
  | p :: a :: b :: rest =>
    match percentValue? p a b with
    | some x => x :: percentDecoded rest
    | none => p :: percentDecoded (a :: b :: rest)

/-- The octet that a tilde and a digit stand for: a tilde itself or a slash. -/
def tildeValue? (a b : UInt8) : Option UInt8 :=
  if a = 126 ∧ b = 48 then some 126
  else if a = 126 ∧ b = 49 then some 47
  else none

/-- Octets with all tildes before one of the two digits decoded. -/
def tildeDecoded : List UInt8 → List UInt8
  | [] => []
  | [a] => [a]
  | a :: b :: rest =>
    match tildeValue? a b with
    | some x => x :: tildeDecoded rest
    | none => a :: tildeDecoded (b :: rest)

theorem percentDecoded_cons {b : UInt8} (h : b ≠ 37) (rest : List UInt8) :
    percentDecoded (b :: rest) = b :: percentDecoded rest := by
  match rest with
  | [] | [_] => rfl
  | _ :: _ :: _ => rw [percentDecoded, percentValue?, if_neg h]

/-- Octets that are percent-decoded are left as they are or become fewer. -/
theorem percentDecoded_eq_or_length_lt (bytes : List UInt8) :
    percentDecoded bytes = bytes ∨ (percentDecoded bytes).length < bytes.length := by
  fun_induction percentDecoded with
  | case1 | case2 | case3 => exact .inl rfl
  | case4 p a b rest x _ ih =>
    have hle : (percentDecoded rest).length ≤ rest.length := by
      rcases ih with h | h
      · rw [h]
      · exact h.le
    right
    simp only [List.length_cons]
    omega
  | case5 p a b rest _ ih => exact ih.imp (congrArg _) (by simpa using ·)

/-- Octets that are unescaped are left as they are or become fewer. -/
theorem tildeDecoded_eq_or_length_lt (bytes : List UInt8) :
    tildeDecoded bytes = bytes ∨ (tildeDecoded bytes).length < bytes.length := by
  fun_induction tildeDecoded with
  | case1 | case2 => exact .inl rfl
  | case3 a b rest x _ ih =>
    have hle : (tildeDecoded rest).length ≤ rest.length := by
      rcases ih with h | h
      · rw [h]
      · exact h.le
    right
    simp only [List.length_cons]
    omega
  | case4 a b rest _ ih => exact ih.imp (congrArg _) (by simpa using ·)

/-! ### Pointers -/

/-- The tokens of a pointer, if a fragment is one. -/
def tokens? (fragment : String) : Option (List (List UInt8)) :=
  match octets fragment with
  | [] => none
  | hash :: bytes =>
    if hash = 35 then
      match percentDecoded bytes with
      | [] => some []
      | slash :: path => if slash = 47 then some ((path.splitOn 47).map tildeDecoded) else none
    else none

/-- Whether a name can stand in a pointer as it is: nothing is split off or decoded. -/
structure Plain (name : String) : Prop where
  whole : 47 ∉ octets name
  percent : percentDecoded (octets name) = octets name
  tilde : tildeDecoded (octets name) = octets name

instance (name : String) : Decidable (Plain name) :=
  decidable_of_iff (47 ∉ octets name ∧ percentDecoded (octets name) = octets name ∧
      tildeDecoded (octets name) = octets name)
    ⟨fun ⟨whole, percent, tilde⟩ => ⟨whole, percent, tilde⟩,
      fun ⟨whole, percent, tilde⟩ => ⟨whole, percent, tilde⟩⟩

theorem tokens?_root : tokens? "#" = some [] := by decide

theorem tokens?_definition (name : String) : tokens? ("#/$defs/" ++ name) = some
    (octets "$defs" :: ((percentDecoded (octets name)).splitOn 47).map tildeDecoded) := by
  have hprefix : octets "#/$defs/" = [35, 47, 36, 100, 101, 102, 115, 47] := by decide
  have hdefs : octets "$defs" = [36, 100, 101, 102, 115] := by decide
  have hdecoded (bytes : List UInt8) :
      percentDecoded (47 :: 36 :: 100 :: 101 :: 102 :: 115 :: 47 :: bytes) =
        47 :: (octets "$defs" ++ 47 :: percentDecoded bytes) := by
    rw [hdefs]
    simp [percentDecoded_cons]
  have hsplit (bytes : List UInt8) :
      (octets "$defs" ++ 47 :: bytes).splitOn 47 = octets "$defs" :: bytes.splitOn 47 :=
    List.splitOn_append_cons_self_of_not_mem (by decide) bytes
  have htilde : tildeDecoded (octets "$defs") = octets "$defs" := by decide
  rw [tokens?, octets_append, hprefix]
  simp only [List.cons_append, List.nil_append, hdecoded, if_true, hsplit, List.map_cons, htilde]

theorem not_mem_of_splitOn_eq_singleton {b : UInt8} (h : bytes.splitOn b = [rest]) :
    b ∉ bytes := by
  intro hmem
  obtain ⟨before, after, rfl, hbefore⟩ := List.eq_append_cons_of_mem hmem
  rw [List.splitOn_append_cons_self_of_not_mem hbefore] at h
  exact List.splitOn_ne_nil b after (List.cons.inj h).2

/-- The pointer to a definition consists of the name exactly if the name is plain. -/
theorem tokens?_definition_iff :
    tokens? ("#/$defs/" ++ name) = some [octets "$defs", octets name] ↔ Plain name := by
  rw [tokens?_definition, Option.some.injEq, List.cons.injEq, and_iff_right rfl]
  constructor
  · intro h
    obtain ⟨whole, hwhole, hname⟩ : ∃ whole, (percentDecoded (octets name)).splitOn 47 = [whole] ∧
        tildeDecoded whole = octets name := by
      simpa [List.map_eq_cons_iff] using h
    obtain rfl : whole = percentDecoded (octets name) := by
      have hjoin : [47].intercalate ((percentDecoded (octets name)).splitOn 47) =
          percentDecoded (octets name) := List.intercalate_splitOn 47
      rw [hwhole] at hjoin
      simpa using hjoin
    -- The name comes back only if neither decoding takes anything away.
    have hshorter := percentDecoded_eq_or_length_lt (octets name)
    have hpercent : octets name = percentDecoded (octets name) := by
      refine (hname ▸ tildeDecoded_eq_or_length_lt _).resolve_right fun hlt => ?_
      rcases hshorter with heq | hless
      · exact absurd (heq ▸ hlt) (Nat.lt_irrefl _)
      · exact Nat.lt_asymm hlt hless
    rw [← hpercent] at hwhole hname
    exact ⟨not_mem_of_splitOn_eq_singleton hwhole, hpercent.symm, hname⟩
  · rintro ⟨whole, percent, tilde⟩
    rw [percent, List.splitOn_eq_singleton whole, List.map_singleton, tilde]

example : Plain "50% off~" ∧ ¬ Plain "a/b" ∧ ¬ Plain "a~0b" ∧ ¬ Plain "100%25" := by decide

/-! ### Following a pointer -/

/-- The member of an object with the name that a token is. -/
def member? (members : Members) (token : List UInt8) : Option Json :=
  (members.find? fun e => octets e.1 == token).map (·.2)

/-- The position in an array that a token is: a number without leading zeros. -/
def index? (token : List UInt8) : Option Nat :=
  if token = [48] then some 0
  else if token ≠ [] ∧ token.head? ≠ some 48 ∧ ∀ b ∈ token, 48 ≤ b ∧ b ≤ 57 then
    some (token.foldl (fun n b => 10 * n + (b.toNat - 48)) 0)
  else none

/-- What tokens lead to in JSON data. -/
def follow? : Json → List (List UInt8) → Option Json
  | j, [] => some j
  | .object members, token :: path => (member? members token).bind fun j => follow? j path
  | .array items, token :: path =>
    ((index? token).bind fun i => items[i]?).bind fun j => follow? j path
  | _, _ :: _ => none

/-- What a pointer in a fragment refers to in a document. -/
def resolve? (document : Members) (fragment : String) : Option Json :=
  (tokens? fragment).bind fun path => follow? (.object document) path

theorem member?_octets (members : Members) (key : String) :
    member? members (octets key) = Entries.get? members key := by
  induction members with
  | nil => rfl
  | cons e members ih =>
    obtain ⟨m, j⟩ := e
    by_cases hm : m = key
    · subst hm
      simp [member?, Entries.get?_cons_self]
    · have hne : (octets m == octets key) = false := by simpa [octets_inj] using hm
      rw [Entries.get?_cons_of_ne _ _ hm, ← ih, member?, List.find?_cons_of_neg (by simp [hne])]
      rfl

end StructuredOutput.Document

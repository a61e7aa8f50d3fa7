/-!
Named entries in order of first insertion: a later entry of the same name replaces the value and
keeps the place.
-/

namespace StructuredOutput.Entries

variable {α β : Type}

/-- Sets the value of a name, in place if it has one and else at the end. -/
def put [BEq α] (entries : List (α × β)) (name : α) (value : β) : List (α × β) :=
  match entries with
  | [] => [(name, value)]
  | (n, v) :: rest => if n == name then (n, value) :: rest else (n, v) :: put rest name value

/-- Sets the values of several names one after the other. -/
def putAll [BEq α] (entries more : List (α × β)) : List (α × β) :=
  more.foldl (fun acc e => put acc e.1 e.2) entries

/-- The entries that remain of a list in which names may recur. -/
def ofList [BEq α] (entries : List (α × β)) : List (α × β) := putAll [] entries

/-- The value of a name. -/
def get? [BEq α] (entries : List (α × β)) (name : α) : Option β :=
  match entries with
  | [] => none
  | (n, v) :: rest => if n == name then some v else get? rest name

/-- Drops a name. -/
def erase [BEq α] (entries : List (α × β)) (name : α) : List (α × β) :=
  entries.filter fun e => !(e.1 == name)

/-- The names in order. -/
def names (entries : List (α × β)) : List α := entries.map (·.1)

/-- The distinct members of a list, each at its first place. -/
def distinct [BEq α] (xs : List α) : List α :=
  xs.foldl (fun seen x => if seen.contains x then seen else seen ++ [x]) []

theorem get?_put_self [BEq α] [LawfulBEq α] (entries : List (α × β)) (name : α) (value : β) :
    get? (put entries name value) name = some value := by
  induction entries with
  | nil => simp [put, get?]
  | cons e rest ih =>
    obtain ⟨n, v⟩ := e
    by_cases h : n = name <;> simp [put, get?, h, ih]

theorem get?_put_of_ne [BEq α] [LawfulBEq α] (entries : List (α × β)) {name other : α}
    (value : β) (hne : other ≠ name) :
    get? (put entries name value) other = get? entries other := by
  induction entries with
  | nil => simp [put, get?, Ne.symm hne]
  | cons e rest ih =>
    obtain ⟨n, v⟩ := e
    by_cases h : n = name
    · subst h
      simp [put, get?, Ne.symm hne]
    · have hn : (n == name) = false := by simpa using h
      simp only [put, hn, Bool.false_eq_true, ↓reduceIte, get?, ih]

end StructuredOutput.Entries

/-!
# Ordered entries

An ordered map from names: a list of pairs in order of first insertion. Storing under a name that
is there already keeps its place and replaces its value, so reading a list of pairs from the left
lets the last pair of a name win at the place of the first.
-/

namespace Shortlist

/-- Named values in order. -/
abbrev Entries (α : Type) := List (String × α)

namespace Entries

variable {α β : Type}

def names (entries : Entries α) : List String := entries.map (·.1)

def get? (entries : Entries α) (name : String) : Option α :=
  (entries.find? (·.1 == name)).map (·.2)

def has (entries : Entries α) (name : String) : Bool := entries.any (·.1 == name)

def insert (entries : Entries α) (name : String) (value : α) : Entries α :=
  match entries with
  | [] => [(name, value)]
  | entry :: rest =>
    if entry.1 == name then (name, value) :: rest else entry :: insert rest name value

def erase (entries : Entries α) (name : String) : Entries α :=
  List.filter (fun entry => entry.1 != name) entries

def insertAll (entries : Entries α) (pairs : List (String × α)) : Entries α :=
  pairs.foldl (fun acc pair => acc.insert pair.1 pair.2) entries

/-- The entries that a list of pairs spells. -/
def ofList (pairs : List (String × α)) : Entries α := insertAll [] pairs

def mapValues (f : String → α → β) (entries : Entries α) : Entries β :=
  entries.map fun entry => (entry.1, f entry.1 entry.2)

@[simp] theorem get?_nil (name : String) : get? ([] : Entries α) name = none := rfl

theorem get?_cons (entry : String × α) (rest : Entries α) (name : String) :
    get? (entry :: rest) name = if entry.1 = name then some entry.2 else get? rest name := by
  by_cases h : entry.1 = name <;> simp [get?, h]

theorem get?_insert (entries : Entries α) (name other : String) (value : α) :
    (entries.insert name value).get? other =
      if name = other then some value else entries.get? other := by
  induction entries with
  | nil => simp [insert, get?_cons]
  | cons entry rest ih =>
    by_cases h : entry.1 = name
    · by_cases ho : name = other <;> simp [insert, get?_cons, h, ho]
    · simp only [insert, beq_iff_eq, h, if_false, get?_cons, ih]
      by_cases ho : entry.1 = other
      · have : name ≠ other := fun hn => h (ho.trans hn.symm)
        simp [ho, this]
      · simp [ho]

theorem get?_erase (entries : Entries α) (name other : String) :
    (entries.erase name).get? other = if name = other then none else entries.get? other := by
  induction entries with
  | nil => simp [erase]
  | cons entry rest ih =>
    unfold erase at ih ⊢
    by_cases h : entry.1 = name
    · rw [List.filter_cons_of_neg (by simp [h]), ih]
      by_cases ho : name = other <;> simp [get?_cons, h, ho]
    · rw [List.filter_cons_of_pos (by simp [h]), get?_cons, get?_cons, ih]
      by_cases ho : entry.1 = other
      · have : name ≠ other := fun hn => h (ho.trans hn.symm)
        simp [ho, this]
      · simp [ho]

theorem names_insert (entries : Entries α) (name : String) (value : α) :
    (entries.insert name value).names =
      if name ∈ entries.names then entries.names else entries.names ++ [name] := by
  induction entries with
  | nil => simp [insert, names]
  | cons entry rest ih =>
    by_cases h : entry.1 = name
    · simp [insert, names, h]
    · have hne : name ≠ entry.1 := fun hn => h hn.symm
      simp only [insert, names, beq_iff_eq, h, if_false, List.map_cons, List.mem_cons, hne,
        false_or] at ih ⊢
      rw [ih]
      split <;> rename_i hmem <;> simp [hmem]

end Entries

end Shortlist

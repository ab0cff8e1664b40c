/-!
# Maps and sets of names

A map is the list of its entries in ascending order of their names, a set the list of its members
in ascending order, so that equal maps and sets are equal lists.
-/

set_option autoImplicit false
set_option relaxedAutoImplicit false

namespace Pipeline

/-- Entries in ascending order of their names, one for each name. -/
abbrev NameMap (α : Type) := List (String × α)

namespace NameMap

variable {α : Type}

/-- The entry of a name. -/
def get? (name : String) : NameMap α → Option α
  | [] => none
  | (n, a) :: rest => if n = name then some a else get? name rest

/-- True when the name has an entry. -/
def contains (name : String) (m : NameMap α) : Bool := (m.get? name).isSome

/-- Enters a value, in place of the entry the name may have. -/
def insert (name : String) (a : α) : NameMap α → NameMap α
  | [] => [(name, a)]
  | (n, b) :: rest =>
    if n = name then (name, a) :: rest
    else if name < n then (name, a) :: (n, b) :: rest
    else (n, b) :: insert name a rest

/-- Enters pairs from left to right; the last one of a name stays. -/
def ofList (pairs : List (String × α)) : NameMap α :=
  pairs.foldl (fun m p => m.insert p.1 p.2) []

/-- The names. -/
def names (m : NameMap α) : List String := m.map (·.1)

/-- The values in the order of their names. -/
def values (m : NameMap α) : List α := m.map (·.2)

end NameMap

/-- Names in ascending order, each once. -/
abbrev NameSet := List String

namespace NameSet

/-- Adds a name. -/
def insert (name : String) : NameSet → NameSet
  | [] => [name]
  | n :: rest =>
    if n = name then n :: rest
    else if name < n then name :: n :: rest
    else n :: insert name rest

/-- The names of a list. -/
def ofList (names : List String) : NameSet :=
  names.foldl (fun s n => insert n s) []

end NameSet

end Pipeline

import Pipeline.Json.Basic

/-!
# Data that is written out

What the program answers is a tree of scalars, lists, records and named variants. Each output
format has its own way to write the trees.
-/

set_option autoImplicit false
set_option relaxedAutoImplicit false

namespace Pipeline

/-- A tree of data. -/
inductive Datum where
  | null
  | bool (b : Bool)
  | int (n : Int)
  | float (x : Float)
  | str (s : String)
  | list (items : List Datum)
  | record (entries : List (String × Datum))
  /-- One of several alternatives, with what it carries. -/
  | variant (name : String) (payload : Datum)
deriving Repr, Inhabited

namespace Datum

mutual

/-- The tree in JSON, where a variant is an object of one entry. -/
def toJson : Datum → Json
  | null => .null
  | bool b => .bool b
  | int n => .int n
  | float x => .float x
  | str s => .str s
  | list items => .arr (itemsJson items)
  | record entries => .obj (entriesJson entries)
  | variant name payload => .obj [(name, toJson payload)]

/-- The items in JSON. -/
def itemsJson : List Datum → List Json
  | [] => []
  | d :: rest => toJson d :: itemsJson rest

/-- The entries in JSON. -/
def entriesJson : List (String × Datum) → List (String × Json)
  | [] => []
  | (key, d) :: rest => (key, toJson d) :: entriesJson rest

end

end Datum
end Pipeline

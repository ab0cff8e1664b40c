import Pipeline.Data.NameMap

/-!
# Binding graphs

The bindings of a document in the order in which they were written, each with the bindings it
depends on in the order in which they were recorded.
-/

set_option autoImplicit false
set_option relaxedAutoImplicit false

namespace Pipeline

/-- Bindings with their dependencies, in document order. -/
structure BindingGraph where
  entries : List (String × List String)
deriving DecidableEq, Repr, Inhabited

namespace BindingGraph

/-- The graph without bindings. -/
def empty : BindingGraph := ⟨[]⟩

/-- The bindings in document order. -/
def names (g : BindingGraph) : List String := g.entries.map (·.1)

/-- True for a binding of the graph. -/
def contains (g : BindingGraph) (name : String) : Bool := g.names.contains name

/-- The number of bindings. -/
def size (g : BindingGraph) : Nat := g.entries.length

/-- The place of a binding in document order. -/
def position? (g : BindingGraph) (name : String) : Option Nat := g.names.idxOf? name

/-- What a binding depends on, in the order in which it was recorded. -/
def dependenciesOf (g : BindingGraph) (name : String) : List String :=
  match g.entries.find? (·.1 == name) with
  | some (_, deps) => deps
  | none => []

/-- What depends on a binding, in document order. -/
def dependentsOf (g : BindingGraph) (name : String) : List String :=
  (g.entries.filter fun e => e.2.contains name).map (·.1)

/-- Adds a binding; one that is there keeps its place. -/
def addBinding (g : BindingGraph) (name : String) : BindingGraph :=
  if g.contains name then g else ⟨g.entries ++ [(name, [])]⟩

/-- Records that `dependent` needs `dependency`, once; only the dependent is added. -/
def addDependency (g : BindingGraph) (dependent dependency : String) : BindingGraph :=
  ⟨(g.addBinding dependent).entries.map fun e =>
    if e.1 = dependent ∧ ¬ dependency ∈ e.2 then (e.1, e.2 ++ [dependency]) else e⟩

/-- All bindings of a list first, then all their dependencies. -/
def ofList (entries : List (String × List String)) : BindingGraph :=
  let all := entries.foldl (fun g e => g.addBinding e.1) empty
  entries.foldl (fun g e => e.2.foldl (fun g d => g.addDependency e.1 d) g) all

end BindingGraph

end Pipeline

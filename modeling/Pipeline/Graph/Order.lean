import Pipeline.Graph.Basic

/-!
# Construction order

Every binding comes behind its dependencies; among those that may come next, the one written first
does. Dependencies outside the graph do not count.
-/

set_option autoImplicit false
set_option relaxedAutoImplicit false

namespace Pipeline.BindingGraph

/-- True when everything a binding depends on has been placed. -/
def ready (g : BindingGraph) (placed : List String) (name : String) : Bool :=
  (g.dependenciesOf name).all fun d => !g.contains d || placed.contains d

/-- The first binding in document order that is ready and not yet placed. -/
def next? (g : BindingGraph) (placed : List String) : Option String :=
  g.names.find? fun name => !placed.contains name && g.ready placed name

/-- Places up to a number of further bindings. -/
def place (g : BindingGraph) : Nat → List String → List String
  | 0, placed => placed
  | n + 1, placed =>
    match g.next? placed with
    | none => placed
    | some name => place g n (placed ++ [name])

/-- The bindings in construction order, or those that cannot be placed. -/
def order (g : BindingGraph) : Except (List String) (List String) :=
  let placed := g.place g.size []
  if placed.length = g.size then .ok placed
  else .error (g.names.filter fun name => !placed.contains name)

end Pipeline.BindingGraph

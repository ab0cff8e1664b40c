import Pipeline.Fault.Diagnostic
import Pipeline.Graph.Basic

/-!
# Cycles of binding graphs

A depth first search along the dependencies, from each binding in document order, notes a cycle
whenever it meets a binding of its current path. Cycles with the same members are reported once,
each beginning at its member written first.
-/

set_option autoImplicit false
set_option relaxedAutoImplicit false

namespace Pipeline.BindingGraph

/-- What a search has met: the names visited and the cycles closed, latest first. -/
structure Search where
  visited : List String
  found : List (List String)

/-- Visits a name, and everything reachable from it that was not visited before. The names left
bound the fuel; `path` leads from the start of the search to the name. -/
def visit (g : BindingGraph) : Nat → List String → String → Search → Search
  | 0, _, _, s => s
  | fuel + 1, path, name, s =>
    let path := path ++ [name]
    (g.dependenciesOf name).foldl
      (fun s d =>
        if !s.visited.contains d then visit g fuel path d s
        else if path.contains d then
          { s with found := path.dropWhile (· != d) :: s.found }
        else s)
      { s with visited := name :: s.visited }

/-- The number of names in the graph, dependencies included; no path is longer. -/
def nameCount (g : BindingGraph) : Nat :=
  g.entries.foldl (fun n e => n + e.2.length + 1) 0

/-- The cycles in the order in which the search closes them. -/
def closedCycles (g : BindingGraph) : List (List String) :=
  let s := g.names.foldl
    (fun s name => if s.visited.contains name then s else g.visit (g.nameCount + 1) [] name s)
    ⟨[], []⟩
  s.found.reverse

/-- Keeps the first of the lists with the same members. -/
def distinctMembers : List (List String) → List NameSet → List (List String)
  | [], _ => []
  | c :: rest, seen =>
    let members := NameSet.ofList c
    if seen.contains members then distinctMembers rest seen
    else c :: distinctMembers rest (members :: seen)

/-- The place of the member written first. -/
def earliest (g : BindingGraph) (cycle : List String) : Nat :=
  let place (name : String) : Nat := (g.position? name).getD g.size
  let least := (cycle.map place).foldl min g.size
  cycle.findIdx fun name => place name = least

/-- Lets a cycle begin at its member written first. -/
def rotate (g : BindingGraph) (cycle : List String) : List String :=
  let i := g.earliest cycle
  cycle.drop i ++ cycle.take i

/-- All cycles the search closes, ordered by the place of their first members. -/
def cycles (g : BindingGraph) : List (List String) :=
  let place (cycle : List String) : Nat := (cycle.head?.bind g.position?).getD g.size
  ((distinctMembers g.closedCycles []).map g.rotate).mergeSort fun a b => place a ≤ place b

/-- The first cycle. -/
def cycle? (g : BindingGraph) : Option (List String) := g.cycles.head?

/-- The dependencies that are no bindings of the graph. -/
def unresolved (g : BindingGraph) : List String :=
  g.names.flatMap fun name => (g.dependenciesOf name).filter fun d => !g.contains d

/-- The faults of a graph: every dependency that is no binding, or, if there is none, every
cycle. -/
def faults (g : BindingGraph) : List ErrorKind :=
  match g.unresolved with
  | [] => g.cycles.map .cyclicBinding
  | names => names.map .unresolvedReference

end Pipeline.BindingGraph

import Pipeline.Log.Event
import Pipeline.Provider.Basic
import Pipeline.Store.Imports

/-!
# Collecting documents

The documents of some modules are collected together with those that their imports lead to,
breadth first. A module that is requested again is passed over, so that imports may go in circles.
-/

set_option autoImplicit false
set_option relaxedAutoImplicit false

namespace Pipeline.Collect

/-- The longest path of an available module among the beginnings of segments, which are given with
the last one first. -/
def nearest? (available : List String) : List String → Option String
  | [] => none
  | last :: before =>
    let path := Path.ofSegments (last :: before).reverse
    if available.contains path then some path else nearest? available before

/-- The available modules below a path. -/
def below (available : List String) (path : String) : List String :=
  available.filter (Text.startsWith (Path.child path ""))

/-- The modules that an import needs. A module of the very path goes first, then all modules below
it, then the module that holds what the path names. -/
def modulesForImport (available : List String) (written : String) : Option (List String) :=
  let path := (Import.ofText written).path
  let segments := Path.segments path
  if segments.head? = some preludeModule then some []
  else if available.contains path then some [path]
  else if !(below available path).isEmpty then some (below available path)
  else (nearest? available segments.reverse).map ([·])

/-- A module and the place that requests it. -/
abbrev Request := String × Location

/-- What an import requests at its place, or the fault that it names nothing. -/
def requestOf (available : List String) (place : Location) (written : String) :
    List Request × List Diagnostic :=
  match modulesForImport available written with
  | some modules => (modules.map (·, place), [])
  | none => ([], [⟨place, .unknownImport written⟩])

/-- What the imports of a document request, and the faults of those that name nothing. -/
def requestsOf (available : List String) (place : Location) :
    Nat → List String → List Request × List Diagnostic
  | _, [] => ([], [])
  | i, written :: rest =>
    let here := requestOf available (place.atIndex i) written
    let later := requestsOf available place (i + 1) rest
    (here.1 ++ later.1, here.2 ++ later.2)

/-- Serves requests in order, at most so many of them, apart from those of modules that were
requested before. -/
def serve (provider : Provider) (available : List String) :
    Nat → List String → List Request → Logged (List Document × List Diagnostic)
  | 0, _, _ => return ([], [])
  | bound + 1, requested, queue =>
    match queue.dropWhile fun request => requested.contains request.1 with
    | [] => return ([], [])
    | (module, place) :: rest =>
      match provider.fetch module with
      | none => do
        let (documents, faults) ← serve provider available bound (module :: requested) rest
        return (documents, ⟨place, .unknownImport module⟩ :: faults)
      | some (.error fault) => do
        let (documents, faults) ← serve provider available bound (module :: requested) rest
        return (documents, fault.toDiagnostic module :: faults)
      | some (.ok d) => do
        Logged.report (.fetched d.module d.origin provider.name)
        let uses := (d.location.child "permute").child "use"
        let (requests, unknown) := requestsOf available uses 0 d.uses
        let (documents, faults) ←
          serve provider available bound (module :: requested) (rest ++ requests)
        return (d :: documents, unknown ++ faults)

/-- Requests for the modules to start from, and the faults of those that are not available. -/
def start (available : List String) (place : Location) (entries : List String) :
    List Request × List Diagnostic :=
  ((entries.filter fun entry => available.contains entry).map (·, place),
    (entries.filter fun entry => !available.contains entry).map
      fun entry => ⟨place, .unknownImport entry⟩)

end Collect

/-- The documents of the entries and of all modules that their imports reach, in the order of the
first requests, or all the faults on the way. -/
def Provider.collect (provider : Provider) (entries : List String) :
    Logged (Except (List Diagnostic) (List Document)) :=
  match provider.modules with
  | .error fault => return .error [fault.toDiagnostic provider.name]
  | .ok available => do
    let available := NameSet.ofList available
    let (requests, unknown) :=
      Collect.start available (Location.ofDocument provider.name) entries
    let (documents, faults) ← Collect.serve provider available available.length [] requests
    let faults := unknown ++ faults
    if faults.isEmpty then return .ok documents else return .error faults

end Pipeline

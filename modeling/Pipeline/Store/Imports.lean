import Pipeline.Store.Names

/-!
# What a module sees

A module sees the names of the prelude, its own names, and what its document imports. A later
binding of the same strength that means something else is a fault.
-/

set_option autoImplicit false
set_option relaxedAutoImplicit false

namespace Pipeline

/-- An import as written. -/
structure Import where
  /-- The path behind which everything is meant, or the path of one thing. -/
  path : String
  /-- True when everything in a module is meant. -/
  isGlob : Bool
  /-- The name given to the thing imported. -/
  givenName : Option String
deriving DecidableEq, Repr

namespace Import

/-- Splits a text at the first occurrence of a separator. -/
def splitOnce (sep s : String) : String × Option String :=
  match Text.split sep s with
  | [] => ("", none)
  | [one] => (one, none)
  | first :: rest => (first, some (Text.join sep rest))

/-- Reads an import. -/
def ofText (written : String) : Import :=
  let (path, given) := splitOnce " as " written
  let path := Text.trim path
  match Text.stripEnd? "::*" path with
  | some module => ⟨module, true, given.map Text.trim⟩
  | none => ⟨path, false, given.map Text.trim⟩

end Import

/-- A scope, and the fault that kept it from becoming another one. -/
abbrev Bound? := ModuleScope × Option ErrorKind

namespace ModuleScope

/-- Binds the symbol and the extension of a path under a name, as far as there are such. -/
def bindPath (scope : ModuleScope) (index : SymbolIndex) (name path : String)
    (strength : Strength) : Bound? :=
  let named : Except String ModuleScope :=
    match index.symbol? path with
    | some symbol => scope.bind name symbol strength
    | none => .ok scope
  match named with
  | .error _ => (scope, some (duplicate name .type))
  | .ok scope =>
    if index.extensions.contains path then
      match scope.bindExtension name path with
      | .error _ => (scope, some (duplicate name .extension))
      | .ok scope => (scope, none)
    else (scope, none)

/-- Binds all members of a module, up to a fault. -/
def bindMembers (index : SymbolIndex) (module : String) (strength : Strength) :
    ModuleScope → List String → Bound?
  | scope, [] => (scope, none)
  | scope, name :: rest =>
    match scope.bindPath index name (Path.child module name) strength with
    | (scope, none) => bindMembers index module strength scope rest
    | (scope, some fault) => (scope, some fault)

/-- Binds what an import brings in. -/
def bindImport (scope : ModuleScope) (index : SymbolIndex) (written : String) : Bound? :=
  let i := Import.ofText written
  if i.isGlob then
    if i.givenName.isSome then (scope, some (.invalidDeclaration (.globRenamed written)))
    else
      match index.modules.get? i.path with
      | none => (scope, some (.unknownImport written))
      | some members => scope.bindMembers index i.path .glob members
  else if (index.symbol? i.path).isSome || index.extensions.contains i.path then
    scope.bindPath index (i.givenName.getD (Path.last i.path)) i.path .explicit
  else (scope, some (.unknownImport written))

/-- Binds the imports of a document, which stand at a place, from the one at a position on. -/
def bindImports (index : SymbolIndex) (place : Location) :
    ModuleScope → Nat → List String → ModuleScope × List Diagnostic
  | scope, _, [] => (scope, [])
  | scope, i, written :: rest =>
    let bound := scope.bindImport index written
    let (scope, faults) := bindImports index place bound.1 (i + 1) rest
    (scope, (bound.2.map fun kind => ⟨place.atIndex i, kind⟩).toList ++ faults)

/-- Binds the names of the prelude. -/
def bindPrelude (scope : ModuleScope) (index : SymbolIndex) : ModuleScope :=
  if scope.module = preludeModule then scope
  else
    (index.members preludeModule).foldl
      (fun scope name =>
        match index.symbol? (Path.child preludeModule name) with
        | some symbol =>
          match scope.bind name symbol .prelude with
          | .ok scope => scope
          | .error _ => scope
        | none => scope)
      scope

/-- Binds a name of the module itself to the symbol of its path, if there is one. -/
def bindOwnSymbol (scope : ModuleScope) (index : SymbolIndex) (place : Location)
    (name path : String) : ModuleScope × List Diagnostic :=
  match index.symbol? path with
  | some symbol =>
    match scope.bind name symbol .explicit with
    | .ok scope => (scope, [])
    | .error _ => (scope, [⟨place, duplicate name .type⟩])
  | none => (scope, [])

/-- Brings the extension of a path of the module itself into scope, if there is one. -/
def bindOwnExtension (scope : ModuleScope) (index : SymbolIndex) (place : Location)
    (name path : String) : ModuleScope × List Diagnostic :=
  if index.extensions.contains path then
    match scope.bindExtension name path with
    | .ok scope => (scope, [])
    | .error _ => (scope, [⟨place, duplicate name .extension⟩])
  else (scope, [])

/-- Binds the names of the module itself; each of them may fail on its own. -/
def bindOwn (index : SymbolIndex) (place : Location) :
    ModuleScope → List String → ModuleScope × List Diagnostic
  | scope, [] => (scope, [])
  | scope, name :: rest =>
    let path := Path.child scope.module name
    let (scope, first) := scope.bindOwnSymbol index place name path
    let (scope, second) := scope.bindOwnExtension index place name path
    let (scope, faults) := bindOwn index place scope rest
    (scope, first ++ second ++ faults)

/-- Binds the name of the component that a document declares. -/
def bindComponent (scope : ModuleScope) (d : Document) : ModuleScope × List Diagnostic :=
  if d.isPlain then (scope, [])
  else
    match scope.bind d.name ⟨.type, d.module⟩ .explicit with
    | .ok scope => (scope, [])
    | .error _ => (scope, [⟨d.location.child "name", duplicate d.name .type⟩])

/-- The names that the module of a document sees. -/
def ofDocument (index : SymbolIndex) (d : Document) : ModuleScope × List Diagnostic :=
  let scope := (ModuleScope.empty d.module d.origin).bindPrelude index
  let (scope, own) := scope.bindOwn index d.location (index.members d.module)
  let (scope, component) := scope.bindComponent d
  let place := (d.location.child "permute").child "use"
  let (scope, imports) := scope.bindImports index place 0 d.uses
  (scope, own ++ component ++ imports)

end ModuleScope
end Pipeline

import Pipeline.Data.NameMap
import Pipeline.Text.Path

/-!
# Names inside a module

A name may be bound several times: by the prelude, by a glob import, or explicitly. The strongest
binding counts, and of equally strong ones the first. Two different symbols bound by globs make
the name ambiguous; two bound explicitly are a conflict.
-/

set_option autoImplicit false
set_option relaxedAutoImplicit false

namespace Pipeline

/-- What a path names. -/
inductive SymbolKind where
  | type
  | trait
  | module
deriving DecidableEq, Repr

/-- A declared path. -/
structure Symbol where
  kind : SymbolKind
  path : String
deriving DecidableEq, Repr

/-- Every declared path. -/
structure SymbolIndex where
  symbols : NameMap SymbolKind
  extensions : NameSet
  /-- The modules, each with the names of its declarations, extensions and submodules. -/
  modules : NameMap NameSet
deriving Repr, Inhabited

namespace SymbolIndex

/-- What a path names; a declaration hides a module of the same path. -/
def symbol? (index : SymbolIndex) (path : String) : Option Symbol :=
  match index.symbols.get? path with
  | some kind => some ⟨kind, path⟩
  | none => if index.modules.contains path then some ⟨.module, path⟩ else none

/-- The names of the members of a module. -/
def members (index : SymbolIndex) (module : String) : NameSet :=
  (index.modules.get? module).getD []

/-- Adds a name to the members of a module. -/
def addMember (index : SymbolIndex) (module name : String) : SymbolIndex :=
  { index with
    modules := index.modules.insert module (NameSet.insert name (index.members module)) }

end SymbolIndex

/-- How strongly a name is bound. -/
inductive Strength where
  | prelude
  | glob
  | explicit
deriving DecidableEq, Repr

/-- The order of strengths. -/
def Strength.rank : Strength → Nat
  | prelude => 0
  | glob => 1
  | explicit => 2

/-- What a name stands for. -/
structure NameEntry where
  symbol : Symbol
  strength : Strength
  /-- The paths between which globs leave the name undecided; empty when it is decided. -/
  rivals : NameSet
deriving DecidableEq, Repr

/-- The names visible inside one module. -/
structure ModuleScope where
  module : String
  document : String
  names : NameMap NameEntry
  /-- The extensions in scope by their short names. -/
  extensions : NameMap String
deriving Repr, Inhabited

namespace ModuleScope

/-- A scope without names. -/
def empty (module document : String) : ModuleScope := ⟨module, document, [], []⟩

/-- The entry after one more binding, or the path it conflicts with. -/
def NameEntry.rebind (entry : NameEntry) (symbol : Symbol) (strength : Strength) :
    Except String NameEntry :=
  if entry.strength.rank < strength.rank then .ok ⟨symbol, strength, []⟩
  else if strength.rank < entry.strength.rank then .ok entry
  else if entry.symbol = symbol then .ok entry
  else if strength = .glob then
    .ok { entry with
      rivals := NameSet.insert symbol.path (NameSet.insert entry.symbol.path entry.rivals) }
  else .error entry.symbol.path

/-- Binds a name, or tells the path it conflicts with. -/
def bind (scope : ModuleScope) (name : String) (symbol : Symbol) (strength : Strength) :
    Except String ModuleScope :=
  match scope.names.get? name with
  | none => .ok { scope with names := scope.names.insert name ⟨symbol, strength, []⟩ }
  | some entry =>
    match NameEntry.rebind entry symbol strength with
    | .ok entry => .ok { scope with names := scope.names.insert name entry }
    | .error path => .error path

/-- Brings an extension into scope by its short name, or tells the path it conflicts with. -/
def bindExtension (scope : ModuleScope) (name path : String) : Except String ModuleScope :=
  match scope.extensions.get? name with
  | some other =>
    if other = path then .ok scope else .error other
  | none => .ok { scope with extensions := scope.extensions.insert name path }

/-- What a name was bound to. -/
def lookup? (scope : ModuleScope) (name : String) : Option Symbol :=
  (scope.names.get? name).map (·.symbol)

/-- The paths of the extensions in scope. -/
def visibleExtensions (scope : ModuleScope) : NameSet := NameSet.ofList scope.extensions.values

end ModuleScope

end Pipeline

import Pipeline.Fault.Diagnostic
import Pipeline.Scope.Basic

/-!
# Resolving written names

Written paths become symbols, and the names in written types become paths of declarations or
generic parameters.
-/

set_option autoImplicit false
set_option relaxedAutoImplicit false

namespace Pipeline

/-- Why a written name stands for nothing. -/
inductive ResolveError where
  | unresolved (name : String)
  | ambiguous (name : String) (paths : List String)
  | notAType (name : String)
  | notATrait (name : String)
deriving DecidableEq, Repr

namespace ResolveError

/-- The fault in words. -/
def message : ResolveError → String
  | unresolved name => "unresolved name '" ++ name ++ "'"
  | ambiguous name paths =>
    "'" ++ name ++ "' is imported by more than one glob: " ++ Text.join ", " paths
  | notAType name => "'" ++ name ++ "' is not a type"
  | notATrait name => "'" ++ name ++ "' is not a trait"

/-- The fault of a document that this is. -/
def toKind : ResolveError → ErrorKind
  | unresolved name => .unresolvedReference name
  | ambiguous name paths => .ambiguous ("name '" ++ name ++ "'") paths true
  | notAType name => .invalidDeclaration (.notAType name)
  | notATrait name => .invalidDeclaration (.notATrait name)

end ResolveError

namespace ModuleScope

/-- The full path of a path whose first segment names a module in this scope. -/
def expand? (scope : ModuleScope) (first : String) (more : List String) : Option String :=
  match scope.lookup? first with
  | some ⟨.module, path⟩ => some (Path.child path (Path.ofSegments more))
  | _ => none

/-- What a written path names. -/
def resolvePath (scope : ModuleScope) (written : String) (index : SymbolIndex) :
    Except ResolveError Symbol :=
  match Path.segments written with
  | first :: second :: rest =>
    match (scope.expand? first (second :: rest)).bind index.symbol? with
    | some symbol => .ok symbol
    | none =>
      match index.symbol? written with
      | some symbol => .ok symbol
      | none => .error (.unresolved written)
  | _ =>
    match scope.names.get? written with
    | none => .error (.unresolved written)
    | some entry =>
      if entry.rivals.isEmpty then .ok entry.symbol else .error (.ambiguous written entry.rivals)

/-- The path of the extension that a written path names. -/
def resolveExtension? (scope : ModuleScope) (written : String) (index : SymbolIndex) :
    Option String :=
  match scope.extensions.get? written with
  | some path => some path
  | none =>
    match Path.segments written with
    | first :: second :: rest =>
      match (scope.expand? first (second :: rest)).filter index.extensions.contains with
      | some full => some full
      | none => if index.extensions.contains written then some written else none
    | _ => none

/-- The first segment of a path and the rest, if it has more than one. -/
def splitFirst? (path : String) : Option (String × List String) :=
  match Path.segments path with
  | first :: second :: rest => some (first, second :: rest)
  | _ => none

/-- The parameter, or the associated type of a parameter, that a written path stands for. -/
def parameter? (path : String) (args : List Ty) (generics : List String) : Option Ty :=
  if args.isEmpty && generics.contains path then some (.param path)
  else
    match splitFirst? path with
    | some (head, [name]) =>
      if generics.contains head then some (.projection (.param head) name) else none
    | _ => none

mutual

/-- Puts paths and parameters for the names of a written type. -/
def resolveTy (scope : ModuleScope) (generics : List String) (index : SymbolIndex) :
    Ty → Except ResolveError Ty
  | .named path args =>
    match parameter? path args generics with
    | some t => .ok t
    | none => do
      let symbol ← scope.resolvePath path index
      if symbol.kind ≠ .type then .error (.notAType path)
      else return .named symbol.path (← resolveTys scope generics index args)
  | .fn params ret => do
    let params ← resolveTys scope generics index params
    return .fn params (← resolveTy scope generics index ret)
  | .promise path args assoc => do
    let symbol ← scope.resolvePath path index
    if symbol.kind ≠ .trait then .error (.notATrait path)
    else
      let args ← resolveTys scope generics index args
      return .promise symbol.path args (← resolveAssoc scope generics index assoc)
  | .projection base name => do
    return .projection (← resolveTy scope generics index base) name
  | other => .ok other

/-- Resolves a list of types. -/
def resolveTys (scope : ModuleScope) (generics : List String) (index : SymbolIndex) :
    List Ty → Except ResolveError (List Ty)
  | [] => .ok []
  | t :: rest => do
    let t ← resolveTy scope generics index t
    return t :: (← resolveTys scope generics index rest)

/-- Resolves a list of constraints. -/
def resolveAssoc (scope : ModuleScope) (generics : List String) (index : SymbolIndex) :
    List (String × Ty) → Except ResolveError (List (String × Ty))
  | [] => .ok []
  | (name, t) :: rest => do
    let t ← resolveTy scope generics index t
    return (name, t) :: (← resolveAssoc scope generics index rest)

end

/-- Resolves a trait reference. -/
def resolveTraitRef (scope : ModuleScope) (generics : List String) (index : SymbolIndex)
    (t : TraitRef) : Except ResolveError TraitRef := do
  let symbol ← scope.resolvePath t.path index
  if symbol.kind ≠ .trait then .error (.notATrait t.path)
  else
    let args ← scope.resolveTys generics index t.args
    return ⟨symbol.path, args, ← scope.resolveAssoc generics index t.assoc⟩

end ModuleScope

end Pipeline

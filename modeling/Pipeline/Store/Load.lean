import Pipeline.Schema.Validate
import Pipeline.Store.Completion
import Pipeline.Store.Imports
import Pipeline.Store.Prelude

/-!
# Loading

A store is assembled in four steps: all names are declared, the names that each module sees are
bound, the declarations are read, and the impls are completed. A step with faults is the last. Then
the defaults of all parameters have to have the types declared for them.
-/

set_option autoImplicit false
set_option relaxedAutoImplicit false

namespace Pipeline

/-- What the declarations of all documents amount to before impls are completed. -/
structure Declarations where
  types : NameMap TypeDecl
  traits : NameMap TraitDecl
  pending : List PendingImpl
  extensions : NameMap ExtensionDecl
  schemas : NameMap Schema
  ports : List Ports
deriving Repr

namespace Declarations

/-- No declaration. -/
def empty : Declarations := ⟨[], [], [], [], [], []⟩

/-- Adds the component of a document. -/
def addComponent (ds : Declarations) : Option ComponentDecl → Declarations
  | none => ds
  | some c => { ds with
      types := ds.types.insert c.decl.path c.decl
      schemas := ds.schemas.insert c.schema.component c.schema
      ports := ds.ports ++ [c.ports] }

/-- Adds the declarations of a document. -/
def add (ds : Declarations) (d : Declared) : Declarations :=
  addComponent { ds with
      types := d.types.foldl (fun m t => m.insert t.path t) ds.types
      traits := d.traits.foldl (fun m t => m.insert t.path t) ds.traits
      pending := ds.pending ++ d.impls
      extensions := d.extensions.foldl (fun m e => m.insert e.path e) ds.extensions }
    d.component

/-- Reads the declarations of documents; a document without a scope has none. -/
def ofDocuments (index : SymbolIndex) (scopes : NameMap ModuleScope) :
    List Document → Declarations → Declarations × List Diagnostic
  | [], ds => (ds, [])
  | d :: rest, ds =>
    match scopes.get? d.module with
    | none => ofDocuments index scopes rest ds
    | some scope =>
      let read := Site.declarations ⟨scope, index, []⟩ d
      let ds := match read.value with
        | some declared => ds.add declared
        | none => ds
      let (ds, faults) := ofDocuments index scopes rest ds
      (ds, read.faults ++ faults)

end Declarations

/-- Binds the names that the module of each document sees. -/
def ModuleScope.ofDocuments (index : SymbolIndex) (ds : List Document) :
    NameMap ModuleScope × List Diagnostic :=
  let bound := ds.map (ModuleScope.ofDocument index)
  (NameMap.ofList (bound.map fun b => (b.1.module, b.1)), bound.flatMap (·.2))

namespace Store

/-- Assembles the store of the prelude and of documents. -/
def assemble (documents : List Document) (maxDepth : Nat) :
    Logged (Except (List Diagnostic) Store) :=
  let (names, kept) := Names.empty.addDocuments (Prelude.document :: documents)
  if !names.faults.isEmpty then pure (.error names.faults)
  else
    let (scopes, faults) := ModuleScope.ofDocuments names.index kept
    if !faults.isEmpty then pure (.error faults)
    else
      let (ds, faults) := Declarations.ofDocuments names.index scopes kept .empty
      if !faults.isEmpty then pure (.error faults)
      else do
        let context : Context := ⟨ds.types, ds.traits, names.origins⟩
        let (impls, faults) ← ImplDecl.completeAll context ds.pending ds.ports
        if !faults.isEmpty then return .error faults
        else
          return .ok ⟨names.index, scopes, ds.types, ds.traits, impls, ds.extensions, ds.schemas,
            maxDepth⟩

end Store
end Pipeline

namespace Pipeline.Store

/-- Loads the store of the prelude and of documents. -/
def load (documents : List Document) (maxDepth : Nat) :
    Logged (Except (List Diagnostic) Store) := do
  Logged.report (.loadStarted documents.length)
  let fail (faults : List Diagnostic) : Logged (Except (List Diagnostic) Store) := do
    Logged.report (.loadFailed faults.length)
    return .error faults
  match ← assemble documents maxDepth with
  | .error faults => fail faults
  | .ok store =>
    let faults ← store.verifyDefaults
    if !faults.isEmpty then fail faults
    else
      Logged.report (.loaded store.scopes.length store.types.length store.traits.length
        store.impls.length)
      return .ok store

end Pipeline.Store

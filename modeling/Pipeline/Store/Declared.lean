import Pipeline.Store.Names
import Pipeline.Store.Written

/-!
# Declarations of one document

Each entry of a document becomes a declaration, unless a fault in it prevents that. The methods of
an impl of a trait may be written by their names alone; their signatures are filled in later.
-/

set_option autoImplicit false
set_option relaxedAutoImplicit false

namespace Pipeline

/-- An impl whose trait was not looked at yet. -/
structure PendingImpl where
  decl : ImplDecl
  /-- The methods written by their names alone. -/
  unsigned : List String
  place : Location
deriving Repr

/-- The types by which a component takes part in pipelines. -/
structure Ports where
  path : String
  kind : ComponentKind
  input : Option Ty
  output : Option Ty
  item : Option Ty
  place : Location
deriving Repr

/-- A component with its schema. -/
structure ComponentDecl where
  decl : TypeDecl
  schema : Schema
  ports : Ports
deriving Repr

/-- The declarations of a document. -/
structure Declared where
  types : List TypeDecl
  traits : List TraitDecl
  impls : List PendingImpl
  extensions : List ExtensionDecl
  component : Option ComponentDecl
deriving Repr

namespace Site

/-- The module that writes the declarations. -/
def module (site : Site) : String := site.scope.module

/-- The document that writes the declarations. -/
def document (site : Site) : String := site.scope.document

/-- The number of shapes given to a type. -/
def shapeCount (e : TypeEntry) : Nat :=
  ([!e.fields.isEmpty, !e.variants.isEmpty, e.inner.isSome, e.synonym.isSome].filter id).length

/-- Reads a field. -/
def field (site : Site) (place : Location) (name : String) (e : FieldEntry) : Noted FieldDecl := do
  return ⟨name, ← site.ty place e.ty, !e.isPrivate, e.explain⟩

/-- Reads the shape of a type. -/
def typeKind (site : Site) (place : Location) (e : TypeEntry) : Noted TypeKind := do
  if !e.fields.isEmpty then
    let around := place.child "fields"
    return .struct (← e.fields.mapM fun (name, f) => site.field (around.child name) name f)
  else if !e.variants.isEmpty then
    if e.variants.Nodup then return .enum e.variants
    else .invalid (place.child "variants") .variantTwice
  else
    match e.inner, e.synonym with
    | some inner, _ => return .transparent (← site.ty (place.child "inner") inner)
    | none, some target => return .synonym (← site.ty (place.child "alias") target)
    | none, none => return .native

/-- Reads a type. -/
def typeDecl (site : Site) (place : Location) (name : String) (e : TypeEntry) :
    Noted TypeDecl := do
  let generics ← site.plainGenerics (place.child "generics") e.generics
  if 1 < shapeCount e then .invalid place .shapes
  else
    let kind ← (site.inside generics).typeKind place e
    return ⟨Path.child site.module name, name, site.module, generics, kind, none, e.explain⟩

/-- Reads the methods of a trait; each of them is read as a whole before the next. -/
def traitMethods (site : Site) (place : Location) (trait : String) :
    List String → Nat → List MethodEntry → Noted (List TraitMethod)
  | _, _, [] => pure []
  | seen, i, e :: rest => do
    let place_ := place.atIndex i
    let sig ← site.signature place_ e.sig
    if seen.contains sig.name then
      .fail place_ (duplicate (Path.child trait sig.name) .method)
    else
      let default ← Snippet.ofText? place_ e.default
      return ⟨sig, default⟩ :: (← traitMethods site place trait (sig.name :: seen) (i + 1) rest)

/-- Reads a specialization. -/
def specialization (site : Site) (place : Location) (e : SpecializationEntry) :
    Noted Specialization := do
  let target ← site.traitRef (place.child "of") e.target
  let around := place.child "defaults"
  let defaults ← e.defaults.mapM fun (name, body) => do
    return (name, ← Snippet.ofText (around.child name) body)
  return ⟨target, defaults⟩

/-- Reads a trait. -/
def traitDecl (site : Site) (place : Location) (name : String) (e : TraitEntry) :
    Noted TraitDecl := do
  let generics ← site.plainGenerics (place.child "generics") e.generics
  let inner := site.inside generics
  let around := place.child "assoc"
  let assoc ← e.assoc.mapM fun (name, bound) => do
    return AssocDecl.mk name (← inner.optTraitRef (around.child name) bound)
  let methods ← inner.traitMethods (place.child "methods") name [] 0 e.methods
  let specialization ← match e.specialization with
    | some s => some <$> inner.specialization (place.child "specialization") s
    | none => pure none
  return ⟨Path.child site.module name, name, site.module, generics, assoc, methods,
    specialization, e.explain⟩

/-- True for the key of a method that gives its whole signature. -/
def isSignature (key : String) : Bool := key.toList.contains '('

/-- The signature that stands for a method written by its name alone, until the trait gives the
real one. -/
def nameOnly (name : String) : MethodSig := ⟨name, .regular, true, [], .unit⟩

/-- Reads the signature of a method of an impl. -/
def implSignature (site : Site) (place : Location) (ofTrait : Bool) (key : String) :
    Noted MethodSig :=
  if isSignature key then site.signature place key
  else if ofTrait then pure (nameOnly key)
  else .invalid place .inherentSignature

/-- Reads the methods of an impl. -/
def implMethods (site : Site) (place : Location) (ofTrait : Bool) :
    List String → List (String × String) → Noted (List ImplMethod)
  | _, [] => pure []
  | seen, (key, body) :: rest => do
    let place_ := place.child key
    let body ← MethodBody.ofText place_ body
    let sig ← site.implSignature place_ ofTrait key
    if seen.contains sig.name then .fail place_ (duplicate sig.name .method)
    else return ⟨sig, body⟩ :: (← implMethods site place ofTrait (sig.name :: seen) rest)

/-- True for a declared type, which may have methods of its own. -/
def isNamed : Ty → Bool
  | .named _ _ => true
  | _ => false

/-- Reads an impl. -/
def implDecl (site : Site) (place : Location) (e : ImplEntry) : Noted PendingImpl := do
  let (generics, inline) ← site.genericParams (place.child "generics") e.generics
  let inner := site.inside generics
  let target ← inner.ty (place.child "for") e.target
  let traitRef ← inner.optTraitRef (place.child "trait") e.traitRef
  let bounds ← inner.whereBounds (place.child "where") e.bounds
  if traitRef.isNone && !isNamed target then .invalid (place.child "for") .inherentTarget
  else
    let around := place.child "assoc"
    let assoc ← e.assoc.mapM fun (name, t) => do return (name, ← inner.ty (around.child name) t)
    let methods ← inner.implMethods (place.child "methods") traitRef.isSome [] e.methods
    return {
      decl := ⟨0, site.module, site.document, generics, target, traitRef, inline ++ bounds, assoc,
        methods, e.isConst, .declared⟩
      unsigned := (e.methods.map (·.1)).filter fun key => !isSignature key
      place := place }

/-- Puts a type in the place of `Self` in a signature. -/
def closeSig (self : Ty) (sig : MethodSig) : MethodSig :=
  sig.replace fun
    | .selfTy => some self
    | _ => none

/-- Reads the methods of an extension. -/
def extensionMethods (site : Site) (place : Location) (target : Ty) :
    List String → List (String × String) → Noted (List ImplMethod)
  | _, [] => pure []
  | seen, (key, body) :: rest => do
    let place_ := place.child key
    if !isSignature key then .invalid place_ .extensionSignature
    else
      let body ← MethodBody.ofText place_ body
      let sig ← site.signature place_ key
      if seen.contains sig.name then .fail place_ (duplicate sig.name .method)
      else
        let more ← extensionMethods site place target (sig.name :: seen) rest
        return ⟨closeSig target sig, body⟩ :: more

/-- Reads an extension. -/
def extensionDecl (site : Site) (place : Location) (name : String) (e : ExtensionEntry) :
    Noted ExtensionDecl := do
  let (generics, inline) ← site.genericParams (place.child "generics") e.generics
  let inner := site.inside generics
  let target ← inner.ty (place.child "for") e.target
  let bounds ← inner.whereBounds (place.child "where") e.bounds
  let methods ← inner.extensionMethods (place.child "methods") target [] e.methods
  return ⟨Path.child site.module name, name, site.module, generics, target, inline ++ bounds,
    methods⟩

/-- Reads a column: the field of the items that it is, and its checks. -/
def column (site : Site) (place : Location) (name : String) (e : ColumnEntry) :
    Noted (FieldDecl × List Check) := do
  let t ← site.ty place e.ty
  let checks ← Check.ofEntries (some name) (place.child "check") e.checks
  return (⟨name, t, true, e.explain⟩, checks)

/-- Reads a parameter. -/
def param (site : Site) (place : Location) (name : String) (e : ParamEntry) : Noted Param := do
  let t ← site.ty (place.child "type") e.ty
  let default ← Snippet.ofText? (place.child "default") e.default
  let checks ← Check.ofEntries (some name) (place.child "check") e.checks
  return ⟨name, t, default, checks, e.explain⟩

/-- The shape of a component: a source with columns and no other items is a struct of them. -/
def componentShape (kind : ComponentKind) (item : Option Ty) (columns : List FieldDecl) :
    TypeKind :=
  if kind = .source && item.isNone && !columns.isEmpty then .struct columns else .native

/-- Reads the component of a document. -/
def component (site : Site) (d : Document) (kind : ComponentKind) : Noted ComponentDecl := do
  let place := d.location
  let generics ← site.plainGenerics (place.child "generics") d.generics
  let inner := site.inside generics
  let input ← inner.optTy (place.child "input") d.input
  let output ← inner.optTy (place.child "output") d.output
  let item ← inner.optTy (place.child "item") d.item
  let around := place.child "columns"
  let columns ← d.columns.mapM fun (name, c) => inner.column (around.child name) name c
  let columnChecks ← Check.ofEntries none (place.child "column_checks") d.columnChecks
  let around := place.child "params"
  let params ← d.params.mapM fun (name, p) => inner.param (around.child name) name p
  let checks ← Check.ofEntries none (place.child "checks") d.checks
  let shape := componentShape kind item (columns.map (·.1))
  return {
    decl := ⟨site.module, d.name, site.module, generics, shape, some kind, d.explain⟩
    schema := ⟨site.module, some kind, site.module, site.document, generics, params, checks,
      columns.flatMap (·.2) ++ columnChecks⟩
    ports := ⟨site.module, kind, input, output, item, place⟩ }

/-- Reads the declarations of a document; those with faults are left out. -/
def declarations (site : Site) (d : Document) : Noted Declared := do
  let place := d.location
  let types ← Noted.collect
    (fun (name, e) => site.typeDecl ((place.child "types").child name) name e) d.types
  let traits ← Noted.collect
    (fun (name, e) => site.traitDecl ((place.child "traits").child name) name e) d.traits
  let impls ← Noted.collect
    (fun (e, i) => site.implDecl ((place.child "impls").atIndex i) e) d.impls.zipIdx
  let extensions ← Noted.collect
    (fun (name, e) => site.extensionDecl ((place.child "extensions").child name) name e)
    d.extensions
  let component ← match d.componentKind? with
    | some kind => Noted.attempt (site.component d kind)
    | none => pure none
  return ⟨types, traits, impls, extensions, component⟩

end Site
end Pipeline

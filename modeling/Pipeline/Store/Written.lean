import Pipeline.Fault.Noted
import Pipeline.Schema.Basic
import Pipeline.Scope.Resolve
import Pipeline.Document.Basic

/-!
# Written types, bounds and expressions

What a document writes as text is read and its names are resolved as its module sees them.
-/

set_option autoImplicit false
set_option relaxedAutoImplicit false

namespace Pipeline

/-- Where a text is written: the names seen there and the generic parameters around it. -/
structure Site where
  scope : ModuleScope
  index : SymbolIndex
  generics : List String

namespace Site

/-- The site inside a declaration with generic parameters. -/
def inside (site : Site) (generics : List Generic) : Site :=
  { site with generics := Generic.names generics }

/-- The fault of a text that cannot be read. -/
def unreadable (written : String) (e : ParseError) : ErrorKind :=
  .invalidDeclaration (.cannotParse written e)

/-- Resolves a type. -/
def resolve (site : Site) (place : Location) (t : Ty) : Noted Ty :=
  .ofExcept place ResolveError.toKind (site.scope.resolveTy site.generics site.index t)

/-- Resolves a trait reference. -/
def resolveTrait (site : Site) (place : Location) (t : TraitRef) : Noted TraitRef :=
  .ofExcept place ResolveError.toKind (site.scope.resolveTraitRef site.generics site.index t)

/-- Reads a type. -/
def ty (site : Site) (place : Location) (written : String) : Noted Ty := do
  let t ← Noted.ofExcept place (unreadable written) (Ty.parse written)
  site.resolve place t

/-- Reads a type that may be left out. -/
def optTy (site : Site) (place : Location) : Option String → Noted (Option Ty)
  | some written => some <$> site.ty place written
  | none => pure none

/-- Reads a trait reference. -/
def traitRef (site : Site) (place : Location) (written : String) : Noted TraitRef := do
  let t ← Noted.ofExcept place (unreadable written) (TraitRef.parse written)
  site.resolveTrait place t

/-- Reads a trait reference that may be left out. -/
def optTraitRef (site : Site) (place : Location) : Option String → Noted (Option TraitRef)
  | some written => some <$> site.traitRef place written
  | none => pure none

/-- Reads a signature. -/
def signature (site : Site) (place : Location) (written : String) : Noted MethodSig := do
  let sig ← Noted.ofExcept place (unreadable written) (MethodSig.parse written)
  let params ← sig.params.mapM fun (name, t) => do return (name, ← site.resolve place t)
  let ret ← site.resolve place sig.ret
  return { sig with params := params, ret := ret }

/-- Resolves the traits of a bound on a type. -/
def boundsOn (site : Site) (place : Location) (t : Ty) (written : List WrittenBound) :
    Noted (List Bound) :=
  written.mapM fun b => do return ⟨t, ← site.resolveTrait place b.traitRef, b.constRequired⟩

/-- Resolves a generic parameter with the bounds written at it. -/
def generic (site : Site) (place : Location) (written : WrittenGeneric) :
    Noted (Generic × List Bound) := do
  let kind ← match written.constTy with
    | some t => GenericKind.const <$> site.resolve place t
    | none => pure .type
  let default ← match written.default with
    | some t => some <$> site.resolve place t
    | none => pure none
  let bounds ← site.boundsOn place (.param written.name) written.bounds
  return (⟨written.name, kind, default⟩, bounds)

/-- Reads generic parameters with the bounds written at them; each sees all the others. -/
def genericParams (site : Site) (place : Location) (written : List String) :
    Noted (List Generic × List Bound) := do
  let parsed ← written.zipIdx.mapM fun (text, i) =>
    Noted.ofExcept (place.atIndex i) (unreadable text) (WrittenGeneric.parse text)
  let names := parsed.map (·.name)
  if !names.Nodup then .invalid place .genericTwice
  else
    let inner := { site with generics := names }
    let read ← parsed.zipIdx.mapM fun (g, i) => inner.generic (place.atIndex i) g
    return (read.map (·.1), read.flatMap (·.2))

/-- Reads generic parameters where bounds have no place. -/
def plainGenerics (site : Site) (place : Location) (written : List String) :
    Noted (List Generic) := do
  let (generics, bounds) ← site.genericParams place written
  if bounds.isEmpty then return generics else .invalid place .boundsOnParameters

/-- Reads bounds written apart from the generic parameters. -/
def whereBounds (site : Site) (place : Location) (written : List String) :
    Noted (List Bound) := do
  let read ← written.zipIdx.mapM fun (text, i) => do
    let place := place.atIndex i
    let (t, bounds) ← Noted.ofExcept place (unreadable text) (WrittenBound.parseClause text)
    site.boundsOn place (← site.resolve place t) bounds
  return read.flatten

end Site

/-- Reads an expression. -/
def Snippet.ofText (place : Location) (source : String) : Noted Snippet :=
  .ofExcept place (fun e => .invalidExpression source (.parse e)) (Snippet.parse source)

/-- Reads an expression that may be left out. -/
def Snippet.ofText? (place : Location) : Option String → Noted (Option Snippet)
  | some source => some <$> Snippet.ofText place source
  | none => pure none

/-- Reads the body of a method: one word stands for a body outside the declarations. -/
def MethodBody.ofText (place : Location) (source : String) : Noted MethodBody :=
  if Text.trim source = "extern" then pure .external
  else .expr <$> Snippet.ofText place source

/-- Reads checks; those that cannot be read are left out. -/
def Check.ofEntries (subject : Option String) (place : Location) (written : List CheckEntry) :
    Noted (List Check) :=
  Noted.collect
    (fun (c, i) => do
      return ⟨← Snippet.ofText (place.atIndex i) c.source, subject, c.explain⟩)
    written.zipIdx

end Pipeline

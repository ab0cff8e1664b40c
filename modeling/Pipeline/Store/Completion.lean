import Pipeline.Log.Event
import Pipeline.Store.Basic
import Pipeline.Store.Declared

/-!
# Complete impls

What an impl of a trait leaves out is filled in from the trait, and what contradicts the trait is
a fault. Impls that nobody has to write, those of wrappers and of components, are added. Last, the
impls that nothing could ever tell apart are refused.
-/

set_option autoImplicit false
set_option relaxedAutoImplicit false

namespace Pipeline

/-- The declarations that impls are completed with. -/
structure Context where
  types : NameMap TypeDecl
  traits : NameMap TraitDecl
  /-- The origin of the document of each module. -/
  origins : NameMap String

namespace ImplDecl

/-- Puts the target in the place of `Self` in the signatures. -/
def closeMethods (d : ImplDecl) : ImplDecl :=
  { d with methods := d.methods.map fun m => { m with sig := Site.closeSig d.target m.sig } }

/-- The signature of a method of the trait as it is for this impl. -/
def sigOfTrait (d : ImplDecl) (subst : Subst) (sig : MethodSig) : MethodSig :=
  sig.replace fun
    | .projection .selfTy name => d.assoc? name
    | .selfTy => some d.target
    | .param name => subst.get? name
    | _ => none

/-- True when two signatures agree in their receivers and in the number of their parameters. -/
def fits (written declared : MethodSig) : Bool :=
  written.receiver == declared.receiver && written.params.length == declared.params.length

/-- Completes the signature of a method of an impl of a trait. -/
def completeMethod (d : ImplDecl) (trait : TraitDecl) (unsigned : List String) (place : Location)
    (m : ImplMethod) : Noted ImplMethod := do
  let name := m.sig.name
  match trait.method? name with
  | none =>
    Noted.note
      [⟨(place.child "methods").child name, .invalidDeclaration (.notAMethod name trait.name)⟩]
    return m
  | some declared =>
    if unsigned.contains name then
      return { m with sig := d.sigOfTrait (trait.substFor d.traitArgs) declared.sig }
    else
      if !fits m.sig declared.sig then
        Noted.note [⟨(place.child "methods").child name,
          .invalidDeclaration (.signatureMismatch declared.sig)⟩]
      return { m with sig := Site.closeSig d.target m.sig }

/-- The faults of the associated types of an impl of a trait. -/
def assocFaults (d : ImplDecl) (trait : TraitDecl) (place : Location) : List Diagnostic :=
  let missing := trait.assoc.filter fun a => (d.assoc? a.name).isNone
  let unknown := d.assoc.filter fun a => !trait.assoc.any (·.name == a.1)
  missing.map (fun a =>
      ⟨place.child "assoc", .invalidDeclaration (.missingAssoc a.name trait.name)⟩) ++
    unknown.map fun a =>
      ⟨(place.child "assoc").child a.1, .invalidDeclaration (.unknownAssoc trait.name a.1)⟩

/-- The faults of the methods that an impl has to have and lacks. -/
def missingMethods (d : ImplDecl) (trait : TraitDecl) (place : Location) : List Diagnostic :=
  let required := trait.methods.filter fun m => m.default.isNone && m.sig.tag != .external
  (required.filter fun m => (d.method? m.sig.name).isNone).map fun m =>
    ⟨place.child "methods", .invalidDeclaration (.missingMethod m.sig.name trait.name)⟩

/-- The type that a wrapper wraps. -/
def wrapped? (types : NameMap TypeDecl) (t : Ty) : Option Ty :=
  (t.path?.bind types.get?).bind fun decl =>
    match decl.kind with
    | .transparent inner => some (inner.substitute (decl.substFor t))
    | _ => none

/-- The faults of an impl of the trait of wrappers. -/
def wrapperFaults (d : ImplDecl) (types : NameMap TypeDecl) (place : Location) :
    List Diagnostic :=
  match wrapped? types d.target with
  | none => [⟨place.child "for", .invalidDeclaration (.notTransparent d.target)⟩]
  | some inner =>
    if d.assoc? Builtin.inner = some inner then []
    else [⟨(place.child "assoc").child Builtin.inner,
      .invalidDeclaration (.wraps d.target inner)⟩]

end ImplDecl

namespace PendingImpl

/-- Adds an associated type, unless there is one of its name. -/
def addAssoc (given : List (String × Ty)) (a : String × Ty) : List (String × Ty) :=
  if given.any (·.1 == a.1) then given else given ++ [a]

/-- Completes an impl of a trait: its trait arguments, associated types and signatures. -/
def completeFor (p : PendingImpl) (types : NameMap TypeDecl) (written : TraitRef)
    (trait : TraitDecl) : Noted ImplDecl := do
  let place := p.place
  let generics := trait.generics
  if generics.length < written.args.length then
    .invalid (place.child "trait")
      (.traitArguments trait.name generics.length written.args.length)
  else
    let args := trait.completeArgs p.decl.target written.args
    match (generics.zip args).find? fun g => g.2 = .infer with
    | some (g, _) => .invalid (place.child "trait") (.traitArgumentNeeded g.name)
    | none =>
      let d := { p.decl with
        assoc := written.assoc.foldl addAssoc p.decl.assoc
        traitRef := some (.plain written.path args) }
      Noted.note (d.assocFaults trait place)
      let methods ← d.methods.mapM (d.completeMethod trait p.unsigned place)
      Noted.note (d.missingMethods trait place)
      if written.path = Builtin.transparent then
        Noted.note (d.wrapperFaults types place)
      return { d with methods := methods }

/-- Completes an impl. -/
def complete (p : PendingImpl) (context : Context) : Noted ImplDecl :=
  match p.decl.traitRef with
  | none => pure p.decl.closeMethods
  | some written =>
    match context.traits.get? written.path with
    | none => .fail (p.place.child "trait") (.unresolvedReference written.path)
    | some trait => p.completeFor context.types written trait

end PendingImpl

/-! ### Impls that nobody has to write -/

namespace ImplDecl

/-- True when one of the impls makes the declared type of a path implement a trait. -/
def isWritten (impls : List ImplDecl) (path trait : String) : Bool :=
  impls.any fun d => d.target.path? = some path && d.traitRef.any (·.path == trait)

/-- An impl made for a declared type. -/
def synthesize (context : Context) (decl : TypeDecl) (traitRef : TraitRef)
    (assoc : List (String × Ty)) (isConst : Bool) : ImplDecl where
  id := 0
  module := decl.module
  document := (context.origins.get? decl.module).getD decl.module
  generics := decl.generics
  target := decl.asTy
  traitRef := some traitRef
  bounds := []
  assoc := assoc
  methods := []
  isConst := isConst
  origin := .synthesized

/-- The impl of a wrapper. -/
def ofWrapper? (context : Context) (decl : TypeDecl) : Option ImplDecl :=
  match decl.kind with
  | .transparent inner =>
    some (synthesize context decl (.plain Builtin.transparent []) [(Builtin.inner, inner)] true)
  | _ => none

/-- Adds the impls of wrappers, in the order of their paths, that are not written out. -/
def addWrappers (context : Context) : List ImplDecl → List TypeDecl → Logged (List ImplDecl)
  | impls, [] => pure impls
  | impls, decl :: rest =>
    match ofWrapper? context decl with
    | none => addWrappers context impls rest
    | some d =>
      if isWritten impls decl.path Builtin.transparent then addWrappers context impls rest
      else do
        Logged.report (.implSynthesized d .transparentType)
        addWrappers context (impls ++ [d]) rest

end ImplDecl

/-- The trait that a component implements, or the fault of having no types for it. -/
def Ports.capability (p : Ports) (decl : TypeDecl) :
    Except DeclFault (TraitRef × List (String × Ty)) :=
  match p.kind with
  | .source =>
    match p.item with
    | some item => .ok (.plain Builtin.source [], [(Builtin.item, item)])
    | none =>
      if decl.fields.isEmpty then .error .sourceWithoutItem
      else .ok (.plain Builtin.source [], [(Builtin.item, decl.asTy)])
  | .sink | .feeder =>
    match p.input with
    | some input => .ok (.plain Builtin.sink [input], [])
    | none => .error .sinkWithoutInput
  | .transform =>
    match p.input, p.output with
    | some input, some output =>
      .ok (.plain Builtin.transform [input], [(Builtin.output, output)])
    | _, _ => .error .transformWithoutTypes

namespace ImplDecl

/-- Adds the impls of components, in the order of their documents, that are not written out. -/
def addComponents (context : Context) :
    List ImplDecl → List Ports → Logged (List ImplDecl × List Diagnostic)
  | impls, [] => pure (impls, [])
  | impls, p :: rest =>
    match context.types.get? p.path with
    | none => addComponents context impls rest
    | some decl =>
      match p.capability decl with
      | .error fault => do
        let (impls, faults) ← addComponents context impls rest
        return (impls, ⟨p.place, .invalidDeclaration fault⟩ :: faults)
      | .ok (traitRef, assoc) =>
        if isWritten impls p.path traitRef.path then addComponents context impls rest
        else do
          let d := synthesize context decl traitRef assoc false
          Logged.report (.implSynthesized d .componentCapability)
          addComponents context (impls ++ [d]) rest

/-! ### Impls that nothing tells apart -/

/-- Names the parameters of types by the order in which they appear first, so that types which
differ in the names of their parameters alone become equal. -/
def canonical (ts : List Ty) : List Ty :=
  let order := (Ty.paramsList ts).eraseDups
  Ty.replaceList
    (fun
      | .param name => some (.param ("$" ++ Text.natText (order.idxOf name)))
      | _ => none)
    ts

/-- What tells one impl of a trait without bounds from another: the trait, and the target with the
arguments of the trait. -/
def traitKey? (d : ImplDecl) : Option (String × List Ty) :=
  match d.traitRef with
  | some t => if d.bounds.isEmpty then some (t.path, canonical (d.target :: t.args)) else none
  | none => none

/-- What tells the methods of a type itself apart: the type and their names. -/
def methodKeys (d : ImplDecl) : List (List Ty × String) :=
  match d.traitRef with
  | some _ => []
  | none => d.methods.map fun m => (canonical [d.target], m.sig.name)

/-- The faults of an impl that the impls `before` it leave no room for. -/
def clashes (before : List ImplDecl) (d : ImplDecl) : List Diagnostic :=
  let place := Location.ofDocument d.document
  match d.traitRef with
  | some _ =>
    if d.traitKey?.isSome && before.any (fun b => b.traitKey? == d.traitKey?) then
      [⟨place, duplicate d.text .impl⟩]
    else []
  | none =>
    let taken := before.flatMap methodKeys
    (d.methodKeys.filter taken.contains).map fun key =>
      ⟨place, duplicate (Path.child d.target.text key.2) .method⟩

/-- The clashes of a list of impls, of each one with those before it. -/
def allClashes : List ImplDecl → List ImplDecl → List Diagnostic
  | _, [] => []
  | before, d :: rest => clashes before d ++ allClashes (before ++ [d]) rest

/-- Numbers impls by their positions. -/
def number (impls : List ImplDecl) : List ImplDecl :=
  impls.zipIdx.map fun (d, i) => { d with id := i }

/-- Completes the impls written, adds the others, and numbers them all. -/
def completeAll (context : Context) (pending : List PendingImpl) (ports : List Ports) :
    Logged (List ImplDecl × List Diagnostic) := do
  let completed := pending.map (·.complete context)
  let written := (completed.filter (·.faults.isEmpty)).filterMap (·.value)
  let wrapped ← addWrappers context written context.types.values
  let (all, faults) ← addComponents context wrapped ports
  let impls := number all
  return (impls, completed.flatMap (·.faults) ++ faults ++ allClashes [] impls)

end ImplDecl
end Pipeline

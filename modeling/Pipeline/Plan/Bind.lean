import Pipeline.Graph.Cycle
import Pipeline.Graph.Order
import Pipeline.Plan.Basic
import Pipeline.Plan.FieldValue
import Pipeline.Scope.Resolve
import Pipeline.Store.Names

/-!
# Binding a document

The types of the bindings are resolved, their fields evaluated with every binding in scope as a
reference, the pipes checked, and the bindings ordered so that each comes after those it depends
on. The faults of independent bindings are reported together; an abort raised by declared code
stops the document at once.
-/

set_option autoImplicit false
set_option relaxedAutoImplicit false

namespace Pipeline

namespace TypeDecl

/-- The arguments left out, for the parameters `rest`, after the arguments `given`: the declared
defaults. -/
def appendDefaults (d : TypeDecl) : List Generic → List Ty → Except DeclFault (List Ty)
  | [], given => .ok given
  | g :: rest, given =>
    match g.default with
    | none => .error (.genericArgumentNeeded d.path g.name)
    | some t => d.appendDefaults rest (given ++ [t.substitute (Generic.assign d.generics given)])

/-- The arguments of a type, those left out included. -/
def completeArgs (d : TypeDecl) (args : List Ty) : Except DeclFault (List Ty) :=
  if d.generics.length < args.length then
    .error (.genericArguments d.path d.generics.length args.length)
  else d.appendDefaults (d.generics.drop args.length) args

end TypeDecl

namespace Store

/-- The type of a binding, with the arguments left out. -/
def bindingTy (store : Store) (scope : ModuleScope) (written : String) :
    Except ErrorKind Ty := do
  let parsed ← (Ty.parse written).mapError fun e => .invalidExpression written (.parse e)
  let t ← (scope.resolveTy [] store.index parsed).mapError ResolveError.toKind
  match t with
  | .named path args =>
    match store.type? path with
    | some d => return .named path (← (d.completeArgs args).mapError .invalidDeclaration)
    | none => return t
  | _ => return t

/-- The types of bindings, and the faults of those that have none. -/
def bindingTypes (store : Store) (scope : ModuleScope) (lets : Location)
    (bindings : List (String × BindingEntry)) : NameMap Ty × List Diagnostic :=
  let read := bindings.map fun b => (b.1, store.bindingTy scope b.2.ty)
  (NameMap.ofList (read.filterMap fun r => r.2.toOption.map fun t => (r.1, t)),
    read.filterMap fun r =>
      match r.2 with
      | .ok _ => none
      | .error kind => some ⟨(lets.child r.1).child "type", kind⟩)

/-- What the fields of bindings see: every binding as a reference. -/
def bindingEnv (module : String) (names : List String) (types : NameMap Ty) : Env where
  module := module
  vars := NameMap.ofList (names.map fun n => (n, .ref n ((types.get? n).getD .infer)))

/-- Turns the mismatch of a field that holds other bindings into a fault of the pipeline. -/
def referenceFault (consumer : String) (supplied : List (String × Value)) (place : Location)
    (d : Diagnostic) : Diagnostic :=
  match d.kind with
  | .typeMismatch expected found =>
    let producers := match supplied.find? fun s => d.location = place.child s.1 with
      | some (_, v) => v.refs
      | none => []
    if producers.isEmpty then d
    else ⟨d.location,
      .pipelineTypeError (Text.join ", " producers) consumer (.mismatch expected found)⟩
  | _ => d

/-- Validates the fields of a binding and plans its construction. -/
def construct (store : Store) (name : String) (t : Ty) (supplied : List (String × Value))
    (place : Location) : Logged (Except (List Diagnostic) Construction) := do
  let refine (faults : List Diagnostic) : List Diagnostic :=
    faults.map (referenceFault name supplied place)
  match t.path?.bind store.schema? with
  | some schema =>
    match ← store.validate (schema.instantiate t.args) supplied place with
    | .ok valid => return .ok (.component valid.component valid.params valid.runtimeChecks)
    | .error faults => return .error (refine faults)
  | none =>
    if (store.structOf? t).isSome then
      match ← store.validateRecord supplied t place with
      | .ok value => return .ok (.record value)
      | .error faults => return .error (refine faults)
    else return .error [⟨place.child "type", .invalidDeclaration (.noParameters t)⟩]

/-- What is known of a document while its bindings are constructed. -/
structure Progress where
  graph : BindingGraph
  constructions : NameMap Construction := []
  faults : List Diagnostic := []
  /-- True when declared code raised an abort. -/
  aborted : Bool := false

namespace Progress

/-- Adds faults. -/
def fail (p : Progress) (faults : List Diagnostic) : Progress :=
  { p with
    faults := p.faults ++ faults
    aborted := p.aborted || faults.any (·.kind.isTerminal) }

/-- Makes a binding depend on the bindings among names. -/
def dependOn (p : Progress) (binding : String) (names : List String) : Progress :=
  let siblings := (NameSet.ofList names).filter p.graph.contains
  { p with graph := siblings.foldl (fun g n => g.addDependency binding n) p.graph }

end Progress

/-- The values of the fields of a binding, the names that each of them reads, and the faults of
those that have no value. -/
def fieldValues (store : Store) (env : Env) (place : Location) :
    List (String × RawValue) →
      Logged (List (String × Value) × List (List String) × List Diagnostic)
  | [] => pure ([], [], [])
  | (name, raw) :: rest => do
    let field ← store.fieldValue env (place.child name) raw
    let (values, names, faults) ← fieldValues store env place rest
    match field.value with
    | .ok v => return ((name, v) :: values, field.names :: names, faults)
    | .error d => return (values, field.names :: names, d :: faults)

/-- Constructs a binding. -/
def bindOne (store : Store) (env : Env) (p : Progress) (name : String) (t : Ty)
    (body : BindingBody) (place : Location) : Logged Progress := do
  match body with
  | .host code => return { p with constructions := p.constructions.insert name (.host code) }
  | .fields raws =>
    let (supplied, names, faults) ← store.fieldValues env place raws
    let p := names.foldl (fun p ns => p.dependOn name ns) p
    if !faults.isEmpty then return p.fail faults
    else
      match ← store.construct name t supplied place with
      | .ok c => return { p with constructions := p.constructions.insert name c }
      | .error faults => return p.fail faults

/-- Constructs bindings one after another, up to an abort. -/
def bindEach (store : Store) (env : Env) (types : NameMap Ty) (lets : Location) :
    Progress → List (String × BindingEntry) → Logged Progress
  | p, [] => pure p
  | p, (name, b) :: rest =>
    if p.aborted then pure p
    else
      match types.get? name with
      | none => bindEach store env types lets p rest
      | some t => do
        let p ← store.bindOne env p name t b.body (lets.child name)
        bindEach store env types lets p rest

/-- Checks written pipes, from the one at a position on, and makes every consumer depend on its
producer. -/
def bindPipes (store : Store) (types : NameMap Ty) (place : Location) :
    Progress → Nat → List String → Logged (Progress × List Pipe)
  | p, _, [] => pure (p, [])
  | p, i, written :: rest => do
    match ← store.pipe types p.graph (place.atIndex i) written with
    | .error faults => bindPipes store types place (p.fail faults) (i + 1) rest
    | .ok pipes =>
      let graph := pipes.foldl (fun g e => g.addDependency e.consumer e.producer) p.graph
      let (p, more) ← bindPipes store types place { p with graph := graph } (i + 1) rest
      return (p, pipes ++ more)

/-- The faults of a graph at the places of the bindings concerned. -/
def graphFaults (graph : BindingGraph) (lets : Location) : List Diagnostic :=
  graph.faults.map fun kind =>
    match kind with
    | .cyclicBinding (first :: rest) => ⟨lets.child first, .cyclicBinding (first :: rest)⟩
    | kind => ⟨lets, kind⟩

/-- The steps in an order of the bindings. -/
def stepsOf (p : Progress) (types : NameMap Ty) (order : List String) : List Step :=
  let position (name : String) : Nat := (p.graph.position? name).getD p.graph.size
  order.filterMap fun name =>
    match types.get? name, p.constructions.get? name with
    | some t, some c =>
      let deps := (p.graph.dependenciesOf name).mergeSort fun a b => position a ≤ position b
      some ⟨name, t, c, deps⟩
    | _, _ => none

/-- The plan of a document in the scope of its module. -/
def planIn (store : Store) (d : Document) (scope : ModuleScope) :
    Logged (Except (List Diagnostic) Plan) := do
  let lets := d.location.child "let"
  let names := d.bindings.map (·.1)
  let (types, faults) := store.bindingTypes scope lets d.bindings
  let graph := names.foldl BindingGraph.addBinding .empty
  let p ← store.bindEach (bindingEnv d.module names types) types lets
    { graph := graph, faults := faults } d.bindings
  if p.aborted then return .error p.faults
  else
    let (p, pipes) ← store.bindPipes types (d.location.child "pipe") p 0 d.pipes
    let faults := p.faults ++ graphFaults p.graph lets
    if !faults.isEmpty then return .error faults
    else
      match p.graph.order with
      | .error names => return .error [⟨lets, .cyclicBinding names⟩]
      | .ok order =>
        return .ok ⟨d.origin, d.module, d.name, stepsOf p types order, pipes⟩

/-- The plan of a document. -/
def plan (store : Store) (d : Document) : Logged (Except (List Diagnostic) Plan) :=
  if d.kind ≠ .main then
    pure (.error [⟨(d.location.child "permute").child "type",
      .invalidDeclaration (.notAPipeline d.module)⟩])
  else
    match store.scope? d.module with
    | none => pure (.error [⟨d.location, .invalidDeclaration (.moduleNotLoaded d.module)⟩])
    | some scope => store.planIn d scope

/-- Binds a document. -/
def bind (store : Store) (d : Document) : Logged (Except (List Diagnostic) Plan) := do
  Logged.report (.bindingStarted d.origin d.bindings.length d.pipes.length)
  let r ← store.plan d
  match r with
  | .ok plan => Logged.report (.bindingCompleted d.origin plan.steps.length)
  | .error faults => Logged.report (.bindingFailed d.origin faults.length)
  return r

/-- A document with what became of it. -/
structure BoundDocument where
  document : Document
  result : Except (List Diagnostic) Plan

/-- Binds documents, none of which affects another. What happens to each of them is not
reported. -/
def bindAll (store : Store) (ds : List Document) : Logged (List BoundDocument) := do
  Logged.report (.batchStarted ds.length)
  return ds.map fun d => ⟨d, (store.bind d).value⟩

end Store
end Pipeline

import Pipeline.Graph.Basic
import Pipeline.Schema.Validate

/-!
# Plans

A plan tells how the bindings of a document are constructed, in an order in which each of them
comes after those it depends on, and how items flow between them.
-/

set_option autoImplicit false
set_option relaxedAutoImplicit false

namespace Pipeline

/-- How a binding is constructed. -/
inductive Construction where
  /-- A component of validated parameters. -/
  | component (path : String) (params : List ValidParam) (runtimeChecks : List String)
  /-- A struct. -/
  | record (value : Value)
  /-- Code of the host, which is trusted to return the type declared. -/
  | host (code : String)
deriving Repr

/-- The construction of one binding. -/
structure Step where
  name : String
  ty : Ty
  construction : Construction
  /-- The bindings to be constructed before, in document order. -/
  dependsOn : List String
deriving Repr

/-- A flow of items from one binding to another. -/
structure Pipe where
  producer : String
  consumer : String
  item : Ty
deriving DecidableEq, Repr

/-- The plan of a document. -/
structure Plan where
  /-- The origin of the document. -/
  document : String
  module : String
  name : String
  steps : List Step
  pipes : List Pipe
deriving Repr

/-- The bindings in the order of their construction. -/
def Plan.order (p : Plan) : List String := p.steps.map (·.name)

/-! ### Plans as data -/

/-- The origin of a parameter as data. -/
def ParamOrigin.toDatum : ParamOrigin → Datum
  | supplied => .str "supplied"
  | default => .str "default"
  | coerced via => .variant "coerced" (.record [("via", .str via.text)])

/-- A planned parameter as data, with whether its value is known. -/
def ValidParam.toDatum (p : ValidParam) : Datum :=
  .record [("name", .str p.name), ("value", p.value.toDatum), ("origin", p.origin.toDatum),
    ("const_evaluated", .bool p.value.isKnown)]

/-- A construction as data. -/
def Construction.toDatum : Construction → Datum
  | component path params checks =>
    .record [("kind", .str "component"), ("component", .str path),
      ("params", .list (params.map ValidParam.toDatum)),
      ("runtime_checks", .list (checks.map .str))]
  | record value => .record [("kind", .str "record"), ("value", value.toDatum)]
  | host code => .record [("kind", .str "host"), ("code", .str code)]

/-- A step as data. -/
def Step.toDatum (s : Step) : Datum :=
  .record [("name", .str s.name), ("ty", .str s.ty.text), ("plan", s.construction.toDatum),
    ("depends_on", .list (s.dependsOn.map .str))]

/-- A flow of items as data. -/
def Pipe.toDatum (p : Pipe) : Datum :=
  .record [("from", .str p.producer), ("to", .str p.consumer), ("item", .str p.item.text)]

/-- A plan as data. -/
def Plan.toDatum (p : Plan) : Datum :=
  .record [("document", .str p.document), ("module", .str p.module), ("name", .str p.name),
    ("steps", .list (p.steps.map Step.toDatum)), ("pipes", .list (p.pipes.map Pipe.toDatum))]

end Pipeline

/-! ### Flows of items

In a pipe each stage has to accept the items that the stage before it produces: a source produces
items of its own, a transform turns the items fed to it into others. -/

namespace Pipeline

namespace Store

/-- The items that a stage produces when it is fed certain items, or none. -/
def producedItem (store : Store) (t : Ty) (input : Option Ty) : Logged (Option Ty) := do
  match ← store.project t Builtin.source Builtin.item with
  | some item => return some item
  | none =>
    let r ← store.resolve t (.plain Builtin.transform input.toList)
    return r.candidate?.bind (·.assoc? Builtin.output)

/-- True for a stage that can be fed certain items. -/
def acceptsItems (store : Store) (t item : Ty) : Logged Bool := do
  if ← store.implements t (.plain Builtin.sink [item]) then return true
  else store.implements t (.plain Builtin.transform [item])

/-- The flows from stage to stage, of which the first is fed `input`. A stage without a type ends
them: its fault is known already. -/
def flows (store : Store) (types : NameMap Ty) (place : Location) :
    Option Ty → List String → Logged (Except Diagnostic (List Pipe))
  | input, producer :: consumer :: rest =>
    match types.get? producer, types.get? consumer with
    | some t, some u => do
      let fault (reason : PipeFault) : Diagnostic :=
        ⟨place, .pipelineTypeError producer consumer reason⟩
      match ← store.producedItem t input with
      | none => return .error (fault (.noItems t))
      | some item =>
        if ← store.acceptsItems u item then
          let more ← flows store types place (some item) (consumer :: rest)
          return more.map (⟨producer, consumer, item⟩ :: ·)
        else return .error (fault (.rejected u item))
    | _, _ => pure (.ok [])
  | _, _ => pure (.ok [])

/-- The flows of a written pipe. -/
def pipe (store : Store) (types : NameMap Ty) (graph : BindingGraph) (place : Location)
    (written : String) : Logged (Except (List Diagnostic) (List Pipe)) :=
  let stages := (Text.split "->" written).map Text.trim
  if stages.length < 2 || stages.contains "" then
    pure (.error [⟨place, .invalidExpression written .pipeStages⟩])
  else
    let unknown := stages.filter fun s => !graph.contains s
    if !unknown.isEmpty then
      pure (.error (unknown.map fun s => ⟨place, .unresolvedReference s⟩))
    else do
      match ← store.flows types place none stages with
      | .ok pipes => return .ok pipes
      | .error d => return .error [d]

end Store
end Pipeline

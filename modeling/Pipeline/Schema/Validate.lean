import Pipeline.Eval.Evaluate
import Pipeline.Schema.Conform

/-!
# Validation

The values supplied for the parameters of a schema are given the types declared, defaults fill in
for those left out, and the checks are evaluated. Every independent fault is reported; an abort
raised by declared code ends the validation at once. A check that depends on what is not known yet
is put off until run time.
-/

set_option autoImplicit false
set_option relaxedAutoImplicit false

namespace Pipeline

/-- Where the value of a parameter comes from. -/
inductive ParamOrigin where
  | supplied
  | default
  | coerced (via : Conversion)
deriving DecidableEq, Repr

/-- A parameter with its value. -/
structure ValidParam where
  name : String
  value : Value
  origin : ParamOrigin
deriving Repr

/-- The parameters of a component, in the order of their declaration. -/
structure ValidParams where
  component : String
  /-- The type of the component, with arguments inferred from the values. -/
  ty : Ty
  params : List ValidParam
  /-- The checks that are put off until run time. -/
  runtimeChecks : List String
deriving Repr

namespace ValidParams

/-- The value of a parameter. -/
def get? (p : ValidParams) (name : String) : Option Value :=
  (p.params.find? (·.name == name)).map (·.value)

/-- The values in the form in which they are supplied. -/
def toSupplied (p : ValidParams) : List (String × Value) := p.params.map fun v => (v.name, v.value)

end ValidParams

/-- What became of a check. -/
inductive Verdict where
  | holds
  | fails
  | deferred
deriving DecidableEq, Repr

/-- What a part of a validation came to. -/
structure Findings where
  params : List ValidParam := []
  faults : List Diagnostic := []
  /-- The checks put off. -/
  deferred : List String := []
  /-- True when declared code raised an abort. -/
  aborted : Bool := false
deriving Repr

namespace Findings

/-- The findings of one part and, unless it was aborted, of what comes after it. -/
def andThen (a : Findings) (next : Logged Findings) : Logged Findings :=
  if a.aborted then pure a
  else do
    let b ← next
    return ⟨a.params ++ b.params, a.faults ++ b.faults, a.deferred ++ b.deferred, b.aborted⟩

/-- A single fault. -/
def ofFault (d : Diagnostic) : Findings := { faults := [d], aborted := d.kind.isTerminal }

end Findings

namespace Store

/-- The fault of an expression that has no value. -/
def evalFault (place : Location) (s : Snippet) (e : EvalError) : Diagnostic :=
  ⟨place, e.toKind s.source⟩

/-- Evaluates a check. -/
def check (store : Store) (c : Check) (env : Env) (place : Location) :
    Logged (Except Diagnostic Verdict) := do
  match ← (store.eval env c.snippet.expr).run with
  | .ok (.bool true) => return .ok .holds
  | .ok (.bool false) => return .ok .fails
  | .ok v =>
    if !v.isKnown && v.ty.path? == some Builtin.bool then return .ok .deferred
    else return .error (mismatch place Builtin.boolTy v.ty.text)
  | .error e => return .error (evalFault place c.snippet e)

/-- Evaluates checks one after another; `violation` is the fault of one that fails. -/
def runChecks (store : Store) (component : String) (env : Env) (place : Location)
    (violation : String → ErrorKind) : List Check → Logged Findings
  | [] => pure {}
  | c :: rest => do
    let found : Findings ←
      match ← store.check c env place with
      | .ok .holds => pure {}
      | .ok .fails => pure { faults := [⟨place, violation c.source⟩] }
      | .ok .deferred =>
        Logged.report (.checkDeferred component c.source)
        pure { deferred := [c.source] }
      | .error d => pure (Findings.ofFault d)
    found.andThen (runChecks store component env place violation rest)

/-- The value of a parameter before its checks: the one supplied, or the default. -/
def valueOf (store : Store) (schema : Schema) (p : Param) (given : Option Conformer)
    (place : Location) : Logged (Except Findings ValidParam) := do
  let conformed (origin : ParamOrigin) (conform : Conformer) :
      Logged (Except Findings ValidParam) := do
    match ← conform p.ty place with
    | .ok (v, some via) => return .ok ⟨p.name, v, .coerced via⟩
    | .ok (v, none) => return .ok ⟨p.name, v, origin⟩
    | .error faults => return .error { faults := faults }
  match given, p.default with
  | some conform, _ => conformed .supplied conform
  | none, some default =>
    match ← (store.eval { module := schema.module } default.expr).run with
    | .ok v =>
      Logged.report (.defaultApplied schema.component p.name default.source)
      conformed .default (store.conformPlain v)
    | .error e => return .error (.ofFault (evalFault (place.child "default") default e))
  | none, none => return .error { faults := [⟨place, .missingRequiredParam p.name⟩] }

/-- Validates one parameter. -/
def runParam (store : Store) (schema : Schema) (p : Param) (given : Option Conformer)
    (place : Location) : Logged Findings := do
  match ← store.valueOf schema p given place with
  | .error found => return found
  | .ok valid =>
    let env := (Env.withSelf { module := schema.module } valid.value).withVar p.name valid.value
    let found ← store.runChecks schema.component env place (.checkViolation p.name) p.checks
    return { found with params := [valid] }

/-- Validates parameters one after another. -/
def runParams (store : Store) (schema : Schema) (given : List (String × Conformer))
    (base : Location) : List Param → Logged Findings
  | [] => pure {}
  | p :: rest => do
    let conform := (given.find? (·.1 == p.name)).map (·.2)
    let found ← store.runParam schema p conform (base.child p.name)
    found.andThen (runParams store schema given base rest)

/-- Evaluates the checks on all parameters together, if each of them has a value. -/
def runCross (store : Store) (schema : Schema) (params : List ValidParam) (base : Location) :
    Logged Findings :=
  if params.length = schema.params.length then
    let env : Env := {
      module := schema.module
      vars := NameMap.ofList (params.map fun p => (p.name, p.value)) }
    store.runChecks schema.component env (base.child "checks") .crossFieldCheckViolation
      schema.checks
  else pure {}

/-- The type that the values of parameters make of a component. -/
def inferTy (schema : Schema) (params : List ValidParam) : Ty :=
  let vars := Generic.names schema.generics
  let subst := params.foldl
    (fun (s : Subst) v =>
      match schema.param? v.name with
      | some p => (Ty.unify vars p.ty v.value.ty s).2
      | none => s)
    []
  .named schema.component (schema.generics.map fun g => (subst.get? g.name).getD .infer)

/-- Validates what is supplied under the names of parameters. -/
def validateWith (store : Store) (schema : Schema) (given : List (String × Conformer))
    (base : Location) : Logged (Except (List Diagnostic) ValidParams) := do
  let unknown := given.filter fun g => (schema.param? g.1).isNone
  let start : Findings :=
    { faults := unknown.map fun g => ⟨base.child g.1, .unknownParam g.1⟩ }
  let own ← start.andThen (store.runParams schema given base schema.params)
  let found ← own.andThen (store.runCross schema own.params base)
  if found.faults.isEmpty then
    return .ok ⟨schema.component, inferTy schema found.params, found.params, found.deferred⟩
  else return .error found.faults

/-- The struct that an untyped record is expected to be. -/
def structOf? (store : Store) (t : Ty) : Option TypeDecl :=
  (t.path?.bind store.type?).filter (·.isStruct)

/-- The type of a record: the one expected if it is complete, else the one inferred. -/
def recordTy (d : TypeDecl) (expected inferred : Ty) : Ty :=
  if expected.args.length = d.generics.length ∧ expected.isConcrete then expected else inferred

/-- Makes a struct of a type without aliases of what is supplied for its public fields. -/
def recordOf (store : Store) (given : List (String × Conformer)) (expected : Ty)
    (place : Location) : Logged (Except (List Diagnostic) Value) :=
  match store.structOf? expected with
  | none => pure (.error [mismatch place expected "record"])
  | some d =>
    let hidden := given.filter fun g => (d.field? g.1).any fun f => !f.isPublic
    if !hidden.isEmpty then
      pure (.error (hidden.map fun g =>
        ⟨place.child g.1, .invalidDeclaration (.privateField g.1 d.path)⟩))
    else do
      match ← store.validateWith ((Schema.ofStruct d).instantiate expected.args) given place with
      | .error faults => return .error faults
      | .ok valid => return .ok (.record (recordTy d expected valid.ty) valid.toSupplied)

mutual

/-- Gives a value the type expected. A record without a type becomes a struct of that type. -/
def conform (store : Store) : Value → Conformer
  | .record .infer fields => fun expected place => do
    let made ← store.recordOf (conformFields store fields) (store.normalize expected) place
    return made.map fun v => (v, none)
  | v => store.conformPlain v

/-- What gives the values of fields the types expected. -/
def conformFields (store : Store) : List (String × Value) → List (String × Conformer)
  | [] => []
  | (name, v) :: rest => (name, conform store v) :: conformFields store rest

end

/-- Reports how a validation ends. -/
def reportFailure {α : Type} (component : String) (r : Except (List Diagnostic) α) : Logged Unit :=
  match r with
  | .ok _ => pure ()
  | .error faults => Logged.report (.validationFailed component faults.length)

/-- Validates values against a schema. -/
def validate (store : Store) (schema : Schema) (supplied : List (String × Value))
    (base : Location) : Logged (Except (List Diagnostic) ValidParams) := do
  Logged.report (.validationStarted schema.component supplied.length)
  let r ← store.validateWith schema (store.conformFields supplied) base
  reportFailure schema.component r
  return r

/-- Validates values as the public fields of a struct. -/
def validateRecord (store : Store) (fields : List (String × Value)) (t : Ty) (base : Location) :
    Logged (Except (List Diagnostic) Value) := do
  Logged.report (.validationStarted t.text fields.length)
  let r ← store.recordOf (store.conformFields fields) (store.normalize t) base
  reportFailure t.text r
  return r

/-! ### Defaults -/

/-- The fault of a default: it has no value, or one of another type. Where the type of the
parameter is open there is nothing to compare with. -/
def defaultFault? (store : Store) (schema : Schema) (p : Param) (default : Snippet) :
    Logged (Option Diagnostic) := do
  let place := (((Location.ofDocument schema.document).child "params").child p.name).child "default"
  match ← (store.eval { module := schema.module } default.expr).run with
  | .error e => return some (evalFault place default e)
  | .ok v =>
    if !p.ty.params.isEmpty then return none
    else
      match ← store.conform v p.ty place with
      | .ok _ => return none
      | .error _ => return some (mismatch place p.ty v.ty.text)

/-- The faults of defaults of parameters. -/
def defaultFaults (store : Store) : List (Schema × Param) → Logged (List Diagnostic)
  | [] => pure []
  | (schema, p) :: rest => do
    let fault ←
      match p.default with
      | some default => store.defaultFault? schema p default
      | none => pure none
    return fault.toList ++ (← defaultFaults store rest)

/-- The faults of all defaults in a store. -/
def verifyDefaults (store : Store) : Logged (List Diagnostic) :=
  store.defaultFaults (store.schemas.values.flatMap fun s => s.params.map fun p => (s, p))

end Store
end Pipeline

import Pipeline.Eval.Basic

/-!
# Evaluation

Operators on known values are carried out. A method runs when it may be evaluated at declaration
time and its receiver and arguments are known; any other call is put off until run time and keeps
its text and the type of its result. Calls are nested up to a limit.
-/

set_option autoImplicit false
set_option relaxedAutoImplicit false

namespace Pipeline.Store

/-- Evaluates the body of a method; nothing where the limit for nested calls is reached. -/
abbrev Runner := Option (Env → Expr → Eval Value)

/-- The text of a call that is put off. -/
def callText (receiver : Option Value) (name : String) (args : List Value) : String :=
  let call := name ++ "(" ++ Value.texts args ++ ")"
  match receiver with
  | some r => r.text ++ "." ++ call
  | none => call

/-- What the body of a method sees. -/
def bodyEnv (m : Method) (selfTy : Option Ty) (receiver : Option Value) (args : List Value) :
    Env where
  module := m.module
  self := receiver
  selfTy := selfTy
  vars := NameMap.ofList ((m.sig.params.map (·.1)).zip args)

/-- Calls a method. -/
def invoke (store : Store) (runner : Runner) (m : Method) (selfTy : Option Ty)
    (receiver : Option Value) (args : List Value) : Eval Value :=
  match runner with
  | none => throw (.depthExceeded store.maxDepth)
  | some run =>
    if args.length ≠ m.sig.params.length then
      Eval.typeFault (.argumentCount m.name m.sig.params.length args.length)
    else
      let known := receiver.all (·.isKnown) && Value.areKnown args
      let putOff : Value := .deferred m.sig.ret (callText receiver m.name args)
      if !m.isConstEvaluable known then pure putOff
      else
        match m.body with
        | some (.expr body) => run (bodyEnv m selfTy receiver args) body.expr
        | _ =>
          match receiver.bind (Value.builtin m.name · args) with
          | some r => liftM r
          | none => pure putOff

/-- Calls a method on a receiver. -/
def callMethodWith (store : Store) (runner : Runner) (env : Env) (receiver : Value)
    (name : String) (args : List Value) : Eval Value := do
  let t := receiver.ty
  match ← (store.resolveCall t name (store.visibleFrom env) : Logged MethodResolution) with
  | .found m => store.invoke runner m (some t) (some receiver) args
  | .ambiguous candidates _ => throw (.ambiguousCall t.text name candidates)
  | .notFound => throw (.noMethod t.text name)

/-- Applies a step to what an optional value holds: an absent value stays absent, and a value that
is not known yet yields an optional result that is not known either. -/
def chain (base : Value) (step : Value → Eval Value) : Eval Value :=
  match base with
  | .none => pure .none
  | .some v => Value.intoOption <$> step v
  | .ref _ _ | .deferred _ _ =>
    let t := base.ty
    if t.path? = some Builtin.option then do
      let result ← step (.deferred (t.args.head?.getD .infer) base.text)
      return .deferred (Value.optionOf result.ty) result.text
    else Eval.typeFault (.needsOption t)
  | _ => Eval.typeFault (.needsOption base.ty)

/-- Applies a step to a value, or to what it holds if the step is an optional one. -/
def chainIf (optional : Bool) (base : Value) (step : Value → Eval Value) : Eval Value :=
  if optional then chain base step else step base

/-- Compares two values for equality, or for the contrary. -/
def compareEqual (store : Store) (runner : Runner) (env : Env) (op : BinaryOp) (l r : Value) :
    Eval Value :=
  if !l.isKnown || !r.isKnown then
    pure (Value.deferredBool (Value.operationText op l r))
  else if l.isStructural && r.isStructural then
    pure (.bool (l.equal r == (op == .eq)))
  else
    store.callMethodWith runner env l (if op = .eq then "eq" else "ne") [r]

/-- What the qualifier of a call stands for: a path, and whether the first argument is the
receiver by which the method is looked up. -/
def qualifier? (store : Store) (env : Env) (segments : List String) : Option (String × Bool) :=
  let extension := (store.scopeOf env).bind fun scope =>
    scope.resolveExtension? (Path.ofSegments segments) store.index
  match extension with
  | some path => some (path, true)
  | none =>
    match store.symbolIn? env segments with
    | some ⟨.trait, path⟩ => some (path, true)
    | some ⟨.type, path⟩ => some (path, false)
    | _ => none

/-- Calls a function through its path: an extension, a trait or a type, and a name. -/
def callQualified (store : Store) (runner : Runner) (env : Env) (segments : List String)
    (name : String) (args : List Value) : Eval Value := do
  let written := Path.ofSegments segments
  let noMethod := EvalError.noMethod written name
  let (path, byReceiver) ← Eval.orElse (store.qualifier? env segments) (.unknownName written)
  let receiverTy ←
    if byReceiver then some <$> Eval.orElse (args.head?.map (·.ty)) noMethod else pure none
  match ← (store.resolveQualified receiverTy path name : Logged MethodResolution) with
  | .ambiguous candidates _ => throw (.ambiguousCall written name candidates)
  | .notFound => throw noMethod
  | .found m =>
    if m.sig.receiver then
      match args with
      | [] => throw noMethod
      | receiver :: rest => store.invoke runner m (some receiver.ty) (some receiver) rest
    else
      let selfTy := match receiverTy with
        | some t => some t
        | none => (store.type? path).map (·.openTy)
      store.invoke runner m selfTy none args

/-- Calls a function through its path; a single name is the constructor of present values. -/
def call (store : Store) (runner : Runner) (env : Env) (callee : List String)
    (args : List Value) : Eval Value :=
  match callee, args with
  | ["Some"], [v] => pure (.some v)
  | [only], _ => throw (.unknownName only)
  | [], _ => throw (.unknownName "")
  | callee, args =>
    store.callQualified runner env callee.dropLast (callee.getLast?.getD "") args

/-- The value of a literal. -/
def literal : Literal → Value
  | .bool b => .bool b
  | .int n => .int n
  | .float x => .float x
  | .str s => .str s
  | .none => .none

mutual

/-- Evaluates an expression; bodies of methods are evaluated by the runner. -/
def evalWith (store : Store) (runner : Runner) (env : Env) : Expr → Eval Value
  | .lit l => pure (literal l)
  | .ident name => Eval.orElse (env.vars.get? name) (.unknownName name)
  | .self => Eval.orElse env.self (.unknownName "self")
  | .path segments =>
    Eval.orElse (store.variantIn? env segments) (.unknownName (Path.ofSegments segments))
  | .field base name optional => do
    let base ← evalWith store runner env base
    chainIf optional base fun v => liftM (store.fieldOf env v name)
  | .method receiver name args optional => do
    let receiver ← evalWith store runner env receiver
    let args ← evalAll store runner env args
    chainIf optional receiver fun v => store.callMethodWith runner env v name args
  | .call callee args => do
    let args ← evalAll store runner env args
    store.call runner env callee args
  | .unary op operand => do
    let v ← evalWith store runner env operand
    liftM (Value.unary op v)
  | .binary op left right => do
    let l ← evalWith store runner env left
    match op with
    | .and | .or =>
      let short := op == .or
      let lTruth ← liftM (Value.truth op l)
      if lTruth = some short then return .bool short
      else
        let r ← evalWith store runner env right
        let rTruth ← liftM (Value.truth op r)
        return Value.join op short l r lTruth rTruth
    | _ =>
      let r ← evalWith store runner env right
      match op with
      | .eq | .ne => store.compareEqual runner env op l r
      | .lt | .le | .gt | .ge => liftM (Value.compareBy op l r)
      | _ => liftM (Value.calculate op l r)
  | .list items => do return .list (← evalAll store runner env items)
  | .record path fields => do
    let decl ← Eval.orElse (store.typeIn? env path) (.unknownName (Path.ofSegments path))
    if !decl.isStruct then Eval.typeFault (.notAStruct decl.path)
    else
      let given ← evalFields store runner env decl [] fields
      liftM (structOf decl given)
  | .closure params _ source => pure (.closure params source)

/-- Evaluates expressions from left to right. -/
def evalAll (store : Store) (runner : Runner) (env : Env) : List Expr → Eval (List Value)
  | [] => pure []
  | e :: rest => do
    let v ← evalWith store runner env e
    return v :: (← evalAll store runner env rest)

/-- Evaluates the fields written for a struct, after those `given`. -/
def evalFields (store : Store) (runner : Runner) (env : Env) (decl : TypeDecl)
    (given : NameMap Value) : List (String × Expr) → Eval (NameMap Value)
  | [] => pure given
  | (name, e) :: rest => do
    liftM (checkField decl env given name)
    let v ← evalWith store runner env e
    evalFields store runner env decl (given.insert name v) rest

end

/-- Evaluates an expression in which calls may still be nested to a depth. -/
def evalTo (store : Store) : Nat → Env → Expr → Eval Value
  | 0 => store.evalWith none
  | depth + 1 => store.evalWith (some (store.evalTo depth))

/-- Evaluates an expression. -/
def eval (store : Store) (env : Env) (e : Expr) : Eval Value := store.evalTo store.maxDepth env e

/-- The runner of an expression that is not inside a call. -/
def outerRunner (store : Store) : Runner :=
  match store.maxDepth with
  | 0 => none
  | depth + 1 => some (store.evalTo depth)

/-- Calls a method on a receiver as an expression would. -/
def callMethod (store : Store) (env : Env) (receiver : Value) (name : String)
    (args : List Value) : Eval Value :=
  store.callMethodWith store.outerRunner env receiver name args

end Pipeline.Store

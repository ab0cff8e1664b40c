import Pipeline.Proofs.Eval.Chaining
import Pipeline.Proofs.Eval.Parts
import Pipeline.Proofs.Ty.Parameters
import Pipeline.Store.Load

/-!
# Parameters in the types of values

The types of values are made of those that are there already and of those that declarations give:
the type of a variant, the type of a field of a value that is not known, and the result type of a
call that is put off. A generic parameter gets into a value where one of these mentions it still.
All other values are of types without parameters, or of the types of their parts.
-/

set_option autoImplicit false
set_option relaxedAutoImplicit false

namespace Pipeline

open Eval (outcome Yields)

/-! ### Values whose types mention certain parameters -/

namespace Value

/-- The types of a value and of all values inside it mention certain parameters only. -/
abbrev TypesIn (p : String → Bool) (v : Value) : Prop := v.All fun w => w.ty.ParamsIn p

variable {p : String → Bool} {v w l r : Value} {t : Ty}

theorem paramsIn_std (name : String) {args : List Ty} (each : ∀ t ∈ args, t.ParamsIn p) :
    (Ty.std name args).ParamsIn p :=
  Ty.over_named.mpr ⟨rfl, each⟩

theorem paramsIn_optionOf (inside : t.ParamsIn p) : (optionOf t).ParamsIn p := by
  unfold optionOf
  split
  · exact inside
  · exact Ty.over_named.mpr ⟨rfl, by simpa using inside⟩

/-- What an option of a type is an option of. -/
theorem paramsIn_head (inside : t.ParamsIn p) : (t.args.head?.getD .infer).ParamsIn p := by
  cases t with
  | named path args =>
    cases args with
    | nil => exact Ty.over_infer
    | cons u rest => exact (Ty.over_named.mp inside).2 u List.mem_cons_self
  | _ => exact Ty.over_infer

theorem typesIn_of_isPlain (plain : v.isPlain = true) : v.TypesIn p := by
  cases v with
  | bool | int | float | str => exact paramsIn_std _ (List.forall_mem_nil _)
  | _ => cases plain

theorem typesIn_none : none.TypesIn p :=
  paramsIn_std _ (by simp [Ty.over_infer])

theorem typesIn_deferredBool (call : String) : (deferredBool call).TypesIn p :=
  Ty.over_named.mpr ⟨rfl, List.forall_mem_nil _⟩

theorem typesIn_closure (params : List String) (source : String) :
    (closure params source).TypesIn p := by
  refine Ty.over_fn.mpr ⟨fun t member => ?_, Ty.over_infer⟩
  obtain ⟨_, -, rfl⟩ := List.mem_map.mp member
  exact Ty.over_infer

theorem typesIn_some (inside : v.TypesIn p) : (some v).TypesIn p :=
  ⟨paramsIn_std _ (by simpa using inside.self), inside⟩

theorem typesIn_intoOption (inside : v.TypesIn p) : (intoOption v).TypesIn p := by
  cases v with
  | none | some => exact inside
  | _ => exact typesIn_some inside

theorem typesIn_list {items : List Value} (each : AllItems (fun w => w.ty.ParamsIn p) items) :
    (list items).TypesIn p := by
  refine ⟨paramsIn_std _ ?_, each⟩
  cases items with
  | nil => simp [headTy, Ty.over_infer]
  | cons v rest => simpa [headTy] using each.1.self

theorem typesIn_of_unary {op : UnaryOp} (inside : v.TypesIn p) (found : unary op v = .ok w) :
    w.TypesIn p := by
  rcases plain_or_of_unary found with plain | ⟨call, rfl⟩
  · exact typesIn_of_isPlain plain
  · exact inside.self

theorem typesIn_of_compareBy {op : BinaryOp} (found : compareBy op l r = .ok w) : w.TypesIn p := by
  rcases plain_or_of_compareBy found with plain | ⟨call, rfl⟩
  · exact typesIn_of_isPlain plain
  · exact typesIn_deferredBool call

theorem typesIn_of_calculate {op : BinaryOp} (left : l.TypesIn p) (right : r.TypesIn p)
    (found : calculate op l r = .ok w) : w.TypesIn p := by
  rcases plain_or_of_calculate found with plain | ⟨call, rfl | rfl⟩
  · exact typesIn_of_isPlain plain
  · exact left.self
  · exact right.self

theorem typesIn_join (op : BinaryOp) (short : Bool) (l r : Value) (lTruth rTruth : Option Bool) :
    (join op short l r lTruth rTruth).TypesIn p := by
  rcases plain_or_join op short l r lTruth rTruth with plain | ⟨call, made⟩
  · exact typesIn_of_isPlain plain
  · rw [made]
    exact typesIn_deferredBool call

theorem typesIn_content? {base : Value} (inside : base.TypesIn p)
    (found : base.content? = Option.some v) : v.TypesIn p := by
  cases base with
  | some w =>
    cases found
    exact inside.2
  | ref binding t | deferred t call =>
    unfold content? at found
    dsimp only at found
    split at found
    · cases found
      exact paramsIn_head inside
    · cases found
  | _ => cases found

end Value

/-! ### Calls -/

/-- A method that is called with values. -/
structure Invocation where
  method : Method
  selfTy : Option Ty
  receiver : Option Value
  args : List Value

namespace Invocation

/-- The receiver and the arguments. -/
def values (c : Invocation) : List Value := c.receiver.toList ++ c.args

/-- What the body of the method sees. -/
def env (c : Invocation) : Env := Store.bodyEnv c.method c.selfTy c.receiver c.args

/-- The body that runs, if the call is not put off. -/
def body? (c : Invocation) : Option Expr :=
  if c.method.isConstEvaluable (c.receiver.all (·.isKnown) && Value.areKnown c.args) then
    match c.method.body with
    | some (.expr body) => some body.expr
    | _ => none
  else none

/-- The call, put off. -/
def putOff (c : Invocation) : Value :=
  .deferred c.method.sig.ret (Store.callText c.receiver c.method.name c.args)

end Invocation

/-- True for operators that give truth values without a call. -/
def BinaryOp.decides : BinaryOp → Bool
  | and | or | lt | le | gt | ge => true
  | _ => false

/-- The expressions inside another one whose values may go into its value. -/
def Expr.parts : Expr → List Expr
  | field base _ _ => [base]
  | method receiver _ args _ => receiver :: args
  | call _ args => args
  | unary _ operand => [operand]
  | binary op left right => if op.decides then [] else [left, right]
  | list items => items
  | record _ fields => fields.map (·.2)
  | _ => []

@[elab_as_elim]
theorem Expr.inductionOnParts {motive : Expr → Prop} (e : Expr)
    (step : ∀ e, (∀ part ∈ e.parts, motive part) → motive e) : motive e := by
  induction e using Expr.inductionOn with
  | lit | ident | self | path | closure => exact step _ (List.forall_mem_nil _)
  | field base name optional ih => exact step _ (List.forall_mem_singleton.mpr ih)
  | method receiver name args optional ih ihs =>
    exact step _ (List.forall_mem_cons.mpr ⟨ih, ihs⟩)
  | call callee args ihs => exact step _ ihs
  | unary op operand ih => exact step _ (List.forall_mem_singleton.mpr ih)
  | binary op left right ihl ihr =>
    refine step _ fun part member => ?_
    rw [Expr.parts] at member
    split at member
    · cases member
    · exact List.forall_mem_cons.mpr ⟨ihl, List.forall_mem_singleton.mpr ihr⟩ part member
  | list items ihs => exact step _ ihs
  | record path fields ihs => exact step _ (List.forall_mem_map.mpr ihs)

namespace Store

variable {store : Store} {depth : Nat} {env : Env} {e : Expr} {v w : Value} {c : Invocation}
  {p : String → Bool}

/-- What a call comes to. -/
def called (store : Store) (depth : Nat) (c : Invocation) : Except EvalError Value :=
  outcome (store.invoke (store.runnerAt depth) c.method c.selfTy c.receiver c.args)

/-- What a step is taken on: a value, or what it holds if the step is an optional one. -/
def Reaches (optional : Bool) (base v : Value) : Prop :=
  if optional then base.content? = some v else base = v

/-- The type of the receiver of a function that is called through its path. -/
def qualifiedTy (byReceiver : Bool) (vs : List Value) : Option Ty :=
  if byReceiver then vs.head?.map (·.ty) else none

/-- The calls of methods that an expression makes once its parts have been evaluated. -/
inductive Invokes (store : Store) (depth : Nat) (env : Env) : Expr → Invocation → Prop
  | method {receiver : Expr} {name : String} {args : List Expr} {optional : Bool}
      {base v : Value} {vs : List Value} {m : Method} :
      outcome (store.evalTo depth env receiver) = .ok base →
      outcome (store.evalAll (store.runnerAt depth) env args) = .ok vs → Reaches optional base v →
      (store.resolveCall v.ty name (store.visibleFrom env)).value = .found m →
      Invokes store depth env (.method receiver name args optional) ⟨m, some v.ty, some v, vs⟩
  | equality {op : BinaryOp} {left right : Expr} {l r : Value} {m : Method} :
      op = .eq ∨ op = .ne → outcome (store.evalTo depth env left) = .ok l →
      outcome (store.evalTo depth env right) = .ok r → l.isKnown = true → r.isKnown = true →
      (l.isStructural && r.isStructural) = false →
      (store.resolveCall l.ty (if op = .eq then "eq" else "ne") (store.visibleFrom env)).value =
        .found m →
      Invokes store depth env (.binary op left right) ⟨m, some l.ty, some l, [r]⟩
  | onFirst {callee : List String} {args : List Expr} {v : Value} {vs : List Value} {path : String}
      {byReceiver : Bool} {m : Method} : 2 ≤ callee.length →
      outcome (store.evalAll (store.runnerAt depth) env args) = .ok (v :: vs) →
      store.qualifier? env callee.dropLast = some (path, byReceiver) →
      (store.resolveQualified (qualifiedTy byReceiver (v :: vs)) path
        (callee.getLast?.getD "")).value = .found m → m.sig.receiver = true →
      Invokes store depth env (.call callee args) ⟨m, some v.ty, some v, vs⟩
  | onNothing {callee : List String} {args : List Expr} {vs : List Value} {path : String}
      {byReceiver : Bool} {m : Method} : 2 ≤ callee.length →
      outcome (store.evalAll (store.runnerAt depth) env args) = .ok vs →
      store.qualifier? env callee.dropLast = some (path, byReceiver) →
      (store.resolveQualified (qualifiedTy byReceiver vs) path
        (callee.getLast?.getD "")).value = .found m → m.sig.receiver = false →
      Invokes store depth env (.call callee args)
        ⟨m, (qualifiedTy byReceiver vs).or ((store.type? path).map (·.openTy)), none, vs⟩

/-- A parameter gets into the value of an expression from a declaration: with the type of a variant,
of a field of a value that is not known, or of a call that is put off. It does not stand in the
types of the values that are at hand. -/
inductive LeaksAt (store : Store) (depth : Nat) (env : Env) : Expr → String → Prop
  | variant {segments : List String} {v : Value} {name : String} :
      store.variantIn? env segments = some v → name ∈ v.ty.params →
      LeaksAt store depth env (.path segments) name
  | field {base : Expr} {field : String} {optional : Bool} {b v w : Value} {name : String} :
      outcome (store.evalTo depth env base) = .ok b → Reaches optional b v → v.IsUnknown →
      store.fieldOf env v field = .ok w → name ∈ w.ty.params → name ∉ v.ty.params →
      LeaksAt store depth env (.field base field optional) name
  | call {e : Expr} {c : Invocation} {name : String} :
      Invokes store depth env e c → store.called depth c = .ok c.putOff →
      name ∈ c.method.sig.ret.params → (∀ v ∈ c.values, name ∉ v.ty.params) →
      LeaksAt store depth env e name

/-- A parameter leaks at an expression, at one of its parts or in the body of a method that runs. -/
inductive Leaks (store : Store) : Nat → Env → Expr → String → Prop
  | here {depth : Nat} {env : Env} {e : Expr} {name : String} : LeaksAt store depth env e name →
      Leaks store depth env e name
  | part {depth : Nat} {env : Env} {e part : Expr} {name : String} : part ∈ e.parts →
      Leaks store depth env part name → Leaks store depth env e name
  | body {depth : Nat} {env : Env} {e body : Expr} {c : Invocation} {name : String} :
      Invokes store (depth + 1) env e c → c.body? = some body →
      Leaks store depth c.env body name → Leaks store (depth + 1) env e name

/-! ### What the parts of an expression come to -/

/-- A call hands on what it is called with, is put off, or runs a body. -/
theorem called_typesIn (each : ∀ v ∈ c.values, v.TypesIn p)
    (ret : store.called depth c = .ok c.putOff → c.method.sig.ret.ParamsIn p)
    (runs : ∀ d body, depth = d + 1 → c.body? = some body →
      Yields (Value.TypesIn p) (outcome (store.evalTo d c.env body))) :
    Yields (Value.TypesIn p) (store.called depth c) := by
  intro w found
  have result := found
  unfold called invoke at found
  cases depth with
  | zero => cases found
  | succ d =>
    dsimp only [runnerAt] at found
    split at found
    · cases found
    · split at found
      · cases found
        exact ret result
      · rename_i evaluable
        simp only [Bool.not_eq_true', Bool.not_eq_false] at evaluable
        split at found
        · rename_i body written
          refine runs d body.expr rfl ?_ w found
          rw [Invocation.body?, if_pos evaluable, written]
        · split at found
          · rename_i r applies
            obtain ⟨v, given, made⟩ := Option.bind_eq_some_iff.mp applies
            rw [Eval.outcome_liftExcept] at found
            rw [found] at made
            refine Value.all_of_builtin (fun _ => Value.typesIn_of_isPlain) ?_ ?_ made
            · exact each v (List.mem_append_left _ (by simp [given]))
            · exact Value.allItems_iff.mpr fun u member => each u (List.mem_append_right _ member)
          · cases found
            exact ret result

theorem chainIf_typesIn {optional : Bool} {base : Value} {step : Value → Eval Value}
    (here : base.TypesIn p)
    (next : ∀ v, Reaches optional base v → v.TypesIn p →
      Yields (Value.TypesIn p) (outcome (step v))) :
    Yields (Value.TypesIn p) (outcome (chainIf optional base step)) := by
  cases optional with
  | false => exact next base rfl here
  | true =>
    rw [chainIf, if_pos rfl, outcome_chain]
    cases base with
    | none => exact Yields.ok here
    | some v => exact Yields.map (next v rfl here.2) fun w => Value.typesIn_intoOption
    | ref | deferred =>
      unfold optionally
      dsimp only
      split
      · rename_i content
        refine Yields.map (next _ content (Value.typesIn_content? here content)) fun w inside => ?_
        exact Value.paramsIn_optionOf inside.self
      · exact Yields.error
    | _ => exact Yields.error

theorem fieldOf_typesIn {name : String} (here : v.TypesIn p)
    (leaks : v.IsUnknown → ∀ w, store.fieldOf env v name = .ok w →
      ∀ n ∈ w.ty.params, n ∉ v.ty.params → p n = true) :
    Yields (Value.TypesIn p) (store.fieldOf env v name) := by
  intro w found
  have deferred (unknown : v.IsUnknown) : w.ty.ParamsIn p := by
    refine Ty.paramsIn_iff.mpr fun n inside => ?_
    by_cases before : n ∈ v.ty.params
    · exact Ty.paramsIn_iff.mp here.self n before
    · exact leaks unknown w found n inside before
  unfold fieldOf at found
  cases v with
  | record t fields =>
    have inside := Value.allFields_iff.mp here.2
    dsimp only at found
    repeat' split at found
    all_goals cases found
    all_goals
      rename_i taken
      exact inside _ (List.mem_of_find?_eq_some taken)
  | ref binding t =>
    have inside := deferred (.ref binding t)
    dsimp only at found
    repeat' split at found
    all_goals cases found
    all_goals exact inside
  | deferred t call =>
    have inside := deferred (.deferred t call)
    dsimp only at found
    repeat' split at found
    all_goals cases found
    all_goals exact inside
  | _ =>
    dsimp only at found
    repeat' split at found
    all_goals cases found

/-- The type of a field of a value that is not known is the declared one, with the arguments of the
type of the value put in. -/
theorem fieldOf_of_isUnknown {name : String} (unknown : v.IsUnknown)
    (found : store.fieldOf env v name = .ok w) :
    ∃ decl field, (store.normalize v.ty).path?.bind store.type? = some decl ∧
      decl.field? name = some field ∧
      w = .deferred (field.ty.substitute (decl.substFor (store.normalize v.ty)))
        (v.text ++ "." ++ name) := by
  unfold fieldOf at found
  cases unknown
  all_goals
    dsimp only at found
    split at found
    · rename_i decl field declared
      simp only [Option.bind_eq_bind, Option.bind_eq_some_iff] at declared
      obtain ⟨_, type, _, named, same⟩ := declared
      cases same
      split at found <;> cases found
      exact ⟨decl, field, Option.bind_eq_some_iff.mpr type, named, rfl⟩
    · cases found

/-- A variant has the type of its enum with all parameters. -/
theorem variantIn?_eq {segments : List String} (found : store.variantIn? env segments = some v) :
    ∃ decl name, store.typeIn? env segments.dropLast = some decl ∧ v = .variant decl.asTy name := by
  unfold variantIn? at found
  simp only [Option.bind_eq_bind, Option.bind_eq_some_iff] at found
  obtain ⟨name, -, decl, declared, found⟩ := found
  split at found
  · split at found <;> cases found
    exact ⟨decl, name, declared, rfl⟩
  · cases found

/-- The arguments of a struct are parts of the types of its fields' values. -/
theorem structArgs_paramsIn {decl : TypeDecl} {fields : List (String × Value)}
    (each : ∀ f ∈ fields, f.2.ty.ParamsIn p) : ∀ t ∈ structArgs decl fields, t.ParamsIn p := by
  have start : Ty.BindsIn p [] := fun name t found => by cases found
  intro t member
  obtain ⟨g, -, rfl⟩ := List.mem_map.mp member
  cases found : NameMap.get? g.name _ with
  | none => exact Ty.over_infer
  | some u =>
    refine List.foldlRecOn decl.fields _ start (fun s before f _ => ?_) g.name u found
    split
    · rename_i taken
      exact Ty.unify_bindsIn (each _ (List.mem_of_find?_eq_some taken)) before
    · exact before

theorem structOf_typesIn {decl : TypeDecl} {given : NameMap Value}
    (all : ∀ name v, given.get? name = some v → v.TypesIn p) :
    Yields (Value.TypesIn p) (structOf decl given) :=
  Yields.bind (mapM_fields_all all) fun _ inside =>
    Yields.ok ⟨Ty.over_named.mpr ⟨rfl, structArgs_paramsIn fun f member =>
      (Value.allFields_iff.mp inside f member).self⟩, inside⟩

/-! ### Calls by name and by path -/

section

variable {P : Value → Prop}

theorem outcome_callMethodWith {name : String} {args : List Value} {m : Method}
    (found : (store.resolveCall v.ty name (store.visibleFrom env)).value = .found m) :
    outcome (store.callMethodWith (store.runnerAt depth) env v name args) =
      store.called depth ⟨m, some v.ty, some v, args⟩ := by
  unfold callMethodWith
  simp only [Eval.outcome_bind, Eval.outcome_liftLogged, found]
  rfl

theorem callMethodWith_yields {name : String} {args : List Value}
    (next : ∀ m, (store.resolveCall v.ty name (store.visibleFrom env)).value = .found m →
      Yields P (store.called depth ⟨m, some v.ty, some v, args⟩)) :
    Yields P (outcome (store.callMethodWith (store.runnerAt depth) env v name args)) := by
  cases found : (store.resolveCall v.ty name (store.visibleFrom env)).value with
  | found m =>
    rw [outcome_callMethodWith found]
    exact next m found
  | ambiguous | notFound =>
    unfold callMethodWith
    simp only [Eval.outcome_bind, Eval.outcome_liftLogged, found]
    exact Yields.error

theorem compareEqual_yields {op : BinaryOp} {l r : Value}
    (deferred : ∀ call, P (Value.deferredBool call)) (bool : ∀ b, P (.bool b))
    (next : l.isKnown = true → r.isKnown = true → (l.isStructural && r.isStructural) = false →
      ∀ m, (store.resolveCall l.ty (if op = .eq then "eq" else "ne")
        (store.visibleFrom env)).value = .found m →
      Yields P (store.called depth ⟨m, some l.ty, some l, [r]⟩)) :
    Yields P (outcome (store.compareEqual (store.runnerAt depth) env op l r)) := by
  unfold compareEqual
  split
  · exact Yields.ok (deferred _)
  · rename_i known
    simp only [Bool.or_eq_true, Bool.not_eq_true', not_or, Bool.not_eq_false] at known
    split
    · exact Yields.ok (bool _)
    · rename_i asked
      exact callMethodWith_yields (next known.1 known.2 (by simpa using asked))

theorem callQualified_yields {segments : List String} {name : String} {vs : List Value}
    (onFirst : ∀ path byReceiver v rest m, vs = v :: rest →
      store.qualifier? env segments = some (path, byReceiver) →
      (store.resolveQualified (qualifiedTy byReceiver vs) path name).value = .found m →
      m.sig.receiver = true → Yields P (store.called depth ⟨m, some v.ty, some v, rest⟩))
    (onNothing : ∀ path byReceiver m, store.qualifier? env segments = some (path, byReceiver) →
      (store.resolveQualified (qualifiedTy byReceiver vs) path name).value = .found m →
      m.sig.receiver = false → Yields P (store.called depth
        ⟨m, (qualifiedTy byReceiver vs).or ((store.type? path).map (·.openTy)), none, vs⟩)) :
    Yields P (outcome (store.callQualified (store.runnerAt depth) env segments name vs)) := by
  have resolved {t : Option Ty} {path : String} {next : MethodResolution → Eval Value}
      (found : ∀ m, (store.resolveQualified t path name).value = .found m →
        Yields P (outcome (next (.found m))))
      (tied : ∀ candidates qualify, Yields P (outcome (next (.ambiguous candidates qualify))))
      (missing : Yields P (outcome (next .notFound))) :
      Yields P (outcome ((liftM (store.resolveQualified t path name) : Eval _) >>= next)) := by
    rw [Eval.outcome_bind, Eval.outcome_liftLogged]
    change Yields P (outcome (next (store.resolveQualified t path name).value))
    cases r : (store.resolveQualified t path name).value with
    | found m => exact found m r
    | ambiguous candidates qualify => exact tied candidates qualify
    | notFound => exact missing
  unfold callQualified
  cases qualified : store.qualifier? env segments with
  | none => exact Yields.error
  | some q =>
    obtain ⟨path, byReceiver⟩ := q
    cases byReceiver with
    | false =>
      refine resolved (fun m found => ?_) (fun _ _ => Yields.error) Yields.error
      cases receives : m.sig.receiver with
      | true =>
        cases vs with
        | nil => simp only [receives, if_true]; exact Yields.error
        | cons v rest =>
          simp only [receives, if_true]
          exact onFirst path false v rest m rfl qualified found receives
      | false =>
        simp only [receives, Bool.false_eq_true, if_false]
        exact onNothing path false m qualified found receives
    | true =>
      cases vs with
      | nil => exact Yields.error
      | cons v rest =>
        refine resolved (t := some v.ty) (fun m found => ?_) (fun _ _ => Yields.error) Yields.error
        cases receives : m.sig.receiver with
        | true =>
          simp only [receives, if_true]
          exact onFirst path true v rest m rfl qualified found receives
        | false =>
          simp only [receives, Bool.false_eq_true, if_false]
          exact onNothing path true m qualified found receives

end

/-! ### Evaluation -/

/-- An expression whose surroundings, leaks, parts and calls have types that mention certain
parameters only. -/
structure TakesIn (store : Store) (p : String → Bool) (depth : Nat) (env : Env) (e : Expr) :
    Prop where
  around : EnvAll (fun w => w.ty.ParamsIn p) env
  leaks : ∀ name, store.LeaksAt depth env e name → p name = true
  parts : ∀ part ∈ e.parts, Yields (Value.TypesIn p) (outcome (store.evalTo depth env part))
  calls : ∀ c, store.Invokes depth env e c → (∀ v ∈ c.values, v.TypesIn p) →
    Yields (Value.TypesIn p) (store.called depth c)

namespace TakesIn

/-- A part comes to a value, which is kept in mind. -/
theorem part {part : Expr} (takes : TakesIn store p depth env e) (member : part ∈ e.parts) :
    Yields (fun v => outcome (store.evalTo depth env part) = .ok v ∧ v.TypesIn p)
      (outcome (store.evalTo depth env part)) :=
  fun v found => ⟨found, takes.parts part member v found⟩

/-- Several parts come to values, which are kept in mind. -/
theorem all {es : List Expr} (takes : TakesIn store p depth env e) (inside : es ⊆ e.parts) :
    Yields (fun vs => outcome (store.evalAll (store.runnerAt depth) env es) = .ok vs ∧
      ∀ v ∈ vs, v.TypesIn p) (outcome (store.evalAll (store.runnerAt depth) env es)) := by
  have each (part : Expr) (member : part ∈ es) :
      Yields (Value.TypesIn p) (outcome (store.evalWith (store.runnerAt depth) env part)) := by
    rw [← evalTo_eq]
    exact takes.parts part (inside member)
  exact fun vs found => ⟨found, Value.allItems_iff.mp (evalAll_all each vs found)⟩

theorem path {segments : List String} (takes : TakesIn store p depth env (.path segments)) :
    Yields (Value.TypesIn p) (outcome (store.evalTo depth env (.path segments))) := by
  rw [evalTo_eq]
  simp only [evalWith, Eval.outcome_orElse]
  cases found : store.variantIn? env segments with
  | none => exact Yields.error
  | some v =>
    have typed : v.ty.ParamsIn p :=
      Ty.paramsIn_iff.mpr fun name inside => takes.leaks name (.variant found inside)
    obtain ⟨decl, name, -, rfl⟩ := variantIn?_eq found
    exact Yields.ok typed

theorem field {base : Expr} {name : String} {optional : Bool}
    (takes : TakesIn store p depth env (.field base name optional)) :
    Yields (Value.TypesIn p) (outcome (store.evalTo depth env (.field base name optional))) := by
  rw [evalTo_eq]
  simp only [evalWith, Eval.outcome_bind, ← evalTo_eq]
  refine Yields.bind (takes.part List.mem_cons_self) fun b here => ?_
  refine chainIf_typesIn here.2 fun v reached inside => ?_
  exact fieldOf_typesIn inside fun unknown w found n mentions before =>
    takes.leaks n (.field here.1 reached unknown found mentions before)

theorem method {receiver : Expr} {name : String} {args : List Expr} {optional : Bool}
    (takes : TakesIn store p depth env (.method receiver name args optional)) :
    Yields (Value.TypesIn p)
      (outcome (store.evalTo depth env (.method receiver name args optional))) := by
  rw [evalTo_eq]
  simp only [evalWith, Eval.outcome_bind, ← evalTo_eq]
  refine Yields.bind (takes.part List.mem_cons_self) fun b here => ?_
  refine Yields.bind (takes.all (List.subset_cons_self _ _)) fun vs each => ?_
  refine chainIf_typesIn here.2 fun v reached inside => callMethodWith_yields fun m found => ?_
  exact takes.calls _ (.method here.1 each.1 reached found)
    (List.forall_mem_cons.mpr ⟨inside, each.2⟩)

theorem call {callee : List String} {args : List Expr}
    (takes : TakesIn store p depth env (.call callee args)) :
    Yields (Value.TypesIn p) (outcome (store.evalTo depth env (.call callee args))) := by
  rw [evalTo_eq]
  simp only [evalWith, Eval.outcome_bind]
  refine Yields.bind (takes.all (List.Subset.refl _)) fun vs here => ?_
  obtain ⟨evaluated, each⟩ := here
  unfold Store.call
  split
  · exact Yields.ok (Value.typesIn_some (each _ List.mem_cons_self))
  · exact Yields.error
  · exact Yields.error
  · rename_i notSingle notEmpty _
    have several : 2 ≤ callee.length := by
      rcases callee with _ | ⟨only, _ | _⟩
      · exact absurd rfl notEmpty
      · exact absurd rfl (notSingle only)
      · simp
    refine callQualified_yields (fun path byReceiver v rest m first qualified found receives => ?_)
      fun path byReceiver m qualified found receives => ?_
    · subst first
      exact takes.calls _ (.onFirst several evaluated qualified found receives) each
    · exact takes.calls _ (.onNothing several evaluated qualified found receives) each

/-- Operators that decide give truth values, whatever they are applied to. -/
theorem decision {op : BinaryOp} {left right : Expr} (decides : op.decides = true) :
    Yields (Value.TypesIn p) (outcome (store.evalTo depth env (.binary op left right))) := by
  rw [evalTo_eq]
  cases op with
  | and | or =>
    simp only [evalWith, Eval.outcome_bind]
    refine Yields.bind Yields.trivial fun l _ => Yields.bind Yields.trivial fun lTruth _ => ?_
    split
    · exact Yields.ok (Value.typesIn_of_isPlain rfl)
    · simp only [Eval.outcome_bind]
      refine Yields.bind Yields.trivial fun r _ => Yields.bind Yields.trivial fun rTruth _ => ?_
      exact Yields.ok (Value.typesIn_join _ _ _ _ _ _)
  | lt | le | gt | ge =>
    simp only [evalWith, Eval.outcome_bind, Eval.outcome_liftExcept]
    exact Yields.bind Yields.trivial fun l _ => Yields.bind Yields.trivial fun r _ w found =>
      Value.typesIn_of_compareBy found
  | _ => cases decides

theorem binary {op : BinaryOp} {left right : Expr}
    (takes : TakesIn store p depth env (.binary op left right)) :
    Yields (Value.TypesIn p) (outcome (store.evalTo depth env (.binary op left right))) := by
  by_cases decides : op.decides = true
  · exact decision decides
  have inside : [left, right] ⊆ (Expr.binary op left right).parts :=
    (if_neg decides : (Expr.binary op left right).parts = _) ▸ List.Subset.refl _
  have first := takes.part (inside List.mem_cons_self)
  have second := takes.part (inside (List.mem_cons_of_mem _ List.mem_cons_self))
  rw [evalTo_eq]
  cases op with
  | eq | ne =>
    simp only [evalWith, Eval.outcome_bind, ← evalTo_eq]
    refine Yields.bind first fun l here => Yields.bind second fun r there => ?_
    refine compareEqual_yields (fun call => Value.typesIn_deferredBool call)
      (fun b => Value.typesIn_of_isPlain rfl) fun known known' asked m found => ?_
    exact takes.calls _ (.equality (by simp) here.1 there.1 known known' asked found)
      (List.forall_mem_cons.mpr ⟨here.2, List.forall_mem_singleton.mpr there.2⟩)
  | add | sub | mul | div | rem =>
    simp only [evalWith, Eval.outcome_bind, Eval.outcome_liftExcept, ← evalTo_eq]
    exact Yields.bind first fun l here => Yields.bind second fun r there w found =>
      Value.typesIn_of_calculate here.2 there.2 found
  | _ => exact absurd rfl decides

theorem record {path : List String} {fields : List (String × Expr)}
    (takes : TakesIn store p depth env (.record path fields)) :
    Yields (Value.TypesIn p) (outcome (store.evalTo depth env (.record path fields))) := by
  have start (name : String) (v : Value) (found : NameMap.get? name [] = some v) : v.TypesIn p := by
    cases found
  have each : ∀ f ∈ fields,
      Yields (Value.TypesIn p) (outcome (store.evalWith (store.runnerAt depth) env f.2)) := by
    intro f member
    rw [← evalTo_eq]
    exact takes.parts f.2 (List.mem_map_of_mem member)
  rw [evalTo_eq]
  simp only [evalWith, Eval.outcome_bind]
  refine Yields.bind Yields.trivial fun decl _ => ?_
  split
  · exact Yields.error
  · simp only [Eval.outcome_bind, Eval.outcome_liftExcept]
    exact Yields.bind (evalFields_all start each) fun given all => structOf_typesIn all

/-- The value of an expression takes the parameters in its types from these. -/
theorem yields (takes : TakesIn store p depth env e) :
    Yields (Value.TypesIn p) (outcome (store.evalTo depth env e)) := by
  cases e with
  | lit l =>
    rw [evalTo_eq]
    cases l with
    | none => exact Yields.ok Value.typesIn_none
    | bool | int | float | str => exact Yields.ok (Value.typesIn_of_isPlain rfl)
  | ident name =>
    rw [evalTo_eq]
    simp only [evalWith, Eval.outcome_orElse]
    cases found : env.vars.get? name with
    | none => exact Yields.error
    | some v => exact Yields.ok (takes.around.vars name v found)
  | self =>
    rw [evalTo_eq]
    simp only [evalWith, Eval.outcome_orElse]
    cases given : env.self with
    | none => exact Yields.error
    | some v => exact Yields.ok (takes.around.self v given)
  | path segments => exact takes.path
  | field base name optional => exact takes.field
  | method receiver name args optional => exact takes.method
  | call callee args => exact takes.call
  | unary op operand =>
    rw [evalTo_eq]
    simp only [evalWith, Eval.outcome_bind, Eval.outcome_liftExcept, ← evalTo_eq]
    exact Yields.bind (takes.part List.mem_cons_self) fun v here w found =>
      Value.typesIn_of_unary here.2 found
  | binary op left right => exact takes.binary
  | list items =>
    rw [evalTo_eq]
    simp only [evalWith, Eval.outcome_bind]
    exact Yields.bind (takes.all (List.Subset.refl _)) fun vs each =>
      Yields.ok (Value.typesIn_list (Value.allItems_iff.mpr each.2))
  | record path fields => exact takes.record
  | closure params body source =>
    rw [evalTo_eq]
    exact Yields.ok (Value.typesIn_closure params source)

end TakesIn

/-- The parameters in the types of a value are those that are around and those that leak. -/
theorem evalTo_typesIn {depth : Nat} {env : Env} (around : EnvAll (fun w => w.ty.ParamsIn p) env)
    (e : Expr) (leaks : ∀ name, store.Leaks depth env e name → p name = true) :
    Yields (Value.TypesIn p) (outcome (store.evalTo depth env e)) := by
  -- Bodies run at a smaller depth, and the parts of an expression at the same.
  induction depth using Nat.strongRecOn generalizing env e with
  | ind depth deeper =>
  induction e using Expr.inductionOnParts with
  | step e ih =>
  refine TakesIn.yields ⟨around, fun name leak => leaks name (.here leak),
    fun part member => ih part member fun name leak => leaks name (.part member leak),
    fun c invokes each => called_typesIn each (fun result => ?_) fun d body below runs => ?_⟩
  · refine Ty.paramsIn_iff.mpr fun name inside => ?_
    by_cases before : ∃ v ∈ c.values, name ∈ v.ty.params
    · obtain ⟨v, member, mentions⟩ := before
      exact Ty.paramsIn_iff.mp (each v member).self name mentions
    · refine leaks name (.here (.call invokes result inside fun v member mentions => ?_))
      exact before ⟨v, member, mentions⟩
  · subst below
    have seen : EnvAll (fun w => w.ty.ParamsIn p) c.env :=
      bodyEnv_all (fun v given => each v (by simp [Invocation.values, given]))
        (Value.allItems_iff.mpr fun v member => each v (by simp [Invocation.values, member]))
    exact deeper d (Nat.lt_succ_self d) seen body fun name leak =>
      leaks name (.body invokes runs leak)

/-! ### What leaks at an expression -/

theorem call_of_two_le {runner : Runner} {callee : List String} (several : 2 ≤ callee.length)
    (vs : List Value) : store.call runner env callee vs =
      store.callQualified runner env callee.dropLast (callee.getLast?.getD "") vs := by
  rcases callee with _ | ⟨only, _ | _⟩
  · cases several
  · exact absurd several (by simp)
  · unfold Store.call
    split <;> simp_all

/-- An optional step keeps the parameters in the type of what is put off. -/
theorem chainIf_keeps {optional : Bool} {base : Value} {step : Value → Eval Value} {name : String}
    (reached : Reaches optional base v) (result : outcome (step v) = .ok w) (unknown : w.IsUnknown)
    (inside : name ∈ w.ty.params) :
    Yields (fun v => name ∈ v.ty.params) (outcome (chainIf optional base step)) := by
  have option (t : Ty) (inside : name ∈ t.params) : name ∈ (Value.optionOf t).params := by
    unfold Value.optionOf
    split
    · exact inside
    · simpa [Ty.params, Ty.paramsList] using inside
  cases optional with
  | false =>
    obtain rfl : base = v := reached
    change Yields _ (outcome (step base))
    rw [result]
    exact Yields.ok inside
  | true =>
    rw [chainIf, if_pos rfl, outcome_chain]
    replace reached : base.content? = some v := reached
    cases base with
    | some u =>
      cases reached
      rw [optionally, result]
      have present : Value.intoOption w = .some w := by cases unknown <;> rfl
      refine Yields.ok ?_
      rw [present]
      simpa [Value.ty, Ty.std, Ty.params, Ty.paramsList] using inside
    | ref | deferred =>
      rw [optionally, reached]
      dsimp only
      rw [result]
      exact Yields.ok (option _ inside)
    | _ => cases reached

/-- What leaks at an expression stands in the type of its value. -/
theorem leaksAt_yields {name : String} (leak : store.LeaksAt depth env e name) :
    Yields (fun v => name ∈ v.ty.params) (outcome (store.evalTo depth env e)) := by
  cases leak with
  | variant found inside =>
    simp only [evalTo_eq, evalWith, Eval.outcome_orElse, found]
    exact Yields.ok inside
  | field evaluated reached unknown found inside _ =>
    rw [evalTo_eq] at evaluated ⊢
    simp only [evalWith, Eval.outcome_bind, evaluated]
    obtain ⟨_, _, -, -, rfl⟩ := fieldOf_of_isUnknown unknown found
    exact chainIf_keeps reached found (.deferred _ _) inside
  | @call _ c _ invokes result inside _ =>
    have kept : Yields (fun v => name ∈ v.ty.params) (store.called depth c) := by
      rw [result]
      exact Yields.ok inside
    cases invokes with
    | method evaluated each reached found =>
      rw [evalTo_eq] at evaluated ⊢
      simp only [evalWith, Eval.outcome_bind, evaluated, each]
      have stepped := (outcome_callMethodWith found).trans result
      exact chainIf_keeps reached stepped (.deferred _ _) inside
    | @equality op _ _ l r m comparison left right known known' asked found =>
      rw [evalTo_eq] at left right ⊢
      have compared : outcome (store.compareEqual (store.runnerAt depth) env op l r) =
          store.called depth ⟨m, some l.ty, some l, [r]⟩ := by
        simp only [compareEqual, known, known', asked, Bool.not_true, Bool.or_self,
          Bool.false_eq_true, if_false]
        exact outcome_callMethodWith found
      rw [← compared] at kept
      rcases comparison with rfl | rfl
      all_goals
        simp only [evalWith, Eval.outcome_bind, left, right]
        exact kept
    | onFirst several each qualified found receives =>
      rw [evalTo_eq]
      simp only [evalWith, Eval.outcome_bind, each]
      change Yields _ (outcome (store.call _ _ _ _))
      rw [call_of_two_le several]
      refine callQualified_yields (fun path' byReceiver' v' rest m' first same found' _ => ?_)
        fun path' byReceiver' m' same found' receives' => ?_
      all_goals
        cases qualified.symm.trans same
        cases found.symm.trans found'
      · cases first
        exact kept
      · cases receives.symm.trans receives'
    | onNothing several each qualified found receives =>
      rw [evalTo_eq]
      simp only [evalWith, Eval.outcome_bind, each]
      change Yields _ (outcome (store.call _ _ _ _))
      rw [call_of_two_le several]
      refine callQualified_yields
        (fun path' byReceiver' v' rest m' first same found' receives' => ?_)
        fun path' byReceiver' m' same found' _ => ?_
      all_goals
        cases qualified.symm.trans same
        cases found.symm.trans found'
      · cases receives.symm.trans receives'
      · exact kept

theorem variantIn?_params {segments : List String}
    (found : store.variantIn? env segments = some v) : ∃ decl, store.typeIn? env segments.dropLast = some decl ∧
      v.ty.params = Generic.names decl.generics := by
  obtain ⟨decl, name, declared, rfl⟩ := variantIn?_eq found
  refine ⟨decl, declared, ?_⟩
  have list (generics : List Generic) :
      Ty.paramsList (generics.map fun g => .param g.name) = Generic.names generics := by
    induction generics with
    | nil => rfl
    | cons g rest ih => exact congrArg (g.name :: ·) ih
  exact list decl.generics

/-- **Parameters and evaluation.** Where no value that is around has a parameter in its types, the
parameters in the types of a value are those that leak: at the variant of an enum with parameters,
at a field of a value that is not known if the declared type mentions a parameter without an
argument, or at a call that is put off if its result type mentions a parameter that the types of its
receiver and of its arguments do not mention. Wherever this happens, the parameter stands in the type
of the value of that expression. -/
theorem parameters_leak (store : Store) {env : Env} {e : Expr} {v : Value}
    (closed : EnvAll (fun w => w.ty.params = []) env) (found : outcome (store.eval env e) = .ok v) :
    v.All (fun w => ∀ name ∈ w.ty.params, store.Leaks store.maxDepth env e name) ∧
    (∀ name, store.LeaksAt store.maxDepth env e name → name ∈ v.ty.params) ∧
    (∀ segments u, store.variantIn? env segments = some u →
      ∃ decl, store.typeIn? env segments.dropLast = some decl ∧
        u.ty.params = Generic.names decl.generics) ∧
    ∀ u field w, u.IsUnknown → store.fieldOf env u field = .ok w →
      ∃ decl declared, (store.normalize u.ty).path?.bind store.type? = some decl ∧
        decl.field? field = some declared ∧ ∀ name, name ∈ w.ty.params ↔
          ∃ n ∈ declared.ty.params, name ∈
            ((Ty.param n).substitute (decl.substFor (store.normalize u.ty))).params := by
  classical
  refine ⟨?_, fun name leak => leaksAt_yields leak v found, fun _ _ => variantIn?_params,
    fun u field w unknown taken => ?_⟩
  · let p (name : String) : Bool := decide (store.Leaks store.maxDepth env e name)
    have around : EnvAll (fun w => w.ty.ParamsIn p) env := by
      have none (w : Value) (nothing : w.ty.params = []) : w.ty.ParamsIn p :=
        Ty.paramsIn_iff.mpr fun name inside => by rw [nothing] at inside; cases inside
      exact ⟨fun w given => (closed.self w given).mono none,
        fun name w bound => (closed.vars name w bound).mono none⟩
    have inside := evalTo_typesIn around e (fun name leak => decide_eq_true leak) v found
    exact inside.mono fun w typed name mentions =>
      of_decide_eq_true (Ty.paramsIn_iff.mp typed name mentions)
  · obtain ⟨decl, declared, type, named, rfl⟩ := fieldOf_of_isUnknown unknown taken
    exact ⟨decl, declared, type, named, fun name => Ty.mem_params_substitute⟩

/-- A drawer whose type does not tell what it holds, with a wildcard and without an argument. -/
def openDrawer : Env where
  module := "shop"
  vars := [("any", .ref "any" (.named "shop::Drawer" [.infer])),
    ("drawer", .ref "drawer" (.named "shop::Drawer" []))]

theorem openDrawer_closed : EnvAll (fun w => w.ty.params = []) openDrawer where
  self := nofun
  vars name v found := by
    have bound := NameMap.mem_of_get? found
    simp only [openDrawer, List.mem_cons, List.not_mem_nil, or_false, Prod.mk.injEq] at bound
    rcases bound with ⟨-, rfl⟩ | ⟨-, rfl⟩ <;> rfl

/-- What lies on top of such a drawer is of a type that only the declaration knows. -/
theorem parameters_leak_drawer : EnvAll (fun w => w.ty.params = []) openDrawer ∧
    drawerStore.Leaks drawerStore.maxDepth openDrawer (.field (.ident "drawer") "top" false) "T" := by
  have leaks := (parameters_leak drawerStore openDrawer_closed
    (e := .field (.ident "drawer") "top" false) rfl).1
  exact ⟨openDrawer_closed, leaks "T" (List.mem_singleton.mpr rfl)⟩

/-- A document with drawers for values of any type, and with modes. -/
def drawers : Document where
  module := "shop"
  origin := "shop"
  version := supportedVersion
  kind := .struct
  types := [("Drawer", ⟨["T"], [("top", .short "T")], [], none, none, none⟩),
    ("Mode", ⟨["T"], [], ["Fast", "Slow"], none, none, none⟩)]
  impls := [{
    target := "Drawer<T>"
    traitRef := none
    generics := ["T"]
    bounds := []
    assoc := []
    methods := [("fn last(self) -> T", "extern")]
    isConst := false
    explain := none }]

/-- The value of a variant, a field or a call may have a type with a parameter of the declaration. -/
theorem drawers_leak : ∃ s, (load [drawers] 4).value = .ok s ∧
    EnvAll (fun w => w.ty.params = []) openDrawer ∧
    s.typeOf openDrawer (.path ["Mode", "Fast"]) = .ok (.named "shop::Mode" [.param "T"]) ∧
    s.typeOf openDrawer (.field (.ident "drawer") "top" false) = .ok (.param "T") ∧
    s.typeOf openDrawer (.method (.ident "any") "last" [] false) = .ok (.param "T") := by
  have made : (load [drawers] 4).value.toOption.map (fun s =>
      ((s.typeOf openDrawer (.path ["Mode", "Fast"])).toOption,
        (s.typeOf openDrawer (.field (.ident "drawer") "top" false)).toOption,
        (s.typeOf openDrawer (.method (.ident "any") "last" [] false)).toOption)) =
      some (some (.named "shop::Mode" [.param "T"]), some (.param "T"), some (.param "T")) := by
    decide +kernel
  obtain ⟨s, loaded, types⟩ := Option.map_eq_some_iff.mp made
  obtain ⟨variant, rest⟩ := Prod.mk.inj types
  obtain ⟨field, call⟩ := Prod.mk.inj rest
  exact ⟨s, ok_of_toOption loaded, openDrawer_closed, ok_of_toOption variant, ok_of_toOption field,
    ok_of_toOption call⟩

end Store
end Pipeline

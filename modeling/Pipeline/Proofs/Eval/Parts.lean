import Pipeline.Proofs.Data.NameMap
import Pipeline.Proofs.Eval.Outcome
import Pipeline.Proofs.Value.Parts

/-!
# Evaluation makes no references

A condition that values can violate only by being references or records without a type holds of all
parts of the value of an expression, if it holds of the values that the expression reads.
-/

set_option autoImplicit false
set_option relaxedAutoImplicit false

namespace Pipeline.Store

open Eval (outcome Yields)
open Value (All AllItems AllFields Lenient)

variable {store : Store} {runner : Runner} {P : Value → Prop}

/-- A condition holds of all values in the surroundings. -/
structure EnvAll (P : Value → Prop) (env : Env) : Prop where
  self : ∀ v, env.self = some v → All P v
  vars : ∀ name v, env.vars.get? name = some v → All P v

/-- A condition holds of all parts of what bodies of methods make of values for which it holds. -/
def RunsAll (P : Value → Prop) (runner : Runner) : Prop :=
  ∀ run, runner = some run → ∀ env e, EnvAll P env → Yields (All P) (outcome (run env e))

/-! ### Fields and structs -/

theorem fieldOf_all (lenient : Lenient P) {env : Env} {v : Value} {name : String} (all : All P v) :
    Yields (All P) (store.fieldOf env v name) := by
  intro w found
  unfold fieldOf at found
  cases v with
  | record t fields =>
    have inside := Value.allFields_iff.mp all.2
    dsimp only at found
    repeat' split at found
    all_goals cases found
    all_goals
      rename_i taken
      exact inside _ (List.mem_of_find?_eq_some taken)
  | ref | deferred =>
    dsimp only at found
    repeat' split at found
    all_goals cases found
    all_goals exact Value.all_deferred lenient _ _
  | _ =>
    dsimp only at found
    repeat' split at found
    all_goals cases found

theorem mapM_fields_all {decl : TypeDecl} {fields : List FieldDecl} {given : NameMap Value}
    (all : ∀ name v, given.get? name = some v → All P v) :
    Yields (AllFields P)
      (fields.mapM fun f => match given.get? f.name with
        | some v => (.ok (f.name, v) : Except EvalError (String × Value))
        | none => .error (.type (.missingField f.name decl.path))) := by
  induction fields with
  | nil => exact Yields.ok trivial
  | cons f rest ih =>
    simp only [List.mapM_cons]
    refine Yields.bind (P := fun p => All P p.2) ?_ fun p here => ?_
    · cases named : given.get? f.name with
      | none => exact Yields.error
      | some v => exact Yields.ok (all f.name v named)
    · exact Yields.bind ih fun others there => Yields.ok ⟨here, there⟩

theorem structOf_all (lenient : Lenient P) {decl : TypeDecl} {given : NameMap Value}
    (all : ∀ name v, given.get? name = some v → All P v) :
    Yields (All P) (structOf decl given) :=
  Yields.bind (mapM_fields_all all) fun _ inside => Yields.ok ⟨lenient _ rfl rfl, inside⟩

theorem variantIn_all (lenient : Lenient P) {env : Env} {segments : List String} {v : Value}
    (found : store.variantIn? env segments = some v) : All P v := by
  unfold variantIn? at found
  simp only [bind, Option.bind_eq_some_iff] at found
  obtain ⟨name, -, decl, -, found⟩ := found
  split at found
  · split at found <;> cases found
    exact lenient _ rfl rfl
  · cases found

/-! ### Calls -/

theorem bodyEnv_all {m : Method} {selfTy : Option Ty} {receiver : Option Value}
    {args : List Value} (here : ∀ v, receiver = some v → All P v) (each : AllItems P args) :
    EnvAll P (bodyEnv m selfTy receiver args) where
  self := here
  vars name v found := by
    have member := List.of_mem_zip (NameMap.mem_of_get?_ofList found)
    exact Value.allItems_iff.mp each v member.2

theorem invoke_all (lenient : Lenient P) (runs : RunsAll P runner)
    {m : Method} {selfTy : Option Ty} {receiver : Option Value} {args : List Value}
    (here : ∀ v, receiver = some v → All P v) (each : AllItems P args) :
    Yields (All P) (outcome (store.invoke runner m selfTy receiver args)) := by
  unfold invoke
  cases runner with
  | none => exact Yields.error
  | some run =>
    dsimp only
    split
    · exact Yields.error
    · split
      · exact Yields.ok (Value.all_deferred lenient _ _)
      · split
        · exact runs run rfl _ _ (bodyEnv_all here each)
        · split
          · rename_i r found
            obtain ⟨v, given, made⟩ := Option.bind_eq_some_iff.mp found
            intro w result
            rw [Eval.outcome_liftExcept] at result
            rw [result] at made
            exact Value.all_of_builtin (fun _ => Value.all_of_isPlain lenient) (here v given) each made
          · exact Yields.ok (Value.all_deferred lenient _ _)

theorem callMethodWith_all (lenient : Lenient P) (runs : RunsAll P runner)
    {env : Env} {receiver : Value} {name : String} {args : List Value} (here : All P receiver)
    (each : AllItems P args) :
    Yields (All P) (outcome (store.callMethodWith runner env receiver name args)) := by
  unfold callMethodWith
  simp only [Eval.outcome_bind]
  refine Yields.bind Yields.trivial fun found _ => ?_
  cases found with
  | found m => exact invoke_all lenient runs (fun v same => by cases same; exact here) each
  | ambiguous candidates qualified => exact Yields.error
  | notFound => exact Yields.error

theorem chainIf_all (lenient : Lenient P) {optional : Bool} {base : Value}
    {step : Value → Eval Value} (here : All P base)
    (next : ∀ v, All P v → Yields (All P) (outcome (step v))) :
    Yields (All P) (outcome (chainIf optional base step)) := by
  cases optional with
  | false => exact next base here
  | true =>
    change Yields (All P) (outcome (chain base step))
    cases base with
    | none => exact Yields.ok here
    | some v =>
      simp only [chain, Eval.outcome_map]
      exact Yields.map (next v here.2) fun _ => Value.all_intoOption lenient
    | ref | deferred =>
      unfold chain
      dsimp only
      split
      · simp only [Eval.outcome_bind]
        exact Yields.bind Yields.trivial fun _ _ => Yields.ok (Value.all_deferred lenient _ _)
      · exact Yields.error
    | _ => exact Yields.error

theorem compareEqual_all (lenient : Lenient P) (runs : RunsAll P runner)
    {env : Env} {op : BinaryOp} {l r : Value} (left : All P l) (right : All P r) :
    Yields (All P) (outcome (store.compareEqual runner env op l r)) := by
  unfold compareEqual
  split
  · exact Yields.ok (Value.all_deferred lenient _ _)
  · split
    · exact Yields.ok (Value.all_bool lenient _)
    · exact callMethodWith_all lenient runs left ⟨right, trivial⟩

theorem callQualified_all (lenient : Lenient P) (runs : RunsAll P runner)
    {env : Env} {segments : List String} {name : String} {args : List Value}
    (each : AllItems P args) :
    Yields (All P) (outcome (store.callQualified runner env segments name args)) := by
  unfold callQualified
  simp only [Eval.outcome_bind]
  refine Yields.bind Yields.trivial fun q _ => ?_
  split
  all_goals
    simp only [Eval.outcome_bind]
    refine Yields.bind Yields.trivial fun receiverTy _ => ?_
    refine Yields.bind Yields.trivial fun found _ => ?_
    cases found with
    | ambiguous candidates qualified => exact Yields.error
    | notFound => exact Yields.error
    | found m =>
      dsimp only
      split
      · cases args with
        | nil => exact Yields.error
        | cons receiver rest =>
          exact invoke_all lenient runs (fun v same => by cases same; exact each.1) each.2
      · exact invoke_all lenient runs nofun each

theorem call_all (lenient : Lenient P) (runs : RunsAll P runner)
    {env : Env} {callee : List String} {args : List Value} (each : AllItems P args) :
    Yields (All P) (outcome (store.call runner env callee args)) := by
  unfold call
  split
  · exact Yields.ok (Value.all_some lenient each.1)
  · exact Yields.error
  · exact Yields.error
  · exact callQualified_all lenient runs each

/-! ### Evaluation -/

theorem mem_readsList {es : List Expr} {name : String} :
    name ∈ Expr.readsList es ↔ ∃ e ∈ es, name ∈ e.reads := by
  induction es with
  | nil => simp [Expr.readsList]
  | cons e rest ih => simp [Expr.readsList, ih]

theorem mem_readsFields {fields : List (String × Expr)} {name : String} :
    name ∈ Expr.readsFields fields ↔ ∃ f ∈ fields, name ∈ f.2.reads := by
  induction fields with
  | nil => simp [Expr.readsFields]
  | cons f rest ih => simp [Expr.readsFields, ih]

theorem evalAll_all {env : Env} {es : List Expr}
    (each : ∀ e ∈ es, Yields (All P) (outcome (store.evalWith runner env e))) :
    Yields (AllItems P) (outcome (store.evalAll runner env es)) := by
  induction es with
  | nil => exact Yields.ok trivial
  | cons e rest ih =>
    rw [List.forall_mem_cons] at each
    simp only [evalAll, Eval.outcome_bind]
    refine Yields.bind each.1 fun v here => ?_
    exact Yields.bind (ih each.2) fun vs there => Yields.ok ⟨here, there⟩

theorem evalFields_all {env : Env} {decl : TypeDecl} {given : NameMap Value}
    {fields : List (String × Expr)} (all : ∀ name v, given.get? name = some v → All P v)
    (each : ∀ f ∈ fields, Yields (All P) (outcome (store.evalWith runner env f.2))) :
    Yields (fun given : NameMap Value => ∀ name v, given.get? name = some v → All P v)
      (outcome (store.evalFields runner env decl given fields)) := by
  induction fields generalizing given with
  | nil => exact Yields.ok all
  | cons f rest ih =>
    rw [List.forall_mem_cons] at each
    simp only [evalFields, Eval.outcome_bind]
    refine Yields.bind Yields.trivial fun _ _ => ?_
    refine Yields.bind each.1 fun v here => ih (fun name w found => ?_) each.2
    rw [NameMap.get?_insert] at found
    split at found
    · cases found
      exact here
    · exact all name w found

/-- The value of an expression is made of values that it reads. -/
theorem evalWith_all (lenient : Lenient P) (runs : RunsAll P runner)
    {env : Env} (self : ∀ v, env.self = some v → All P v) (e : Expr)
    (vars : ∀ name ∈ e.reads, ∀ v, env.vars.get? name = some v → All P v) :
    Yields (All P) (outcome (store.evalWith runner env e)) := by
  induction e using Expr.inductionOn with
  | lit l => cases l <;> exact Yields.ok (lenient _ rfl rfl)
  | ident name =>
    simp only [evalWith, Eval.outcome_orElse]
    cases found : env.vars.get? name with
    | none => exact Yields.error
    | some v => exact Yields.ok (vars name List.mem_cons_self v found)
  | self =>
    simp only [evalWith, Eval.outcome_orElse]
    cases given : env.self with
    | none => exact Yields.error
    | some v => exact Yields.ok (self v given)
  | path segments =>
    simp only [evalWith, Eval.outcome_orElse]
    cases found : store.variantIn? env segments with
    | none => exact Yields.error
    | some v => exact Yields.ok (variantIn_all lenient found)
  | field base name optional ih =>
    simp only [evalWith, Eval.outcome_bind]
    exact Yields.bind (ih vars) fun v here =>
      chainIf_all lenient here fun _ => fieldOf_all lenient
  | method receiver name args optional ih ihs =>
    have first : ∀ n ∈ receiver.reads, ∀ v, env.vars.get? n = some v → All P v :=
      fun n member => vars n (List.mem_append_left _ member)
    have others : ∀ e ∈ args, Yields (All P) (outcome (store.evalWith runner env e)) :=
      fun e inside => ihs e inside fun n member =>
        vars n (List.mem_append_right _ (mem_readsList.mpr ⟨e, inside, member⟩))
    simp only [evalWith, Eval.outcome_bind]
    refine Yields.bind (ih first) fun v here => ?_
    refine Yields.bind (evalAll_all others) fun vs each => ?_
    exact chainIf_all lenient here fun _ here => callMethodWith_all lenient runs here each
  | call callee args ihs =>
    have others : ∀ e ∈ args, Yields (All P) (outcome (store.evalWith runner env e)) :=
      fun e inside => ihs e inside fun n member => vars n (mem_readsList.mpr ⟨e, inside, member⟩)
    simp only [evalWith, Eval.outcome_bind]
    exact Yields.bind (evalAll_all others) fun vs each => call_all lenient runs each
  | unary op operand ih =>
    simp only [evalWith, Eval.outcome_bind, Eval.outcome_liftExcept]
    exact Yields.bind (ih vars) fun v _ w found => Value.all_of_unary lenient found
  | binary op left right ihl ihr =>
    have first := ihl fun n member => vars n (List.mem_append_left _ member)
    have second := ihr fun n member => vars n (List.mem_append_right _ member)
    simp only [evalWith, Eval.outcome_bind]
    refine Yields.bind first fun l here => ?_
    cases op with
    | and | or =>
      simp only [Eval.outcome_bind]
      refine Yields.bind Yields.trivial fun lTruth _ => ?_
      split
      · exact Yields.ok (Value.all_bool lenient _)
      · simp only [Eval.outcome_bind]
        refine Yields.bind second fun r _ => ?_
        exact Yields.bind Yields.trivial fun rTruth _ =>
          Yields.ok (Value.all_join lenient _ _ _ _ _ _)
    | eq | ne =>
      simp only [Eval.outcome_bind]
      exact Yields.bind second fun r there => compareEqual_all lenient runs here there
    | lt | le | gt | ge =>
      simp only [Eval.outcome_bind, Eval.outcome_liftExcept]
      exact Yields.bind second fun r _ w found => Value.all_of_compareBy lenient found
    | add | sub | mul | div | rem =>
      simp only [Eval.outcome_bind, Eval.outcome_liftExcept]
      exact Yields.bind second fun r _ w found => Value.all_of_calculate lenient found
  | list items ihs =>
    have others : ∀ e ∈ items, Yields (All P) (outcome (store.evalWith runner env e)) :=
      fun e inside => ihs e inside fun n member => vars n (mem_readsList.mpr ⟨e, inside, member⟩)
    simp only [evalWith, Eval.outcome_bind]
    exact Yields.bind (evalAll_all others) fun vs each => Yields.ok (Value.all_list lenient each)
  | record path fields ihs =>
    have others : ∀ f ∈ fields, Yields (All P) (outcome (store.evalWith runner env f.2)) :=
      fun f inside => ihs f inside fun n member => vars n (mem_readsFields.mpr ⟨f, inside, member⟩)
    simp only [evalWith, Eval.outcome_bind]
    refine Yields.bind Yields.trivial fun decl _ => ?_
    split
    · exact Yields.error
    · simp only [Eval.outcome_bind, Eval.outcome_liftExcept]
      exact Yields.bind (evalFields_all nofun others) fun given all => structOf_all lenient all
  | closure params body source ih => exact Yields.ok (lenient _ rfl rfl)

theorem evalTo_all (lenient : Lenient P) (depth : Nat) {env : Env}
    (self : ∀ v, env.self = some v → All P v) (e : Expr)
    (vars : ∀ name ∈ e.reads, ∀ v, env.vars.get? name = some v → All P v) :
    Yields (All P) (outcome (store.evalTo depth env e)) := by
  induction depth generalizing env e with
  | zero => exact evalWith_all lenient (fun run same => by cases same) self e vars
  | succ depth ih =>
    refine evalWith_all lenient (fun run same env e all => ?_) self e vars
    cases same
    exact ih all.self e fun name _ => all.vars name

theorem eval_all (lenient : Lenient P) {env : Env} (self : ∀ v, env.self = some v → All P v)
    {e : Expr} (vars : ∀ name ∈ e.reads, ∀ v, env.vars.get? name = some v → All P v) :
    Yields (All P) (outcome (store.eval env e)) :=
  evalTo_all lenient store.maxDepth self e vars

end Pipeline.Store

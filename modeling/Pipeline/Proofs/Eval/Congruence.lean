import Pipeline.Proofs.Eval.Outcome
import Pipeline.Proofs.Induction

/-!
# Evaluations side by side

The same expression is evaluated twice, by other runners or in other stores. A relation between
outcomes that is carried from each evaluation to the next one holds of the two results, if it holds
wherever a method or a function is called.
-/

set_option autoImplicit false
set_option relaxedAutoImplicit false

namespace Pipeline

open Eval (outcome)

namespace Eval

variable {α β : Type} {R : {α : Type} → Except EvalError α → Except EvalError α → Prop}

/-- A relation between outcomes that is carried from one evaluation to the next. -/
structure Carried (R : {α : Type} → Except EvalError α → Except EvalError α → Prop) : Prop where
  refl : ∀ {α : Type} (r : Except EvalError α), R r r
  bind : ∀ {α β : Type} {r q : Except EvalError α} {f g : α → Except EvalError β},
    R r q → (∀ a, R (f a) (g a)) → R (r >>= f) (q >>= g)

theorem Carried.map (carried : Carried R) {r q : Except EvalError α} (first : R r q) (f : α → β) :
    R (f <$> r) (f <$> q) := by
  have next := carried.bind (f := fun a => .ok (f a)) first fun a => carried.refl _
  have same (x : Except EvalError α) : (x >>= fun a => .ok (f a)) = f <$> x := by
    cases x <;> rfl
  rwa [same, same] at next

end Eval

namespace Store

variable {s s' : Store} {runner runner' : Runner}
  {R : {α : Type} → Except EvalError α → Except EvalError α → Prop}

/-- What an expression finds in a store without calling anything. -/
structure ReadsAlike (s s' : Store) : Prop where
  field : ∀ env v name, s'.fieldOf env v name = s.fieldOf env v name
  type : ∀ env path, s'.typeIn? env path = s.typeIn? env path
  variant : ∀ env path, s'.variantIn? env path = s.variantIn? env path

/-- The calls that an expression may make. -/
structure CallsAlike (R : {α : Type} → Except EvalError α → Except EvalError α → Prop)
    (s s' : Store) (runner runner' : Runner) : Prop where
  method : ∀ env v name args, R (outcome (s.callMethodWith runner env v name args))
    (outcome (s'.callMethodWith runner' env v name args))
  function : ∀ env callee args, R (outcome (s.call runner env callee args))
    (outcome (s'.call runner' env callee args))

theorem chainIf_carried (carried : Eval.Carried R) (optional : Bool) (base : Value)
    {step step' : Value → Eval Value}
    (same : ∀ v, R (outcome (step v)) (outcome (step' v))) :
    R (outcome (chainIf optional base step)) (outcome (chainIf optional base step')) := by
  cases optional with
  | false => exact same base
  | true =>
    change R (outcome (chain base step)) (outcome (chain base step'))
    cases base with
    | some v =>
      simp only [chain, Eval.outcome_map]
      exact carried.map (same v) _
    | ref | deferred =>
      unfold chain
      dsimp only
      split
      · simp only [Eval.outcome_bind]
        exact carried.bind (same _) fun _ => carried.refl _
      · exact carried.refl _
    | _ => exact carried.refl _

theorem compareEqual_carried (carried : Eval.Carried R) (calls : CallsAlike R s s' runner runner')
    (env : Env) (op : BinaryOp) (l r : Value) :
    R (outcome (s.compareEqual runner env op l r))
      (outcome (s'.compareEqual runner' env op l r)) := by
  unfold compareEqual
  split
  · exact carried.refl _
  · split
    · exact carried.refl _
    · exact calls.method env l _ [r]

private theorem evalAll_carried (carried : Eval.Carried R) {env : Env} {es : List Expr}
    (each : ∀ e ∈ es, R (outcome (s.evalWith runner env e)) (outcome (s'.evalWith runner' env e))) :
    R (outcome (s.evalAll runner env es)) (outcome (s'.evalAll runner' env es)) := by
  induction es with
  | nil => exact carried.refl _
  | cons e rest ih =>
    rw [List.forall_mem_cons] at each
    simp only [evalAll, Eval.outcome_bind]
    exact carried.bind each.1 fun v => carried.bind (ih each.2) fun vs => carried.refl _

private theorem evalFields_carried (carried : Eval.Carried R) {env : Env} {decl : TypeDecl}
    {given : NameMap Value} {fields : List (String × Expr)}
    (each : ∀ f ∈ fields,
      R (outcome (s.evalWith runner env f.2)) (outcome (s'.evalWith runner' env f.2))) :
    R (outcome (s.evalFields runner env decl given fields))
      (outcome (s'.evalFields runner' env decl given fields)) := by
  induction fields generalizing given with
  | nil => exact carried.refl _
  | cons f rest ih =>
    rw [List.forall_mem_cons] at each
    simp only [evalFields, Eval.outcome_bind]
    exact carried.bind (carried.refl _) fun _ => carried.bind each.1 fun v => ih each.2

/-- What is carried by evaluation and holds of calls holds of expressions. -/
theorem evalWith_carried (carried : Eval.Carried R) (reads : ReadsAlike s s')
    (calls : CallsAlike R s s' runner runner') (env : Env) (e : Expr) :
    R (outcome (s.evalWith runner env e)) (outcome (s'.evalWith runner' env e)) := by
  induction e using Expr.inductionOn with
  | lit | ident | self | closure =>
    simp only [evalWith]
    exact carried.refl _
  | path segments =>
    simp only [evalWith, reads.variant]
    exact carried.refl _
  | field base name optional ih =>
    simp only [evalWith, Eval.outcome_bind, reads.field]
    exact carried.bind ih fun v => carried.refl _
  | method receiver name args optional ih ihs =>
    simp only [evalWith, Eval.outcome_bind]
    refine carried.bind ih fun v => carried.bind (evalAll_carried carried ihs) fun vs => ?_
    exact chainIf_carried carried optional v fun w => calls.method env w name vs
  | call callee args ihs =>
    simp only [evalWith, Eval.outcome_bind]
    exact carried.bind (evalAll_carried carried ihs) fun vs => calls.function env callee vs
  | unary op operand ih =>
    simp only [evalWith, Eval.outcome_bind]
    exact carried.bind ih fun v => carried.refl _
  | binary op left right ihl ihr =>
    simp only [evalWith, Eval.outcome_bind]
    refine carried.bind ihl fun l => ?_
    cases op with
    | and | or =>
      simp only [Eval.outcome_bind, Eval.outcome_liftExcept]
      refine carried.bind (carried.refl _) fun lTruth => ?_
      split
      · exact carried.refl _
      · simp only [Eval.outcome_bind]
        exact carried.bind ihr fun r => carried.refl _
    | eq | ne =>
      simp only [Eval.outcome_bind]
      exact carried.bind ihr fun r => compareEqual_carried carried calls env _ l r
    | _ =>
      simp only [Eval.outcome_bind]
      exact carried.bind ihr fun r => carried.refl _
  | list items ihs =>
    simp only [evalWith, Eval.outcome_bind]
    exact carried.bind (evalAll_carried carried ihs) fun vs => carried.refl _
  | record path fields ihs =>
    simp only [evalWith, Eval.outcome_bind, reads.type]
    refine carried.bind (carried.refl _) fun decl => ?_
    split
    · exact carried.refl _
    · simp only [Eval.outcome_bind]
      exact carried.bind (evalFields_carried carried ihs) fun given => carried.refl _

end Store
end Pipeline

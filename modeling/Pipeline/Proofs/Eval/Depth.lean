import Pipeline.Proofs.Eval.Congruence

/-!
# Evaluation and the limit for nested calls

A value that an expression comes to under some limit for nested calls is its value under every
greater limit. So a lower limit puts a fault in the place of a value at most.
-/

set_option autoImplicit false
set_option relaxedAutoImplicit false

namespace Pipeline

open Eval (outcome)

namespace Eval

variable {α : Type}

/-- Where the first outcome is a value, the second one is the same value. -/
def Kept (r q : Except EvalError α) : Prop := ∀ a, r = .ok a → q = .ok a

theorem Kept.fault {e : EvalError} {q : Except EvalError α} : Kept (.error e) q := nofun

theorem Kept.carried : Carried @Kept where
  refl _ _ found := found
  bind := by
    intro α β r q f g first next b found
    obtain ⟨a, here, there⟩ := except_bind_eq_ok.mp found
    exact except_bind_eq_ok.mpr ⟨a, first a here, next a b there⟩

end Eval

namespace Store

open Eval (Kept)

variable {store : Store} {runner runner' : Runner}

/-- What evaluates the bodies of methods where calls may still be nested to a depth. -/
def runnerAt (store : Store) : Nat → Runner
  | 0 => none
  | depth + 1 => some (store.evalTo depth)

theorem evalTo_eq (depth : Nat) (env : Env) (e : Expr) :
    store.evalTo depth env e = store.evalWith (store.runnerAt depth) env e := by
  cases depth <;> rfl

/-- A runner that comes to all the values of another one. -/
def RunsFurther (runner runner' : Runner) : Prop :=
  ∀ run ∈ runner, ∃ run' ∈ runner', ∀ env e, Kept (outcome (run env e)) (outcome (run' env e))

theorem invoke_kept (further : RunsFurther runner runner') (m : Method) (selfTy : Option Ty)
    (receiver : Option Value) (args : List Value) :
    Kept (outcome (store.invoke runner m selfTy receiver args))
      (outcome (store.invoke runner' m selfTy receiver args)) := by
  cases runner with
  | none => exact Kept.fault
  | some run =>
    obtain ⟨run', rfl, keeps⟩ := further run rfl
    unfold invoke
    dsimp only
    split
    · exact Kept.fault
    · split
      · exact Kept.carried.refl _
      · split
        · exact keeps _ _
        · exact Kept.carried.refl _

theorem callMethodWith_kept (further : RunsFurther runner runner') (env : Env) (receiver : Value)
    (name : String) (args : List Value) :
    Kept (outcome (store.callMethodWith runner env receiver name args))
      (outcome (store.callMethodWith runner' env receiver name args)) := by
  unfold callMethodWith
  simp only [Eval.outcome_bind, Eval.outcome_liftLogged]
  refine Kept.carried.bind (Kept.carried.refl _) fun r => ?_
  cases r with
  | found m => exact invoke_kept further m _ _ args
  | ambiguous | notFound => exact Kept.fault

theorem callQualified_kept (further : RunsFurther runner runner') (env : Env)
    (segments : List String) (name : String) (args : List Value) :
    Kept (outcome (store.callQualified runner env segments name args))
      (outcome (store.callQualified runner' env segments name args)) := by
  unfold callQualified
  simp only [Eval.outcome_bind]
  refine Kept.carried.bind (Kept.carried.refl _) fun qualifier => ?_
  obtain ⟨path, byReceiver⟩ := qualifier
  cases byReceiver
  all_goals
    simp only [Bool.false_eq_true, if_false, if_true, Eval.outcome_bind, Eval.outcome_liftLogged]
    refine Kept.carried.bind (Kept.carried.refl _) fun receiverTy => ?_
    refine Kept.carried.bind (Kept.carried.refl _) fun r => ?_
    cases r with
    | ambiguous | notFound => exact Kept.fault
    | found m =>
      dsimp only
      split
      · cases args with
        | nil => exact Kept.fault
        | cons receiver rest => exact invoke_kept further m _ _ rest
      · exact invoke_kept further m _ none args

theorem call_kept (further : RunsFurther runner runner') (env : Env) (callee : List String)
    (args : List Value) :
    Kept (outcome (store.call runner env callee args))
      (outcome (store.call runner' env callee args)) := by
  unfold call
  split
  · exact Kept.carried.refl _
  · exact Kept.fault
  · exact Kept.fault
  · exact callQualified_kept further env _ _ args

/-- An expression keeps its value where the bodies of methods do. -/
theorem evalWith_kept (further : RunsFurther runner runner') (env : Env) (e : Expr) :
    Kept (outcome (store.evalWith runner env e)) (outcome (store.evalWith runner' env e)) :=
  evalWith_carried Kept.carried ⟨fun _ _ _ => rfl, fun _ _ => rfl, fun _ _ => rfl⟩
    ⟨callMethodWith_kept further, call_kept further⟩ env e

/-- What runs bodies one level deeper comes to all the values. -/
theorem runnerAt_succ (store : Store) (depth : Nat) :
    RunsFurther (store.runnerAt depth) (store.runnerAt (depth + 1)) := by
  induction depth with
  | zero =>
    intro run none
    cases none
  | succ depth ih =>
    intro run here
    cases here
    refine ⟨_, rfl, fun env e => ?_⟩
    rw [evalTo_eq, evalTo_eq]
    exact evalWith_kept ih env e

/-- An expression keeps its value under a greater limit for nested calls. -/
theorem evalTo_kept {depth depth' : Nat} (deeper : depth ≤ depth') (env : Env) (e : Expr) :
    Kept (outcome (store.evalTo depth env e)) (outcome (store.evalTo depth' env e)) := by
  induction deeper with
  | refl => exact Kept.carried.refl _
  | step deeper ih =>
    intro v found
    have next := ih v found
    rw [evalTo_eq] at next ⊢
    exact evalWith_kept (store.runnerAt_succ _) env e v next

end Store
end Pipeline

import Pipeline.Proofs.Eval.Congruence
import Pipeline.Proofs.Method.Renumbering

/-!
# Evaluation where impls stand in another order

An expression has the same value in a store with the same impls in another order, or has none in
either. The fault may differ where it lists impls between which nothing decides.
-/

set_option autoImplicit false
set_option relaxedAutoImplicit false

namespace Pipeline

namespace Eval

variable {α β : Type}

/-- Outcomes that are the same value, or faults. -/
def SameValue (r q : Except EvalError α) : Prop := r.toOption = q.toOption

theorem SameValue.refl (r : Except EvalError α) : SameValue r r := rfl

theorem SameValue.faults (e e' : EvalError) :
    SameValue (.error e : Except EvalError α) (.error e') := rfl

theorem SameValue.bind {r q : Except EvalError α} {f g : α → Except EvalError β}
    (first : SameValue r q) (next : ∀ a, SameValue (f a) (g a)) :
    SameValue (r >>= f) (q >>= g) := by
  cases r with
  | error e =>
    cases q with
    | error e' => rfl
    | ok b => cases first
  | ok a =>
    cases q with
    | error e' => cases first
    | ok b =>
      cases first
      exact next a

theorem SameValue.carried : Carried @SameValue := ⟨SameValue.refl, SameValue.bind⟩

end Eval

namespace Store

open Eval (outcome SameValue)

variable {store : Store} {σ : Equiv.Perm Nat} {impls : List ImplDecl} {runner runner' : Runner}

/-- Runners of bodies that come to the same values. -/
def RunAlike (runner runner' : Runner) : Prop :=
  Option.Rel (fun run run' => ∀ env e, SameValue (outcome (run env e)) (outcome (run' env e)))
    runner runner'

/-! ### Calls -/

/-- What provides a method plays no part in calling it. -/
theorem invoke_renumber (runner : Runner) (m : Method) (selfTy : Option Ty)
    (receiver : Option Value) (args : List Value) :
    (store.withImpls impls).invoke runner (m.renumber σ) selfTy receiver args =
      store.invoke runner m selfTy receiver args := rfl

theorem invoke_agree (alike : RunAlike runner runner') (m : Method) (selfTy : Option Ty)
    (receiver : Option Value) (args : List Value) :
    SameValue (outcome (store.invoke runner m selfTy receiver args))
      (outcome ((store.withImpls impls).invoke runner' (m.renumber σ) selfTy receiver args)) := by
  rw [invoke_renumber]
  unfold invoke
  cases alike with
  | none => exact SameValue.refl _
  | some runs =>
    dsimp only
    split
    · exact SameValue.refl _
    · split
      · exact SameValue.refl _
      · split
        · exact runs _ _
        · exact SameValue.refl _

theorem callMethodWith_agree (reorders : store.Reorders σ impls) (alike : RunAlike runner runner')
    (env : Env) (receiver : Value) (name : String) (args : List Value) :
    SameValue (outcome (store.callMethodWith runner env receiver name args))
      (outcome ((store.withImpls impls).callMethodWith runner' env receiver name args)) := by
  have visible : (store.withImpls impls).visibleFrom env = store.visibleFrom env := rfl
  have same := resolveCall_agree reorders receiver.ty name (store.visibleFrom env)
  unfold callMethodWith
  simp only [Eval.outcome_bind, Eval.outcome_liftLogged, visible]
  generalize (store.resolveCall receiver.ty name (store.visibleFrom env)).value = r at same ⊢
  generalize ((store.withImpls impls).resolveCall receiver.ty name (store.visibleFrom env)).value =
    r' at same ⊢
  cases same with
  | found m => exact invoke_agree alike m _ _ args
  | ambiguous perm _ => exact SameValue.faults _ _
  | notFound => exact SameValue.faults _ _

theorem callQualified_agree (reorders : store.Reorders σ impls) (alike : RunAlike runner runner')
    (env : Env) (segments : List String) (name : String) (args : List Value) :
    SameValue (outcome (store.callQualified runner env segments name args))
      (outcome ((store.withImpls impls).callQualified runner' env segments name args)) := by
  have qualifier : (store.withImpls impls).qualifier? env segments =
      store.qualifier? env segments := rfl
  unfold callQualified
  simp only [Eval.outcome_bind, qualifier]
  refine (SameValue.refl _).bind fun q => ?_
  obtain ⟨path, byReceiver⟩ := q
  cases byReceiver
  all_goals
    simp only [Bool.false_eq_true, if_false, if_true, Eval.outcome_bind, Eval.outcome_liftLogged]
    refine (SameValue.refl _).bind fun receiverTy => ?_
    have same := resolveQualified_agree reorders receiverTy path name
    generalize (store.resolveQualified receiverTy path name).value = r at same ⊢
    generalize ((store.withImpls impls).resolveQualified receiverTy path name).value = r' at same ⊢
    cases same with
    | ambiguous perm _ => exact SameValue.faults _ _
    | notFound => exact SameValue.refl _
    | found m =>
      change SameValue (outcome (if m.sig.receiver = true then _ else _))
        (outcome (if m.sig.receiver = true then _ else _))
      split
      · cases args with
        | nil => exact SameValue.refl _
        | cons receiver rest => exact invoke_agree alike m _ _ rest
      · exact invoke_agree alike m _ none args

theorem call_agree (reorders : store.Reorders σ impls) (alike : RunAlike runner runner') (env : Env)
    (callee : List String) (args : List Value) :
    SameValue (outcome (store.call runner env callee args))
      (outcome ((store.withImpls impls).call runner' env callee args)) := by
  unfold call
  split
  · exact SameValue.refl _
  · exact SameValue.refl _
  · exact SameValue.refl _
  · exact callQualified_agree reorders alike env _ _ args

/-! ### Expressions -/

/-- An expression has the same value where the bodies of methods have. -/
theorem evalWith_agree (reorders : store.Reorders σ impls) (alike : RunAlike runner runner')
    (env : Env) (e : Expr) :
    SameValue (outcome (store.evalWith runner env e))
      (outcome ((store.withImpls impls).evalWith runner' env e)) := by
  have field (env : Env) (v : Value) (name : String) :
      (store.withImpls impls).fieldOf env v name = store.fieldOf env v name := by
    simp only [fieldOf, normalize_withImpls]
    rfl
  exact evalWith_carried SameValue.carried ⟨field, fun _ _ => rfl, fun _ _ => rfl⟩
    ⟨callMethodWith_agree reorders alike, call_agree reorders alike⟩ env e

/-- Bodies of methods come to the same values, however deeply their calls are nested. -/
theorem evalTo_agree (reorders : store.Reorders σ impls) (depth : Nat) (env : Env) (e : Expr) :
    SameValue (outcome (store.evalTo depth env e))
      (outcome ((store.withImpls impls).evalTo depth env e)) := by
  -- What is run for the body of a method is evaluation one level down.
  induction depth generalizing env e with
  | zero => exact evalWith_agree reorders .none env e
  | succ depth ih => exact evalWith_agree reorders (.some ih) env e

theorem eval_agree (reorders : store.Reorders σ impls) (env : Env) (e : Expr) :
    SameValue (outcome (store.eval env e)) (outcome ((store.withImpls impls).eval env e)) :=
  evalTo_agree reorders store.maxDepth env e

end Store
end Pipeline

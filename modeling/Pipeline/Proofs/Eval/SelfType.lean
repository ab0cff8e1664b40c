import Pipeline.Proofs.Eval.Outcome
import Pipeline.Proofs.Induction

/-!
# What `Self` stands for

The type that `Self` stands for matters to the expressions alone that name it as a qualifier or as
the type of a struct. The bodies of methods have a `Self` of their own.
-/

set_option autoImplicit false
set_option relaxedAutoImplicit false

namespace Pipeline

namespace Expr

mutual

/-- True for an expression that names `Self`. -/
def namesSelf : Expr → Bool
  | path segments => segments.dropLast == ["Self"]
  | field base _ _ => namesSelf base
  | method receiver _ args _ => namesSelf receiver || anyNamesSelf args
  | call callee args => callee.dropLast == ["Self"] || anyNamesSelf args
  | unary _ operand => namesSelf operand
  | binary _ left right => namesSelf left || namesSelf right
  | list items => anyNamesSelf items
  | record segments fields => segments == ["Self"] || anyFieldNamesSelf fields
  | _ => false

/-- True if one of the expressions names `Self`. -/
def anyNamesSelf : List Expr → Bool
  | [] => false
  | e :: rest => namesSelf e || anyNamesSelf rest

/-- True if the value of one of the fields names `Self`. -/
def anyFieldNamesSelf : List (String × Expr) → Bool
  | [] => false
  | (_, e) :: rest => namesSelf e || anyFieldNamesSelf rest

end

end Expr

/-- The same surroundings with another type for `Self`. -/
def Env.withSelfTy (env : Env) (t : Option Ty) : Env := { env with selfTy := t }

namespace Store

variable {store : Store} {runner : Runner} {env : Env} {t : Option Ty}

theorem symbolIn_withSelfTy {segments : List String} (other : (segments == ["Self"]) = false) :
    store.symbolIn? (env.withSelfTy t) segments = store.symbolIn? env segments := by
  have different : segments ≠ ["Self"] := by simpa using other
  simp only [symbolIn?, if_neg different]
  rfl

theorem typeIn_withSelfTy {segments : List String} (other : (segments == ["Self"]) = false) :
    store.typeIn? (env.withSelfTy t) segments = store.typeIn? env segments := by
  rw [typeIn?, symbolIn_withSelfTy other, typeIn?]

theorem variantIn_withSelfTy {segments : List String}
    (other : (segments.dropLast == ["Self"]) = false) :
    store.variantIn? (env.withSelfTy t) segments = store.variantIn? env segments := by
  simp only [variantIn?, typeIn_withSelfTy other]

theorem callQualified_withSelfTy {segments : List String} {name : String} {args : List Value}
    (other : (segments == ["Self"]) = false) :
    store.callQualified runner (env.withSelfTy t) segments name args =
      store.callQualified runner env segments name args := by
  have same : store.qualifier? (env.withSelfTy t) segments = store.qualifier? env segments := by
    rw [qualifier?, symbolIn_withSelfTy other]
    rfl
  simp only [callQualified, same]

theorem call_withSelfTy {callee : List String} {args : List Value}
    (other : (callee.dropLast == ["Self"]) = false) :
    store.call runner (env.withSelfTy t) callee args = store.call runner env callee args := by
  unfold call
  split
  · rfl
  · rfl
  · rfl
  · exact callQualified_withSelfTy other

private theorem evalAll_withSelfTy {es : List Expr} (other : Expr.anyNamesSelf es = false)
    (each : ∀ e ∈ es, e.namesSelf = false →
      store.evalWith runner (env.withSelfTy t) e = store.evalWith runner env e) :
    store.evalAll runner (env.withSelfTy t) es = store.evalAll runner env es := by
  induction es with
  | nil => rfl
  | cons e rest ih =>
    rw [List.forall_mem_cons] at each
    simp only [Expr.anyNamesSelf, Bool.or_eq_false_iff] at other
    simp only [evalAll, each.1 other.1, ih other.2 each.2]

private theorem evalFields_withSelfTy {decl : TypeDecl} {given : NameMap Value}
    {fields : List (String × Expr)} (other : Expr.anyFieldNamesSelf fields = false)
    (each : ∀ f ∈ fields, f.2.namesSelf = false →
      store.evalWith runner (env.withSelfTy t) f.2 = store.evalWith runner env f.2) :
    store.evalFields runner (env.withSelfTy t) decl given fields =
      store.evalFields runner env decl given fields := by
  induction fields generalizing given with
  | nil => rfl
  | cons f rest ih =>
    rw [List.forall_mem_cons] at each
    simp only [Expr.anyFieldNamesSelf, Bool.or_eq_false_iff] at other
    simp only [evalFields, each.1 other.1, ih other.2 each.2]
    rfl

theorem evalWith_withSelfTy {e : Expr} (other : e.namesSelf = false) :
    store.evalWith runner (env.withSelfTy t) e = store.evalWith runner env e := by
  induction e using Expr.inductionOn with
  | lit | ident | self | closure => rfl
  | path segments =>
    simp only [evalWith, variantIn_withSelfTy other]
  | field base name optional ih =>
    simp only [evalWith, ih other]
    rfl
  | method receiver name args optional ih ihs =>
    simp only [Expr.namesSelf, Bool.or_eq_false_iff] at other
    simp only [evalWith, ih other.1, evalAll_withSelfTy other.2 ihs]
    rfl
  | call callee args ihs =>
    simp only [Expr.namesSelf, Bool.or_eq_false_iff] at other
    simp only [evalWith, call_withSelfTy other.1, evalAll_withSelfTy other.2 ihs]
  | unary op operand ih => simp only [evalWith, ih other]
  | binary op left right ihl ihr =>
    simp only [Expr.namesSelf, Bool.or_eq_false_iff] at other
    simp only [evalWith, ihl other.1, ihr other.2]
    rfl
  | list items ihs => simp only [evalWith, evalAll_withSelfTy other ihs]
  | record path fields ihs =>
    simp only [Expr.namesSelf, Bool.or_eq_false_iff] at other
    simp only [evalWith, typeIn_withSelfTy other.1, evalFields_withSelfTy other.2 ihs]

/-- What `Self` stands for does not matter to an expression that does not name it. -/
theorem eval_withSelfTy {e : Expr} (other : e.namesSelf = false) :
    store.eval (env.withSelfTy t) e = store.eval env e := by
  unfold eval
  cases store.maxDepth with
  | zero => exact evalWith_withSelfTy other
  | succ depth => exact evalWith_withSelfTy other

end Store
end Pipeline

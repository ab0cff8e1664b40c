import Pipeline.Proofs.Data.Insertion
import Pipeline.Proofs.Schema.References

/-!
# Free names

An expression reads the value of `self`, the type that `Self` stands for, the names that its module
sees, and the values of its free names. Surroundings that agree on these cannot be told apart by it,
and it refers to no binding that these values do not refer to.
-/

set_option autoImplicit false
set_option relaxedAutoImplicit false

namespace Pipeline

/-- Two surroundings agree on some names and on all that is no name. -/
structure Env.AgreeOn (names : List String) (env env' : Env) : Prop where
  module : env.module = env'.module
  self : env.self = env'.self
  selfTy : env.selfTy = env'.selfTy
  vars : ∀ name ∈ names, env.vars.get? name = env'.vars.get? name

theorem Env.AgreeOn.eq_with_vars {names : List String} {env env' : Env}
    (agree : env.AgreeOn names env') : env' = { env with vars := env'.vars } := by
  obtain ⟨module, self, selfTy, vars⟩ := env
  obtain ⟨module', self', selfTy', vars'⟩ := env'
  obtain rfl : module = module' := agree.module
  obtain rfl : self = self' := agree.self
  obtain rfl : selfTy = selfTy' := agree.selfTy
  rfl

theorem Expr.mem_free {e : Expr} {name : String} : name ∈ e.free ↔ name ∈ e.reads :=
  NameSet.mem_ofList

namespace Store

open Eval (outcome)

variable {store : Store} {runner : Runner} {env : Env} {vars : NameMap Value}

/-! ### The same value in other surroundings -/

/-- The values of names may change if an expression reads none of those that do. -/
private def Indifferent (store : Store) (runner : Runner) (env : Env) (vars : NameMap Value)
    (e : Expr) : Prop :=
  (∀ name ∈ e.reads, env.vars.get? name = vars.get? name) →
    store.evalWith runner { env with vars := vars } e = store.evalWith runner env e

private theorem evalAll_with_vars {es : List Expr}
    (each : ∀ e ∈ es, store.Indifferent runner env vars e)
    (same : ∀ name ∈ Expr.readsList es, env.vars.get? name = vars.get? name) :
    store.evalAll runner { env with vars := vars } es = store.evalAll runner env es := by
  induction es with
  | nil => rfl
  | cons e rest ih =>
    rw [List.forall_mem_cons] at each
    rw [Expr.readsList, List.forall_mem_append] at same
    rw [evalAll, evalAll, each.1 same.1, ih each.2 same.2]

private theorem evalFields_with_vars {fields : List (String × Expr)} (decl : TypeDecl)
    (given : NameMap Value) (each : ∀ f ∈ fields, store.Indifferent runner env vars f.2)
    (same : ∀ name ∈ Expr.readsFields fields, env.vars.get? name = vars.get? name) :
    store.evalFields runner { env with vars := vars } decl given fields =
      store.evalFields runner env decl given fields := by
  induction fields generalizing given with
  | nil => rfl
  | cons f rest ih =>
    rw [List.forall_mem_cons] at each
    rw [Expr.readsFields, List.forall_mem_append] at same
    rw [evalFields, evalFields, each.1 same.1]
    simp only [ih _ each.2 same.2]
    rfl

theorem evalWith_with_vars {e : Expr}
    (same : ∀ name ∈ e.reads, env.vars.get? name = vars.get? name) :
    store.evalWith runner { env with vars := vars } e = store.evalWith runner env e := by
  induction e using Expr.inductionOn with
  | lit | self | path | closure => rfl
  | ident name =>
    have here : env.vars.get? name = vars.get? name := same name List.mem_cons_self
    simp only [evalWith, here]
  | field base name optional ih =>
    simp only [evalWith, ih same]
    rfl
  | method receiver name args optional ih ihs =>
    have first := ih fun n member => same n (List.mem_append_left _ member)
    have others := evalAll_with_vars ihs fun n member => same n (List.mem_append_right _ member)
    simp only [evalWith, first, others]
    rfl
  | call callee args ihs =>
    simp only [evalWith, evalAll_with_vars ihs same]
    rfl
  | unary op operand ih => simp only [evalWith, ih same]
  | binary op left right ihl ihr =>
    have first := ihl fun n member => same n (List.mem_append_left _ member)
    have second := ihr fun n member => same n (List.mem_append_right _ member)
    simp only [evalWith, first, second]
    rfl
  | list items ihs => simp only [evalWith, evalAll_with_vars ihs same]
  | record path fields ihs =>
    have others (decl : TypeDecl) (given : NameMap Value) := evalFields_with_vars decl given ihs same
    simp only [evalWith, others]
    rfl

/-- Whatever bodies of methods see, they see it through the receiver and the arguments. -/
theorem eval_congr_agreeOn {e : Expr} {env' : Env} (agree : env.AgreeOn e.reads env') :
    store.eval env e = store.eval env' e := by
  have same (runner : Runner) : store.evalWith runner env e = store.evalWith runner env' e := by
    rw [agree.eq_with_vars]
    exact (evalWith_with_vars agree.vars).symm
  unfold eval
  cases store.maxDepth <;> exact same _

/-! ### References -/

/-- A binding that the value of `self` refers to, or that of one of some names. -/
def Mentioned (env : Env) (names : List String) (binding : String) : Prop :=
  (∃ v, env.self = some v ∧ binding ∈ v.refs) ∨
    ∃ name ∈ names, ∃ v, env.vars.get? name = some v ∧ binding ∈ v.refs

theorem all_refersTo_of_refs {known : String → Prop} {v : Value}
    (mentioned : ∀ binding ∈ v.refs, known binding) : Value.All (Value.RefersTo known) v := by
  rw [Value.all_refersTo_iff]
  intro binding member
  exact mentioned binding (List.mem_eraseDups.mpr member)

/-- The bindings that a value of an expression refers to are mentioned by what it reads. -/
theorem eval_refs {e : Expr} {v : Value} (found : outcome (store.eval env e) = .ok v) :
    ∀ binding ∈ v.refs, Mentioned env e.reads binding := by
  have self (w : Value) (given : env.self = some w) :
      Value.All (Value.RefersTo (Mentioned env e.reads)) w :=
    all_refersTo_of_refs fun binding member => Or.inl ⟨w, given, member⟩
  have vars (name : String) (read : name ∈ e.reads) (w : Value)
      (given : env.vars.get? name = some w) :
      Value.All (Value.RefersTo (Mentioned env e.reads)) w :=
    all_refersTo_of_refs fun binding member => Or.inr ⟨name, read, w, given, member⟩
  have all := eval_all Value.refersTo_lenient self vars v found
  intro binding member
  exact Value.all_refersTo_iff.mp all binding (List.mem_eraseDups.mp member)

/-- **Evaluation reads only free names.** In surroundings that agree on the module, on `self`, on the
type of `self` and on the free names of an expression, the expression comes to the same, with the
same reports on the way; and its value refers only to bindings to which the value of `self` refers or
that of one of these names. -/
theorem eval_free (store : Store) (e : Expr) (env env' : Env) (agree : env.AgreeOn e.free env') :
    store.eval env e = store.eval env' e ∧
      ∀ v, outcome (store.eval env e) = .ok v →
        ∀ binding ∈ v.refs,
          (∃ w, env.self = some w ∧ binding ∈ w.refs) ∨
            ∃ name ∈ e.free, ∃ w, env.vars.get? name = some w ∧ binding ∈ w.refs := by
  have read : env.AgreeOn e.reads env' :=
    ⟨agree.module, agree.self, agree.selfTy,
      fun name member => agree.vars name (Expr.mem_free.mpr member)⟩
  refine ⟨eval_congr_agreeOn read, fun v found binding member => ?_⟩
  refine (eval_refs found binding member).imp_right ?_
  rintro ⟨name, reads, given⟩
  exact ⟨name, Expr.mem_free.mpr reads, given⟩

/-- A pair whose parts are not known. -/
def pairTy : Ty := .named "desk::Pair" []

/-- A store with a struct. -/
def desk : Store :=
  { (default : Store) with
    types := [("desk::Pair", ⟨"desk::Pair", "Pair", "desk", [], .struct [⟨"left", .infer, true, none⟩,
      ⟨"right", .infer, true, none⟩], none, none⟩)]
    maxDepth := 4 }

/-- `[Self { left: first?.left, right: Some(self) }, |x| x + y]` -/
def swapped : Expr :=
  .list [
    .record ["Self"] [("left", .field (.ident "first") "left" true), ("right", .call ["Some"] [.self])],
    .closure ["x"] (.binary .add (.ident "x") (.ident "y")) "|x| x + y"]

/-- Surroundings with values for the names of the expression and, perhaps, for others. -/
def deskEnv (others : NameMap Value) : Env where
  module := "desk"
  self := some (.ref "b" pairTy)
  selfTy := some pairTy
  vars := others ++ [("first", .some (.record pairTy [("left", .ref "a" .unit)])), ("y", .int 2)]

/-- What is given for the parameter of the closure and for a name outside does not matter. -/
theorem eval_free_desk :
    (deskEnv []).AgreeOn swapped.free (deskEnv [("x", .ref "c" .unit), ("z", .ref "d" .unit)]) ∧
      desk.eval (deskEnv []) swapped =
        desk.eval (deskEnv [("x", .ref "c" .unit), ("z", .ref "d" .unit)]) swapped ∧
      ∃ v, outcome (desk.eval (deskEnv []) swapped) = .ok v ∧ v.refs = ["a", "b"] ∧
        ∀ binding ∈ v.refs,
          (∃ w, (deskEnv []).self = some w ∧ binding ∈ w.refs) ∨
            ∃ name ∈ swapped.free, ∃ w, (deskEnv []).vars.get? name = some w ∧ binding ∈ w.refs := by
  have free : swapped.free = ["first", "y"] := by decide +kernel
  have agree : (deskEnv []).AgreeOn swapped.free
      (deskEnv [("x", .ref "c" .unit), ("z", .ref "d" .unit)]) := by
    refine ⟨rfl, rfl, rfl, fun name member => ?_⟩
    rw [free, List.mem_pair] at member
    rcases member with rfl | rfl <;> rfl
  have evaluated : ∃ v, outcome (desk.eval (deskEnv []) swapped) = .ok v ∧ v.refs = ["a", "b"] := by
    decide +kernel
  obtain ⟨v, found, refs⟩ := evaluated
  obtain ⟨same, mentioned⟩ := eval_free desk swapped _ _ agree
  exact ⟨agree, same, v, found, refs, mentioned v found⟩

end Store
end Pipeline

import Pipeline.Proofs.Eval.Depth
import Pipeline.Proofs.Schema.Reporting

/-!
# References of synonymous types

A reference may carry another type with the same expansion. Where it is only looked into, by a field
or a method, passed to a call or compared, this cannot be told; where it stands by itself, it keeps
the type as it was written.
-/

set_option autoImplicit false
set_option relaxedAutoImplicit false

namespace Pipeline

namespace Eval

/-- Where the first outcome is a value, the second one is a value in relation to it. -/
def Keeps {α β : Type} (R : α → β → Prop) (r : Except EvalError α) (q : Except EvalError β) :
    Prop :=
  ∀ a, r = .ok a → ∃ b, q = .ok b ∧ R a b

theorem Keeps.bind {α β γ : Type} {R : α → β → Prop} {r : Except EvalError α}
    {q : Except EvalError β} {f : α → Except EvalError γ} {g : β → Except EvalError γ}
    (first : Keeps R r q) (next : ∀ a b, R a b → Kept (f a) (g b)) : Kept (r >>= f) (q >>= g) := by
  intro c found
  obtain ⟨a, here, there⟩ := except_bind_eq_ok.mp found
  obtain ⟨b, rfl, related⟩ := first a here
  exact next a b related c there

end Eval

open Eval (outcome Kept Keeps)

/-! ### Names that stand by themselves -/

/-- True for an operator whose result does not depend on the types of its operands. -/
def BinaryOp.compares : BinaryOp → Bool
  | eq | ne | lt | le | gt | ge => true
  | _ => false

namespace Expr

mutual

/-- The names that stand by themselves in an expression. A name that makes up the expression does
not count if its value is only looked into. -/
def bare : Bool → Expr → List String
  | inside, ident name => if inside then [] else [name]
  | _, field base _ optional => bare (!optional) base
  | _, method receiver _ args optional => bare (!optional) receiver ++ bareAll true args
  | _, call callee args => bareAll (callee != ["Some"]) args
  | _, unary _ operand => bare false operand
  | _, binary op left right => bare op.compares left ++ bare op.compares right
  | _, list items => bareAll false items
  | _, record _ fields => bareFields fields
  | _, _ => []

/-- The names that stand by themselves in some of several expressions. -/
def bareAll : Bool → List Expr → List String
  | _, [] => []
  | inside, e :: rest => bare inside e ++ bareAll inside rest

/-- The names that stand by themselves in the values of fields. -/
def bareFields : List (String × Expr) → List String
  | [] => []
  | (_, e) :: rest => bare false e ++ bareFields rest

end

end Expr

/-! ### Values -/

namespace Store

variable {store : Store} {runner : Runner} {env : Env} {vars : NameMap Value}

/-- The same value, or references to the same binding of types that become one when aliases are
expanded. -/
inductive Retyped (store : Store) : Value → Value → Prop
  | same (v : Value) : Retyped store v v
  | ref (binding : String) {t u : Ty} : store.normalize t = store.normalize u →
      Retyped store (.ref binding t) (.ref binding u)

namespace Retyped

variable {v w : Value} {vs ws : List Value}

theorem text (retyped : store.Retyped v w) : v.text = w.text := by
  cases retyped <;> rfl

theorem isKnown (retyped : store.Retyped v w) : v.isKnown = w.isKnown := by
  cases retyped <;> rfl

theorem eq_of_isKnown (retyped : store.Retyped v w) (known : v.isKnown = true) : v = w := by
  cases retyped with
  | same => rfl
  | ref => cases known

theorem normalize_ty (retyped : store.Retyped v w) :
    store.normalize v.ty = store.normalize w.ty := by
  cases retyped with
  | same => rfl
  | ref binding expands => exact expands

theorem fieldOf (retyped : store.Retyped v w) (name : String) :
    store.fieldOf env v name = store.fieldOf env w name := by
  cases retyped with
  | same => rfl
  | ref binding expands =>
    have types : store.normalize (Value.ref binding _).ty =
        store.normalize (Value.ref binding _).ty := expands
    unfold Store.fieldOf
    rw [types]
    rfl

theorem texts (all : List.Forall₂ store.Retyped vs ws) : Value.texts vs = Value.texts ws := by
  have each : vs.map Value.text = ws.map Value.text := by
    induction all with
    | nil => rfl
    | cons here _ ih => rw [List.map_cons, List.map_cons, here.text, ih]
  rw [Value.texts, Value.texts, each]

theorem areKnown (all : List.Forall₂ store.Retyped vs ws) :
    Value.areKnown vs = Value.areKnown ws := by
  induction all with
  | nil => rfl
  | cons here _ ih => rw [Value.areKnown, Value.areKnown, here.isKnown, ih]

theorem eq_of_areKnown (all : List.Forall₂ store.Retyped vs ws)
    (known : Value.areKnown vs = true) : vs = ws := by
  induction all with
  | nil => rfl
  | cons here _ ih =>
    rw [Value.areKnown, Bool.and_eq_true] at known
    rw [here.eq_of_isKnown known.1, ih known.2]

end Retyped

/-! ### Calls -/

/-- A call is put off alike, or all that it is made with is the same. -/
theorem invoke_retyped {m : Method} {selfTy selfTy' : Option Ty} {receiver receiver' : Option Value}
    {args args' : List Value} (receivers : Option.Rel store.Retyped receiver receiver')
    (all : List.Forall₂ store.Retyped args args')
    (self : receiver = receiver' → args = args' → selfTy = selfTy') :
    store.invoke runner m selfTy receiver args = store.invoke runner m selfTy' receiver' args' := by
  have text : callText receiver m.name args = callText receiver' m.name args' := by
    unfold callText
    rw [Retyped.texts all]
    cases receivers with
    | none => rfl
    | some here =>
      dsimp only
      rw [here.text]
  have known : receiver.all (·.isKnown) = receiver'.all (·.isKnown) := by
    cases receivers with
    | none => rfl
    | some here => exact here.isKnown
  -- The body of a method sees known values alone, which are the same on both sides.
  cases whole : receiver.all (·.isKnown) && Value.areKnown args with
  | true =>
    rw [Bool.and_eq_true] at whole
    have same : args = args' := Retyped.eq_of_areKnown all whole.2
    have receiver_eq : receiver = receiver' := by
      cases receivers with
      | none => rfl
      | some here => rw [here.eq_of_isKnown whole.1]
    rw [self receiver_eq same, receiver_eq, same]
  | false =>
    have whole' : (receiver'.all (·.isKnown) && Value.areKnown args') = false := by
      rw [← known, ← Retyped.areKnown all, whole]
    unfold invoke
    simp only [whole, whole', Method.isConstEvaluable, Bool.and_false, Bool.not_false, if_true,
      all.length_eq, text]

theorem callMethodWith_retyped {v w : Value} (retyped : store.Retyped v w) {name : String}
    {args args' : List Value} (all : List.Forall₂ store.Retyped args args') :
    Kept (outcome (store.callMethodWith runner env v name args))
      (outcome (store.callMethodWith runner env w name args')) := by
  unfold callMethodWith
  simp only [Eval.outcome_bind, Eval.outcome_liftLogged,
    resolveCall_congr retyped.normalize_ty name (store.visibleFrom env)]
  cases (store.resolveCall w.ty name (store.visibleFrom env)).value with
  | found m =>
    have same : store.invoke runner m (some v.ty) (some v) args =
        store.invoke runner m (some w.ty) (some w) args' := by
      refine invoke_retyped (.some retyped) all fun receivers _ => ?_
      rw [Option.some.inj receivers]
    change Kept (outcome (store.invoke runner m (some v.ty) (some v) args))
      (outcome (store.invoke runner m (some w.ty) (some w) args'))
    rw [same]
    exact Kept.carried.refl _
  | ambiguous candidates => exact Kept.fault
  | notFound => exact Kept.fault

/-- What a function found by its path does with its arguments. -/
private def callFound (store : Store) (runner : Runner) (fault : EvalError) (path : String)
    (receiverTy : Option Ty) (args : List Value) (m : Method) : Eval Value :=
  if m.sig.receiver then
    match args with
    | [] => throw fault
    | receiver :: rest => store.invoke runner m (some receiver.ty) (some receiver) rest
  else
    let selfTy := match receiverTy with
      | some t => some t
      | none => (store.type? path).map (·.openTy)
    store.invoke runner m selfTy none args

private theorem callFound_retyped {fault : EvalError} {path : String}
    {receiverTy receiverTy' : Option Ty} {args args' : List Value} {m : Method}
    (all : List.Forall₂ store.Retyped args args')
    (same : args = args' → receiverTy = receiverTy') :
    store.callFound runner fault path receiverTy args m =
      store.callFound runner fault path receiverTy' args' m := by
  unfold callFound
  split
  · cases all with
    | nil => rfl
    | @cons v w vs ws here rest =>
      refine invoke_retyped (.some here) rest fun receivers _ => ?_
      rw [Option.some.inj receivers]
  · refine invoke_retyped .none all fun _ equal => ?_
    rw [same equal]

private theorem resolved_retyped {fault : EvalError} {path written name : String}
    {receiverTy receiverTy' : Option Ty} {args args' : List Value}
    (all : List.Forall₂ store.Retyped args args')
    (expands : receiverTy.map store.normalize = receiverTy'.map store.normalize)
    (same : args = args' → receiverTy = receiverTy') :
    (do
      match ← (store.resolveQualified receiverTy path name : Logged MethodResolution) with
      | .ambiguous candidates _ => throw (.ambiguousCall written name candidates)
      | .notFound => throw fault
      | .found m => store.callFound runner fault path receiverTy args m : Eval Value) =
    (do
      match ← (store.resolveQualified receiverTy' path name : Logged MethodResolution) with
      | .ambiguous candidates _ => throw (.ambiguousCall written name candidates)
      | .notFound => throw fault
      | .found m => store.callFound runner fault path receiverTy' args' m : Eval Value) := by
  have resolved : store.resolveQualified receiverTy path name =
      store.resolveQualified receiverTy' path name := by
    unfold resolveQualified
    rw [expands]
  rw [resolved]
  congr 1
  funext r
  cases r with
  | found m => exact callFound_retyped all same
  | _ => rfl

/-- A function called by its path does the same with arguments of synonymous types. -/
theorem callQualified_retyped {segments : List String} {name : String} {args args' : List Value}
    (all : List.Forall₂ store.Retyped args args') :
    store.callQualified runner env segments name args =
      store.callQualified runner env segments name args' := by
  refine congrArg (Bind.bind (Eval.orElse (store.qualifier? env segments)
    (.unknownName (Path.ofSegments segments)))) (funext fun q => ?_)
  obtain ⟨path, byReceiver⟩ := q
  cases byReceiver with
  | false =>
    have expands : (none : Option Ty).map store.normalize = none.map store.normalize := rfl
    exact resolved_retyped all expands fun _ => rfl
  | true =>
    cases all with
    | nil => rfl
    | @cons v w vs ws here rest =>
      refine resolved_retyped (.cons here rest) ?_ fun equal => ?_
      · exact congrArg some here.normalize_ty
      · rw [(List.cons.inj equal).1]

private theorem call_single {only : String} (other : only ≠ "Some") (args : List Value) :
    store.call runner env [only] args = throw (.unknownName only) := by
  unfold call
  split <;> simp_all

private theorem call_path (first second : String) (rest : List String) (args : List Value) :
    store.call runner env (first :: second :: rest) args =
      store.callQualified runner env (first :: second :: rest).dropLast
        ((first :: second :: rest).getLast?.getD "") args := by
  unfold call
  split <;> simp_all

theorem call_retyped {callee : List String} {args args' : List Value}
    (all : List.Forall₂ store.Retyped args args') (same : callee = ["Some"] → args = args') :
    store.call runner env callee args = store.call runner env callee args' := by
  match callee with
  | [] => rfl
  | [only] =>
    by_cases constructor : only = "Some"
    · rw [same (by rw [constructor])]
    · rw [call_single constructor, call_single constructor]
  | first :: second :: rest =>
    rw [call_path, call_path]
    exact callQualified_retyped all

/-! ### Expressions -/

/-- The value of an expression is kept when the names that stand by themselves keep theirs. -/
private def KeptWith (store : Store) (runner : Runner) (env : Env) (vars : NameMap Value)
    (e : Expr) : Prop :=
  (∀ n ∈ e.bare false, env.vars.get? n = vars.get? n) →
    Kept (outcome (store.evalWith runner env e))
      (outcome (store.evalWith runner { env with vars := vars } e))

private theorem KeptWith.inside {e : Expr} (kept : store.KeptWith runner env vars e)
    (alike : ∀ n, Option.Rel store.Retyped (env.vars.get? n) (vars.get? n)) (inside : Bool)
    (same : ∀ n ∈ e.bare inside, env.vars.get? n = vars.get? n) :
    Keeps store.Retyped (outcome (store.evalWith runner env e))
      (outcome (store.evalWith runner { env with vars := vars } e)) := by
  have whole (same : ∀ n ∈ e.bare false, env.vars.get? n = vars.get? n) :
      Keeps store.Retyped (outcome (store.evalWith runner env e))
        (outcome (store.evalWith runner { env with vars := vars } e)) :=
    fun v found => ⟨v, kept same v found, .same v⟩
  cases inside with
  | false => exact whole same
  | true =>
    cases e with
    | ident name =>
      have here := alike name
      simp only [evalWith, Eval.outcome_orElse]
      generalize env.vars.get? name = x at here ⊢
      generalize vars.get? name = y at here ⊢
      cases here with
      | none =>
        intro a found
        cases found
      | @some v w retyped =>
        intro a found
        cases found
        exact ⟨w, rfl, retyped⟩
    | _ => exact whole same

private theorem evalAll_inside {es : List Expr} (each : ∀ e ∈ es, store.KeptWith runner env vars e)
    (alike : ∀ n, Option.Rel store.Retyped (env.vars.get? n) (vars.get? n)) (inside : Bool)
    (same : ∀ n ∈ Expr.bareAll inside es, env.vars.get? n = vars.get? n) :
    Keeps (List.Forall₂ store.Retyped) (outcome (store.evalAll runner env es))
      (outcome (store.evalAll runner { env with vars := vars } es)) := by
  induction es with
  | nil =>
    intro vs found
    cases found
    exact ⟨[], rfl, .nil⟩
  | cons e rest ih =>
    rw [List.forall_mem_cons] at each
    rw [Expr.bareAll, List.forall_mem_append] at same
    intro vs found
    simp only [evalAll, Eval.outcome_bind, Eval.outcome_pure] at found ⊢
    obtain ⟨v, here, found⟩ := except_bind_eq_ok.mp found
    obtain ⟨ws, there, made⟩ := except_bind_eq_ok.mp found
    cases made
    obtain ⟨v', here', retyped⟩ := each.1.inside alike inside same.1 v here
    obtain ⟨ws', there', all⟩ := ih each.2 same.2 ws there
    refine ⟨v' :: ws', ?_, .cons retyped all⟩
    rw [here', there']
    rfl

private theorem evalAll_kept {es : List Expr} (each : ∀ e ∈ es, store.KeptWith runner env vars e)
    (same : ∀ n ∈ Expr.bareAll false es, env.vars.get? n = vars.get? n) :
    Kept (outcome (store.evalAll runner env es))
      (outcome (store.evalAll runner { env with vars := vars } es)) := by
  induction es with
  | nil => exact Kept.carried.refl _
  | cons e rest ih =>
    rw [List.forall_mem_cons] at each
    rw [Expr.bareAll, List.forall_mem_append] at same
    simp only [evalAll, Eval.outcome_bind]
    exact Kept.carried.bind (each.1 same.1) fun v =>
      Kept.carried.bind (ih each.2 same.2) fun vs => Kept.carried.refl _

private theorem evalFields_kept {fields : List (String × Expr)} {decl : TypeDecl}
    {given : NameMap Value} (each : ∀ f ∈ fields, store.KeptWith runner env vars f.2)
    (same : ∀ n ∈ Expr.bareFields fields, env.vars.get? n = vars.get? n) :
    Kept (outcome (store.evalFields runner env decl given fields))
      (outcome (store.evalFields runner { env with vars := vars } decl given fields)) := by
  induction fields generalizing given with
  | nil => exact Kept.carried.refl _
  | cons f rest ih =>
    rw [List.forall_mem_cons] at each
    rw [Expr.bareFields, List.forall_mem_append] at same
    simp only [evalFields, Eval.outcome_bind]
    exact Kept.carried.bind (Kept.carried.refl _) fun _ =>
      Kept.carried.bind (each.1 same.1) fun v => ih each.2 same.2

/-- Two operands are the same, or one of them is unknown and their texts are the same. -/
private theorem operands_retyped {l l' r r' : Value} (left : store.Retyped l l')
    (right : store.Retyped r r') :
    (l = l' ∧ r = r') ∨ ((!l.isKnown || !r.isKnown) = true ∧ (!l'.isKnown || !r'.isKnown) = true ∧
      ∀ op, Value.operationText op l r = Value.operationText op l' r') := by
  cases known : l.isKnown && r.isKnown with
  | true =>
    rw [Bool.and_eq_true] at known
    exact Or.inl ⟨left.eq_of_isKnown known.1, right.eq_of_isKnown known.2⟩
  | false =>
    have unknown : (!l.isKnown || !r.isKnown) = true := by
      rw [← Bool.not_and, known]
      rfl
    refine Or.inr ⟨unknown, ?_, fun op => ?_⟩
    · rw [← left.isKnown, ← right.isKnown, unknown]
    · rw [Value.operationText, Value.operationText, left.text, right.text]

private theorem compareEqual_retyped {op : BinaryOp} {l l' r r' : Value}
    (left : store.Retyped l l') (right : store.Retyped r r') :
    store.compareEqual runner env op l r = store.compareEqual runner env op l' r' := by
  rcases operands_retyped left right with ⟨rfl, rfl⟩ | ⟨unknown, unknown', text⟩
  · rfl
  · unfold compareEqual
    rw [if_pos unknown, if_pos unknown', text]

private theorem compareBy_retyped {op : BinaryOp} {l l' r r' : Value}
    (left : store.Retyped l l') (right : store.Retyped r r') :
    Value.compareBy op l r = Value.compareBy op l' r' := by
  rcases operands_retyped left right with ⟨rfl, rfl⟩ | ⟨unknown, unknown', text⟩
  · rfl
  · unfold Value.compareBy
    rw [if_pos unknown, if_pos unknown', text]

private theorem keptWith_of_alike
    (alike : ∀ n, Option.Rel store.Retyped (env.vars.get? n) (vars.get? n)) (e : Expr) :
    store.KeptWith runner env vars e := by
  -- The condition on the names differs from part to part, so it is a part of what is proved.
  induction e using Expr.inductionOn with
  | lit | self | path | closure => exact fun _ => Kept.carried.refl _
  | ident name =>
    intro same
    have here : env.vars.get? name = vars.get? name := same name (List.mem_singleton_self name)
    simp only [evalWith, here]
    exact Kept.carried.refl _
  | field base name optional ih =>
    intro same
    simp only [evalWith, Eval.outcome_bind]
    cases optional with
    | false =>
      refine (ih.inside alike true same).bind fun v w retyped => ?_
      simp only [chainIf, Bool.false_eq_true, if_false, Eval.outcome_liftExcept]
      rw [retyped.fieldOf]
      exact Kept.carried.refl _
    | true => exact Kept.carried.bind (ih same) fun v => Kept.carried.refl _
  | method receiver name args optional ih ihs =>
    intro same
    rw [Expr.bare, List.forall_mem_append] at same
    simp only [evalWith, Eval.outcome_bind]
    cases optional with
    | false =>
      refine (ih.inside alike true same.1).bind fun v w retyped => ?_
      refine (evalAll_inside ihs alike true same.2).bind fun vs ws all => ?_
      exact callMethodWith_retyped retyped all
    | true =>
      refine Kept.carried.bind (ih same.1) fun v => ?_
      refine (evalAll_inside ihs alike true same.2).bind fun vs ws all => ?_
      exact chainIf_carried Kept.carried true v fun u => callMethodWith_retyped (.same u) all
  | call callee args ihs =>
    intro same
    simp only [evalWith, Eval.outcome_bind]
    by_cases constructor : callee = ["Some"]
    · subst constructor
      exact Kept.carried.bind (evalAll_kept ihs same) fun vs => Kept.carried.refl _
    · have inside : (callee != ["Some"]) = true := by simpa using constructor
      rw [Expr.bare, inside] at same
      refine (evalAll_inside ihs alike true same).bind fun vs ws all => ?_
      have called : store.call runner env callee vs = store.call runner env callee ws :=
        call_retyped all fun is => absurd is constructor
      rw [called]
      exact Kept.carried.refl _
  | unary op operand ih =>
    intro same
    simp only [evalWith, Eval.outcome_bind]
    exact Kept.carried.bind (ih same) fun v => Kept.carried.refl _
  | binary op left right ihl ihr =>
    intro same
    rw [Expr.bare, List.forall_mem_append] at same
    simp only [evalWith, Eval.outcome_bind]
    cases op with
    | eq | ne =>
      refine (ihl.inside alike true same.1).bind fun l l' lefts => ?_
      simp only [Eval.outcome_bind]
      refine (ihr.inside alike true same.2).bind fun r r' rights => ?_
      rw [compareEqual_retyped lefts rights]
      exact Kept.carried.refl _
    | lt | le | gt | ge =>
      refine (ihl.inside alike true same.1).bind fun l l' lefts => ?_
      simp only [Eval.outcome_bind]
      refine (ihr.inside alike true same.2).bind fun r r' rights => ?_
      rw [compareBy_retyped lefts rights]
      exact Kept.carried.refl _
    | and | or =>
      refine Kept.carried.bind (ihl same.1) fun l => ?_
      simp only [Eval.outcome_bind, Eval.outcome_liftExcept]
      refine Kept.carried.bind (Kept.carried.refl _) fun lTruth => ?_
      split
      · exact Kept.carried.refl _
      · simp only [Eval.outcome_bind]
        exact Kept.carried.bind (ihr same.2) fun r => Kept.carried.refl _
    | _ =>
      refine Kept.carried.bind (ihl same.1) fun l => ?_
      simp only [Eval.outcome_bind]
      exact Kept.carried.bind (ihr same.2) fun r => Kept.carried.refl _
  | list items ihs =>
    intro same
    simp only [evalWith, Eval.outcome_bind]
    exact Kept.carried.bind (evalAll_kept ihs same) fun vs => Kept.carried.refl _
  | record path fields ihs =>
    intro same
    simp only [evalWith, Eval.outcome_bind]
    refine Kept.carried.bind (Kept.carried.refl _) fun decl => ?_
    split
    · exact Kept.carried.refl _
    · simp only [Eval.outcome_bind]
      exact Kept.carried.bind (evalFields_kept ihs same) fun given => Kept.carried.refl _

/-- An expression keeps its value when names that are only looked into get other types with the same
expansion. -/
theorem eval_retyped {e : Expr}
    (alike : ∀ n, Option.Rel store.Retyped (env.vars.get? n) (vars.get? n))
    (same : ∀ n ∈ e.bare false, env.vars.get? n = vars.get? n) :
    Kept (outcome (store.eval env e)) (outcome (store.eval { env with vars := vars } e)) := by
  unfold eval
  cases store.maxDepth with
  | zero => exact keptWith_of_alike alike e same
  | succ depth => exact keptWith_of_alike alike e same

end Store
end Pipeline

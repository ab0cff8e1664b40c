import Mathlib.Data.List.Induction
import Pipeline.Proofs.Eval.Deferral
import Pipeline.Proofs.Eval.Depth

/-!
# Optional steps

A field or a method may be reached through an optional value. Its result is put into an option: by
its type where the optional value is not known, by its form where a value is present. The two differ
where the result is not known and its type is that of options.
-/

set_option autoImplicit false
set_option relaxedAutoImplicit false

namespace Pipeline

open Eval (outcome Yields)

/-- A step from a value to another one: to a field, or to the result of a method. -/
inductive Access where
  | field (name : String)
  | method (name : String) (args : List Expr)

/-- A step that is taken after an expression. -/
def Access.after (optional : Bool) (e : Expr) : Access → Expr
  | field name => .field e name optional
  | method name args => .method e name args optional

namespace Expr

/-- Steps that are taken one after another. -/
def through (optional : Bool) (e : Expr) (steps : List Access) : Expr :=
  steps.foldl (Access.after optional) e

/-- The option that holds what an expression comes to. -/
def present (e : Expr) : Expr := .call ["Some"] [e]

theorem through_concat (optional : Bool) (e : Expr) (steps : List Access) (s : Access) :
    e.through optional (steps ++ [s]) = s.after optional (e.through optional steps) := by
  simp [through]

end Expr

namespace Value

/-- What an optional value holds, which is not known where the optional value is not. -/
def content? (base : Value) : Option Value :=
  match base with
  | some v => Option.some v
  | ref _ _ | deferred _ _ =>
    if base.ty.path? = Option.some Builtin.option then
      Option.some (deferred (base.ty.args.head?.getD .infer) base.text)
    else Option.none
  | _ => Option.none

/-- The type of an option whose form is not looked at. -/
theorem optionOf_eq {t : Ty} (other : t.path? ≠ Option.some Builtin.option) :
    optionOf t = .std "Option" [t] := by
  rw [optionOf, if_neg other]
  rfl

theorem optionOf_eq_iff {t : Ty} :
    optionOf t = .std "Option" [t] ↔ t.path? ≠ Option.some Builtin.option := by
  refine ⟨fun same option => ?_, optionOf_eq⟩
  rw [optionOf, if_pos option] at same
  have sizes := congrArg sizeOf same
  simp only [Ty.std, Ty.named.sizeOf_spec, List.cons.sizeOf_spec] at sizes
  omega

/-- A reference or a deferred value. -/
inductive IsUnknown : Value → Prop
  | ref (binding : String) (t : Ty) : IsUnknown (ref binding t)
  | deferred (t : Ty) (call : String) : IsUnknown (deferred t call)

/-- An option is made by form as it is by type, unless a value has the type of options only. -/
theorem ty_intoOption (v : Value) :
    (intoOption v).ty = optionOf v.ty ∨
      v.ty.path? = Option.some Builtin.option ∧ intoOption v = some v := by
  by_cases option : v.ty.path? = Option.some Builtin.option
  · rw [optionOf, if_pos option]
    cases v with
    | none | some => exact Or.inl rfl
    | _ => exact Or.inr ⟨option, rfl⟩
  · rw [optionOf_eq option]
    cases v with
    | none | some => exact absurd rfl option
    | _ => exact Or.inl rfl

end Value

namespace Store

variable {store : Store} {env : Env} {e ex ey : Expr} {v w x y base : Value}

/-! ### Steps and their meanings -/

/-- What a step does with a value, once the arguments of a call have been evaluated. -/
def stepOf (store : Store) (env : Env) :
    Access → Except EvalError (Value → Except EvalError Value)
  | .field name => .ok fun v => store.fieldOf env v name
  | .method name args => do
    let args ← outcome (store.evalAll (store.runnerAt store.maxDepth) env args)
    .ok fun v => outcome (store.callMethodWith (store.runnerAt store.maxDepth) env v name args)

/-- Puts the result of a step on what an optional value holds into an option. -/
def optionally (base : Value) (f : Value → Except EvalError Value) : Except EvalError Value :=
  match base with
  | .none => .ok .none
  | .some v => Value.intoOption <$> f v
  | .ref _ _ | .deferred _ _ =>
    match base.content? with
    | some c => (fun r => .deferred (Value.optionOf r.ty) r.text) <$> f c
    | none => .error (.type (.needsOption base.ty))
  | _ => .error (.type (.needsOption base.ty))

theorem outcome_chain (base : Value) (step : Value → Eval Value) :
    outcome (chain base step) = optionally base fun v => outcome (step v) := by
  cases base with
  | some v => exact Eval.outcome_map _ _
  | ref | deferred =>
    unfold chain optionally
    dsimp only [Value.content?]
    split
    · simp only [Eval.outcome_bind, Eval.outcome_pure]
      generalize outcome (step _) = r
      cases r <;> rfl
    · rfl
  | _ => rfl

/-- The value of an expression, and then what the step does with it. -/
theorem outcome_after (s : Access) (e : Expr) :
    outcome (store.eval env (s.after false e)) =
      outcome (store.eval env e) >>= fun v => store.stepOf env s >>= fun f => f v := by
  cases s with
  | field name =>
    simp only [Access.after, eval, evalTo_eq, evalWith, Eval.outcome_bind, chainIf,
      Bool.false_eq_true, if_false, Eval.outcome_liftExcept]
    rfl
  | method name args =>
    simp only [Access.after, eval, evalTo_eq, evalWith, Eval.outcome_bind, chainIf,
      Bool.false_eq_true, if_false, stepOf, bind_assoc]
    rfl

theorem outcome_after_optional (s : Access) (e : Expr) :
    outcome (store.eval env (s.after true e)) =
      outcome (store.eval env e) >>= fun v => store.stepOf env s >>= optionally v := by
  cases s with
  | field name =>
    simp only [Access.after, eval, evalTo_eq, evalWith, Eval.outcome_bind, chainIf, if_true,
      outcome_chain, Eval.outcome_liftExcept]
    rfl
  | method name args =>
    simp only [Access.after, eval, evalTo_eq, evalWith, Eval.outcome_bind, chainIf, if_true,
      outcome_chain, stepOf, bind_assoc]
    rfl

theorem outcome_present (e : Expr) :
    outcome (store.eval env e.present) = Value.some <$> outcome (store.eval env e) := by
  simp only [Expr.present, eval, evalTo_eq, evalWith, evalAll, Eval.outcome_bind]
  generalize outcome (store.evalWith _ env e) = r
  cases r <;> rfl

/-- The type of what an expression comes to. -/
def typeOf (store : Store) (env : Env) (e : Expr) : Except EvalError Ty :=
  Value.ty <$> outcome (store.eval env e)

/-! ### Steps on what is not known -/

/-- The same fault, or values that are not known, the second one of a type that is made of the type
of the first one. -/
inductive Unknowns (made : Ty → Ty) : Except EvalError Value → Except EvalError Value → Prop
  | fault (e : EvalError) : Unknowns made (.error e) (.error e)
  | values {v w : Value} : v.IsUnknown → w.IsUnknown → w.ty = made v.ty →
      Unknowns made (.ok v) (.ok w)

variable {made made' : Ty → Ty} {r q : Except EvalError Value}

theorem Unknowns.ty (unknowns : Unknowns made r q) :
    Value.ty <$> q = made <$> (Value.ty <$> r) := by
  cases unknowns with
  | fault e => rfl
  | values _ _ typed => exact congrArg Except.ok typed

theorem Unknowns.yields (unknowns : Unknowns made r q) : Yields Value.IsUnknown r := by
  cases unknowns with
  | fault e => exact Yields.error
  | values unknown _ _ => exact Yields.ok unknown

theorem Unknowns.mono (unknowns : Unknowns made r q)
    (same : ∀ t, Value.ty <$> r = .ok t → made t = made' t) : Unknowns made' r q := by
  cases unknowns with
  | fault e => exact .fault e
  | values unknown unknown' typed =>
    exact .values unknown unknown' (typed.trans (same _ rfl))

private theorem fieldOf_unknowns (unknown : v.IsUnknown) (unknown' : w.IsUnknown)
    (same : v.ty = w.ty) (name : String) :
    Unknowns id (store.fieldOf env v name) (store.fieldOf env w name) := by
  unfold fieldOf
  rw [same]
  cases unknown <;> cases unknown' <;> dsimp only <;> split
  all_goals first
    | exact .fault _
    | split
      · exact .fault _
      · exact .values (.deferred _ _) (.deferred _ _) rfl

private theorem callMethodWith_unknowns {runner : Runner} (unknown : v.IsUnknown)
    (unknown' : w.IsUnknown) (same : v.ty = w.ty) (name : String) (args : List Value) :
    Unknowns id (outcome (store.callMethodWith runner env v name args))
      (outcome (store.callMethodWith runner env w name args)) := by
  have known : v.isKnown = false := by cases unknown <;> rfl
  have known' : w.isKnown = false := by cases unknown' <;> rfl
  unfold callMethodWith
  simp only [Eval.outcome_bind, Eval.outcome_liftLogged, same]
  cases (store.resolveCall w.ty name (store.visibleFrom env)).value with
  | ambiguous | notFound => exact .fault _
  | found m =>
    change Unknowns id (outcome (store.invoke runner m (some w.ty) (some v) args))
      (outcome (store.invoke runner m (some w.ty) (some w) args))
    unfold invoke
    cases runner with
    | none => exact .fault _
    | some run =>
      dsimp only
      split
      · exact .fault _
      · simp only [Option.all_some, known, known', Bool.false_and, Method.isConstEvaluable,
          Bool.and_false, Bool.not_false, if_true]
        exact .values (.deferred _ _) (.deferred _ _) rfl

/-- A step on a value that is not known goes by its type alone, and the result is not known
either. -/
theorem stepOf_unknowns {s : Access} {f : Value → Except EvalError Value}
    (found : store.stepOf env s = .ok f) (unknown : v.IsUnknown) (unknown' : w.IsUnknown)
    (same : v.ty = w.ty) : Unknowns id (f v) (f w) := by
  cases s with
  | field name =>
    cases found
    exact fieldOf_unknowns unknown unknown' same name
  | method name args =>
    obtain ⟨args, -, given⟩ := except_bind_eq_ok.mp found
    cases given
    exact callMethodWith_unknowns unknown unknown' same name args

private theorem optionally_of_isUnknown {t : Ty} (unknown : base.IsUnknown)
    (typed : base.ty = .std "Option" [t]) (f : Value → Except EvalError Value) :
    optionally base f =
      (fun r => .deferred (Value.optionOf r.ty) r.text) <$> f (.deferred t base.text) := by
  have option : (Ty.std "Option" [t]).path? = some Builtin.option := rfl
  have content : base.content? = some (.deferred t base.text) := by
    cases unknown <;> rw [Value.content?, typed, if_pos option] <;> rfl
  cases unknown <;> rw [optionally, content]

/-- One step on a value and, as an optional one, on an option. -/
theorem Unknowns.step (unknowns : Unknowns (fun t => .std "Option" [t]) r q) (s : Access) :
    Unknowns Value.optionOf (r >>= fun v => store.stepOf env s >>= fun f => f v)
      (q >>= fun v => store.stepOf env s >>= optionally v) := by
  cases unknowns with
  | fault e => exact .fault e
  | @values v w unknown unknown' typed =>
    cases found : store.stepOf env s with
    | error e => exact .fault e
    | ok f =>
      change Unknowns Value.optionOf (f v) (optionally w f)
      rw [optionally_of_isUnknown unknown' typed]
      have steps := stepOf_unknowns found unknown (.deferred v.ty w.text) rfl
      generalize f v = here at steps ⊢
      generalize f (.deferred v.ty w.text) = there at steps ⊢
      cases steps with
      | fault e => exact .fault e
      | values first _ same => exact .values first (.deferred _ _) (congrArg Value.optionOf same)

/-! ### Chains of steps -/

/-- None of the results of some steps on a value is of a type of options. -/
def NeverOptional (store : Store) (env : Env) (e : Expr) (steps : List Access) : Prop :=
  ∀ taken, taken <+: steps → taken ≠ [] → ∀ t, store.typeOf env (e.through false taken) = .ok t →
    t.path? ≠ some Builtin.option

theorem outcome_through_concat (e : Expr) (steps : List Access) (s : Access) :
    outcome (store.eval env (e.through false (steps ++ [s]))) =
      outcome (store.eval env (e.through false steps)) >>= fun v =>
        store.stepOf env s >>= fun f => f v := by
  rw [Expr.through_concat, outcome_after]

theorem outcome_through_optional_concat (e : Expr) (steps : List Access) (s : Access) :
    outcome (store.eval env (e.through true (steps ++ [s]))) =
      outcome (store.eval env (e.through true steps)) >>= fun v =>
        store.stepOf env s >>= optionally v := by
  rw [Expr.through_concat, outcome_after_optional]

/-- Steps on what is not known come to what is not known. -/
theorem through_yields (unknown : Yields Value.IsUnknown (outcome (store.eval env e)))
    (steps : List Access) :
    Yields Value.IsUnknown (outcome (store.eval env (e.through false steps))) := by
  induction steps using List.reverseRecOn with
  | nil => exact unknown
  | append_singleton steps s ih =>
    rw [outcome_through_concat]
    refine Yields.bind ih fun v here => ?_
    refine Yields.bind (P := fun f => store.stepOf env s = .ok f) (fun f found => found)
      fun f found => ?_
    exact (stepOf_unknowns found here here rfl).yields

/-- Through a present value that is not known, optional steps are the steps on it. -/
theorem through_present (unknown : Yields Value.IsUnknown (outcome (store.eval env e)))
    (steps : List Access) :
    outcome (store.eval env (e.present.through true steps)) =
      Value.some <$> outcome (store.eval env (e.through false steps)) := by
  induction steps using List.reverseRecOn with
  | nil => exact outcome_present e
  | append_singleton steps s ih =>
    have here := through_yields unknown steps
    have there := through_yields unknown (steps ++ [s])
    rw [outcome_through_concat] at there ⊢
    rw [outcome_through_optional_concat, ih]
    generalize outcome (store.eval env (e.through false steps)) = r at here there ⊢
    cases r with
    | error fault => rfl
    | ok v =>
      cases found : store.stepOf env s with
      | error fault => rfl
      | ok f =>
        rw [found] at there
        change Value.intoOption <$> f v = Value.some <$> f v
        replace there : Yields Value.IsUnknown (f v) := there
        generalize f v = result at there ⊢
        cases result with
        | error fault => rfl
        | ok u =>
          have unknown := there u rfl
          cases unknown <;> rfl

/-- Optional steps through an option that is not known come to options of what the steps come to. -/
theorem through_unknown (unknowns : Unknowns (fun t => .std "Option" [t])
      (outcome (store.eval env ex)) (outcome (store.eval env ey)))
    {steps : List Access} (plain : store.NeverOptional env ex steps) :
    Unknowns (fun t => .std "Option" [t]) (outcome (store.eval env (ex.through false steps)))
      (outcome (store.eval env (ey.through true steps))) := by
  induction steps using List.reverseRecOn with
  | nil => exact unknowns
  | append_singleton steps s ih =>
    have before := ih fun taken within => plain taken (within.trans (List.prefix_append _ _))
    have typed := plain (steps ++ [s]) (List.prefix_refl _) (by simp)
    rw [typeOf, outcome_through_concat] at typed
    rw [outcome_through_concat, outcome_through_optional_concat]
    exact (before.step s).mono fun t found => Value.optionOf_eq (typed t found)

/-- The result of an optional step is put into an option by its type, but not where a value is
present and the type of the result is that of options, and its form is not. -/
theorem optionally_ty {f : Value → Except EvalError Value} (found : optionally base f = .ok v) :
    base = .none ∧ v = .none ∨ ∃ c r, base.content? = some c ∧ f c = .ok r ∧
      (v.ty = Value.optionOf r.ty ∨
        base = .some c ∧ r.ty.path? = some Builtin.option ∧ v = .some r) := by
  cases base with
  | none =>
    cases found
    exact Or.inl ⟨rfl, rfl⟩
  | some c =>
    obtain ⟨r, result, made⟩ := except_bind_eq_ok.mp found
    cases made
    refine Or.inr ⟨c, r, rfl, result, ?_⟩
    exact (Value.ty_intoOption r).imp_right fun shaped => ⟨rfl, shaped⟩
  | ref | deferred =>
    unfold optionally at found
    dsimp only at found
    split at found
    · rename_i c content
      obtain ⟨r, result, made⟩ := except_bind_eq_ok.mp found
      cases made
      exact Or.inr ⟨c, r, content, result, Or.inl rfl⟩
    · cases found
  | _ => cases found

/-- **Optional steps and types.** Through an option that is not known, a step comes to the option of
the type of its result, and a result that is an option is not put into another one. Through a
present value that is not known, optional steps come to what the steps on the value come to, inside
an option; so the two types are the same as long as no result is of a type of options, and for one
step only then. What the last step of a chain comes to goes by the same rule: it is the option of
the type of the result, unless this is of a type of options, but not of their form, and reached
through a present value. -/
theorem chain_type (store : Store) (env : Env) {ex ey : Expr} {x y : Value}
    (unknown : x.IsUnknown) (unknown' : y.IsUnknown) (given : outcome (store.eval env ex) = .ok x)
    (given' : outcome (store.eval env ey) = .ok y) (typed : y.ty = .std "Option" [x.ty]) :
    (∀ s : Access, store.typeOf env (s.after true ey) =
      Value.optionOf <$> store.typeOf env (s.after false ex)) ∧
    (∀ steps, outcome (store.eval env (ex.present.through true steps)) =
      Value.some <$> outcome (store.eval env (ex.through false steps))) ∧
    (∀ steps, store.NeverOptional env ex steps →
      store.typeOf env (ex.present.through true steps) =
        store.typeOf env (ey.through true steps)) ∧
    (∀ (s : Access) (t : Ty), store.typeOf env (s.after false ex) = .ok t →
      (store.typeOf env (s.after true ex.present) = store.typeOf env (s.after true ey) ↔
        t.path? ≠ some Builtin.option)) ∧
    ∀ (e : Expr) (steps : List Access) (s : Access) (v : Value),
      outcome (store.eval env (e.through true (steps ++ [s]))) = .ok v →
      ∃ base, outcome (store.eval env (e.through true steps)) = .ok base ∧
        (base = .none ∧ v = .none ∨ ∃ f c r, store.stepOf env s = .ok f ∧
          base.content? = some c ∧ f c = .ok r ∧ (v.ty = Value.optionOf r.ty ∨
            base = .some c ∧ r.ty.path? = some Builtin.option ∧ v = .some r)) := by
  have unknowns : Unknowns (fun t => .std "Option" [t]) (outcome (store.eval env ex))
      (outcome (store.eval env ey)) := by
    rw [given, given']
    exact .values unknown unknown' typed
  have present (steps : List Access) := through_present unknowns.yields steps
  have optional (s : Access) : store.typeOf env (s.after true ey) =
      Value.optionOf <$> store.typeOf env (s.after false ex) := by
    rw [typeOf, typeOf, outcome_after, outcome_after_optional]
    exact (unknowns.step s).ty
  have inside (steps : List Access) : store.typeOf env (ex.present.through true steps) =
      (fun t => .std "Option" [t]) <$> store.typeOf env (ex.through false steps) := by
    rw [typeOf, typeOf, present]
    generalize outcome (store.eval env (ex.through false steps)) = r
    cases r <;> rfl
  refine ⟨optional, present, fun steps plain => ?_, fun s t found => ?_,
    fun e steps s v found => ?_⟩
  · rw [inside, typeOf, typeOf, (through_unknown unknowns plain).ty]
  · have first : store.typeOf env (s.after true ex.present) = .ok (.std "Option" [t]) := by
      have step := inside [s]
      rw [show ex.through false [s] = s.after false ex from rfl, found] at step
      exact step
    have second : store.typeOf env (s.after true ey) = .ok (Value.optionOf t) := by
      rw [optional s, found]
      rfl
    rw [first, second, ← Value.optionOf_eq_iff]
    exact ⟨fun same => (Except.ok.inj same).symm, fun same => congrArg Except.ok same.symm⟩
  · rw [outcome_through_optional_concat] at found
    obtain ⟨base, before, found⟩ := except_bind_eq_ok.mp found
    obtain ⟨f, meaning, found⟩ := except_bind_eq_ok.mp found
    refine ⟨base, before, (optionally_ty found).imp_right ?_⟩
    rintro ⟨c, r, content, result, types⟩
    exact ⟨f, c, r, meaning, content, result, types⟩

/-- A declaration of drawers for values of any type. -/
def drawerDecl : TypeDecl where
  path := "shop::Drawer"
  name := "Drawer"
  module := "shop"
  generics := [⟨"T", .type, none⟩]
  kind := .struct [⟨"top", .param "T", true, none⟩,
    ⟨"rest", .std "Option" [.param "T"], true, none⟩]
  component := none
  explain := none

/-- A store that declares drawers alone. -/
def drawerStore : Store :=
  { (default : Store) with types := [("shop::Drawer", drawerDecl)], maxDepth := 4 }

/-- Surroundings with a drawer and with an optional one, neither of which is known. -/
def drawerEnv : Env where
  module := "shop"
  vars := [("drawer", .ref "drawer" (.named "shop::Drawer" [.std "u8" []])),
    ("found", .ref "found" (.std "Option" [.named "shop::Drawer" [.std "u8" []]]))]

/-- What lies on top of a drawer is of one type, however the drawer is reached. -/
theorem chain_type_top :
    drawerStore.typeOf drawerEnv ((Access.field "top").after true (Expr.ident "drawer").present) =
      drawerStore.typeOf drawerEnv ((Access.field "top").after true (.ident "found")) := by
  have types := @chain_type drawerStore drawerEnv (.ident "drawer") (.ident "found") _ _
    (.ref _ _) (.ref _ _) rfl rfl rfl
  exact (types.2.2.2.1 (.field "top") (.std "u8" []) rfl).mpr (by decide)

/-- The rest of a drawer is an option. It is put into another one if the drawer is present, and is
left as it is if it is not known whether there is a drawer. -/
theorem rest_nested :
    drawerStore.typeOf drawerEnv ((Access.field "rest").after true (Expr.ident "drawer").present) =
      .ok (.std "Option" [.std "Option" [.std "u8" []]]) ∧
    drawerStore.typeOf drawerEnv ((Access.field "rest").after true (.ident "found")) =
      .ok (.std "Option" [.std "u8" []]) :=
  ⟨rfl, rfl⟩

end Store
end Pipeline

import Pipeline.Proofs.Eval.BuiltIns
import Pipeline.Proofs.Eval.Equality
import Pipeline.Proofs.Store.PreludeImpls

/-!
# Membership in a list

The method by which a list is asked for an item compares the item with its own items part by part.
The operator `==` compares in this way only what has no declared equality: values of other types
are compared by their method `eq`. So membership goes by `==` as long as no body of such a method
decides.
-/

set_option autoImplicit false
set_option relaxedAutoImplicit false

namespace Pipeline.Store

open Eval (outcome)

variable {ds : List Document} {maxDepth : Nat} {s : Store} {env : Env} {x : Bool}

/-- What comes of asking whether a value of a list equals an item. -/
def equalIn (s : Store) (env : Env) (value item : Value) : Except EvalError Value :=
  outcome (s.eval ((env.withVar "item" item).withVar "value" value)
    (.binary .eq (.ident "value") (.ident "item")))

/-- What comes of asking a list for an item. -/
def containsIn (s : Store) (env : Env) (values : List Value) (item : Value) :
    Except EvalError Value :=
  outcome (s.eval ((env.withVar "item" item).withVar "list" (.list values))
    (.method (.ident "list") "contains" [.ident "item"] false))

/-- True for a call that means a method with a body inside the declarations. -/
def runsBody : MethodResolution → Bool
  | .found m => !m.isBodiless
  | _ => false

/-- True for two values that are compared by the body of a method. -/
def comparedByBody (s : Store) (env : Env) (l r : Value) : Bool :=
  !(l.isStructural && r.isStructural) &&
    runsBody (s.resolveCall l.ty "eq" (s.visibleFrom env)).value

/-- A truth value that comes of a call of a method without a body is that of the built-in one. -/
theorem builtin_of_callMethodWith {depth : Nat} {receiver : Value} {name : String}
    {args : List Value} {m : Method}
    (found : (s.resolveCall receiver.ty name (s.visibleFrom env)).value = .found m)
    (bodiless : m.isBodiless = true)
    (result : outcome (s.callMethodWith (s.runnerAt depth) env receiver name args) =
      .ok (.bool x)) :
    Value.builtin name receiver args = some (.ok (.bool x)) := by
  rw [outcome_callMethodWith found] at result
  obtain ⟨v, same, given⟩ := Invocation.builtin_of_builtIn? (builtIn_of_called bodiless result)
  cases same
  rwa [(gives_of_resolveCall found).named] at given

/-- Asking whether two values are equal compares them. -/
theorem equalIn_eq (value item : Value) : s.equalIn env value item =
    outcome (s.compareEqual (s.runnerAt s.maxDepth) env .eq value item) := by
  simp only [equalIn, eval, evalTo_eq, evalWith, Eval.outcome_bind, Eval.outcome_orElse,
    Env.withVar, NameMap.get?_insert, if_true, if_neg (show "value" ≠ "item" by decide)]
  rfl

/-- Asking a list for an item calls its method. -/
theorem containsIn_eq (values : List Value) (item : Value) : s.containsIn env values item =
    outcome (s.callMethodWith (s.runnerAt s.maxDepth) env (.list values) "contains" [item]) := by
  simp only [containsIn, eval, evalTo_eq, evalWith, evalAll, Eval.outcome_bind,
    Eval.outcome_orElse, Env.withVar, NameMap.get?_insert, if_true,
    if_neg (show "list" ≠ "item" by decide)]
  rfl

/-- A list has an item if one of its values is equal to it, part by part. -/
theorem containsIn_eq_ok (loaded : (load ds maxDepth).value = .ok s) {values : List Value}
    {item : Value} (whole : s.containsIn env values item = .ok (.bool x)) :
    x = values.any (·.equal item) := by
  rw [containsIn_eq] at whole
  obtain ⟨m, found, -⟩ := callMethodWith_eq_ok.mp whole
  have external := resolveCall_list loaded (by decide) found
  have bodiless : m.isBodiless = true := by rw [Method.isBodiless, external]; rfl
  cases builtin_of_callMethodWith found bodiless whole
  rfl

/-- Values that no body compares are equal if they are so part by part. -/
theorem equalIn_eq_ok {value item : Value} (plain : s.comparedByBody env value item = false)
    (result : s.equalIn env value item = .ok (.bool x)) : x = value.equal item := by
  rw [equalIn_eq, compareEqual] at result
  split at result
  · cases result
  · split at result
    · cases result
      cases value.equal item <;> rfl
    · rename_i structural
      rw [if_pos rfl] at result
      obtain ⟨m, found, -⟩ := callMethodWith_eq_ok.mp result
      have bodiless : m.isBodiless = true := by
        simpa [comparedByBody, structural, found, runsBody] using plain
      cases builtin_of_callMethodWith found bodiless result
      rfl

/-- A list has an item if and only if one of its values is equal to it part by part; that is what
the operator says of each value that no body of a method compares. -/
theorem contains_iff_equal (ds : List Document) (maxDepth : Nat) (s : Store)
    (loaded : (load ds maxDepth).value = .ok s) (env : Env) (values : List Value) (item : Value)
    (each : ∀ v ∈ values, ∃ y, s.equalIn env v item = .ok (.bool y)) (x : Bool)
    (whole : s.containsIn env values item = .ok (.bool x)) :
    (x = true ↔ ∃ v ∈ values, v.equal item = true) ∧
      (∀ v ∈ values, s.comparedByBody env v item = false →
        s.equalIn env v item = .ok (.bool (v.equal item))) ∧
      ((∀ v ∈ values, s.comparedByBody env v item = false) →
        (x = true ↔ ∃ v ∈ values, s.equalIn env v item = .ok (.bool true))) := by
  have parts : x = true ↔ ∃ v ∈ values, v.equal item = true := by
    rw [containsIn_eq_ok loaded whole, List.any_eq_true]
  have told (v : Value) (member : v ∈ values) (plain : s.comparedByBody env v item = false) :
      s.equalIn env v item = .ok (.bool (v.equal item)) := by
    obtain ⟨y, result⟩ := each v member
    rw [result, equalIn_eq_ok plain result]
  refine ⟨parts, told, fun plain => ?_⟩
  rw [parts]
  refine exists_congr fun v => and_congr_right fun member => ?_
  rw [told v member (plain v member)]
  simp

/-- A document with a type of pennies, and what makes them equal. -/
def pennies (eq : String) : Document where
  module := "shop"
  origin := "shop"
  version := supportedVersion
  kind := .struct
  types :=
    [("Penny", ⟨[], [("cents", .short "u64"), ("year", .short "u64")], [], none, none, none⟩)]
  impls := [⟨"Penny", some "ConstEq", [], [], [], [("eq", eq)], false, none⟩]

def penny (year : Int) : Value :=
  .record (.named "shop::Penny" []) [("cents", .int 1), ("year", .int year)]

/-- What the operator says of two pennies, what lists of them have, and what bodies compare. -/
def answers (s : Store) : (Option Bool × Option Bool) × (Option Bool × Option Bool) × List Bool :=
  ((truth? (s.equalIn { module := "shop" } (penny 1) (penny 2)),
      truth? (s.equalIn { module := "shop" } (penny 2) (penny 2))),
    (truth? (s.containsIn { module := "shop" } [penny 1] (penny 2)),
      truth? (s.containsIn { module := "shop" } [penny 1, penny 2] (penny 2))),
    [penny 1, penny 2].map fun v => s.comparedByBody { module := "shop" } v (penny 2))

-- Both documents in one statement, so that the prelude is read once.
theorem answers_pennies :
    (load [pennies "extern"] 4).value.toOption.map answers =
      some ((some false, some true), (some false, some true), [false, false]) ∧
    (load [pennies "self.cents == other.cents"] 4).value.toOption.map answers =
      some ((some true, some true), (some false, some true), [true, true]) := by
  decide +kernel

/-- Pennies that are compared by a built-in method are found in a list by it. -/
theorem contains_iff_equal_pennies : ∃ s, (load [pennies "extern"] 4).value = .ok s ∧
    (penny 1).isStructural = false ∧
    s.containsIn { module := "shop" } [penny 1, penny 2] (penny 2) = .ok (.bool true) ∧
    ∃ v ∈ [penny 1, penny 2], s.equalIn { module := "shop" } v (penny 2) = .ok (.bool true) := by
  obtain ⟨s, loaded, facts⟩ := Option.map_eq_some_iff.mp answers_pennies.1
  have loaded := ok_of_toOption loaded
  simp only [answers, Prod.mk.injEq, List.map_cons, List.map_nil, List.cons.injEq, and_true]
    at facts
  obtain ⟨⟨first, second⟩, ⟨-, whole⟩, apart, apart'⟩ := facts
  have first := truth?_eq_some first
  have second := truth?_eq_some second
  have whole := truth?_eq_some whole
  have each : ∀ v ∈ [penny 1, penny 2], ∃ y,
      s.equalIn { module := "shop" } v (penny 2) = .ok (.bool y) := by
    simp [first, second]
  have plain : ∀ v ∈ [penny 1, penny 2],
      s.comparedByBody { module := "shop" } v (penny 2) = false := by
    simp [apart, apart']
  have found := contains_iff_equal _ 4 s loaded { module := "shop" } [penny 1, penny 2]
    (penny 2) each true whole
  exact ⟨s, loaded, rfl, whole, (found.2.2 plain).mp rfl⟩

/-- A body that compares less finds a penny equal which the list does not have. -/
theorem penny_equal_and_missing : ∃ s,
    (load [pennies "self.cents == other.cents"] 4).value = .ok s ∧
      s.equalIn { module := "shop" } (penny 1) (penny 2) = .ok (.bool true) ∧
      s.containsIn { module := "shop" } [penny 1] (penny 2) = .ok (.bool false) := by
  obtain ⟨s, loaded, facts⟩ := Option.map_eq_some_iff.mp answers_pennies.2
  simp only [answers, Prod.mk.injEq] at facts
  exact ⟨s, ok_of_toOption loaded, truth?_eq_some facts.1.1, truth?_eq_some facts.2.1.1⟩

end Pipeline.Store

import Pipeline.Proofs.Schema.Faults
import Pipeline.Proofs.Store.Load
import Pipeline.Proofs.Ty.Substitution

/-!
# Defaults of a loaded store

A store that loads has a value for every default, and one of the type declared, unless that type is
open: what an open type is, is known only when the component is given its arguments. A validation
finds the same, since the place at which a value is asked for does not decide what becomes of it.
-/

set_option autoImplicit false
set_option relaxedAutoImplicit false

namespace Pipeline

/-- What becomes of a value is the same at all places, the faults apart. -/
def Conformer.Placeless (conform : Conformer) : Prop :=
  ∀ t place place', (conform t place).value.toOption = (conform t place').value.toOption

namespace Store

/-- What a validation says about a parameter whose type has become `t`. -/
inductive ParamReport (store : Store) (schema : Schema) (supplied : List (String × Value))
    (p : Param) (t : Ty) (place : Location) : List Diagnostic → Prop
  | supplied {name : String} {v : Value} {faults : List Diagnostic} :
      supplied.find? (·.1 == p.name) = some (name, v) →
      (∀ d ∈ faults, store.ParamFault schema { p with ty := t } (some (store.conform v)) place d) →
      ParamReport store schema supplied p t place faults
  | missing : supplied.find? (·.1 == p.name) = none → p.default = none →
      ParamReport store schema supplied p t place [⟨place, .missingRequiredParam p.name⟩]
  /-- The default has the type, and nothing but the checks is left to fail. -/
  | checked {s : Snippet} {v w : Value} {via : Option Conversion} :
      supplied.find? (·.1 == p.name) = none → p.default = some s →
      Eval.outcome (store.eval { module := schema.module } s.expr) = .ok v →
      (store.conformPlain v t place).value = .ok (w, via) →
      ParamReport store schema supplied p t place
        (store.runChecks schema.component (paramEnv schema.module p.name w) place
          (.checkViolation p.name) p.checks).value.faults
  /-- The declared type is open, and the default has not the type that it has become. -/
  | openDefault {s : Snippet} {v : Value} {faults : List Diagnostic} :
      supplied.find? (·.1 == p.name) = none → p.default = some s →
      Eval.outcome (store.eval { module := schema.module } s.expr) = .ok v → p.ty.params ≠ [] →
      (store.conformPlain v t place).value = .error faults →
      ParamReport store schema supplied p t place faults

variable {store : Store}

/-! ### Places -/

private theorem conformBy_placeless {inOption : Location → Ty → Logged (Option Value)}
    (inside : ∀ place place' t, (inOption place t).value = (inOption place' t).value) (v : Value) :
    Conformer.Placeless (store.conformBy inOption v) := by
  intro t place place'
  have present : presentIn (inOption place) (store.normalize t) =
      presentIn (inOption place') (store.normalize t) := by
    simp only [presentIn, inside place place']
  unfold conformBy
  simp only [Logged.value_bind]
  split
  · rfl
  · simp only [Logged.value_bind, convert_value, present]
    cases presentIn (inOption place') (store.normalize t) with
    | some inner => rfl
    | none =>
      cases (store.wrap v (store.normalize t)).value with
      | some w => rfl
      | none =>
        rcases (store.conversions v (store.normalize t) (store.implsOf Builtin.from_) []).value with
          _ | ⟨_, _ | _⟩ <;> rfl

theorem conformTo_placeless (depth : Nat) (v : Value) :
    Conformer.Placeless (store.conformTo depth v) := by
  induction depth with
  | zero => exact conformBy_placeless (fun _ _ _ => rfl) v
  | succ depth ih =>
    refine conformBy_placeless (fun place place' t => ?_) v
    simp only [Logged.value_bind, Logged.value_pure, ih t place place']

theorem conformPlain_placeless (v : Value) : Conformer.Placeless (store.conformPlain v) :=
  fun t => conformTo_placeless (store.expandedHeight t) v t

/-! ### Loading -/

/-- The default has a value and, unless the type of the parameter is open, one of this type. -/
def DefaultFits (store : Store) (schema : Schema) (p : Param) (s : Snippet) : Prop :=
  ∃ v, Eval.outcome (store.eval { module := schema.module } s.expr) = .ok v ∧
    (p.ty.params = [] → ∀ place, ∃ c, (store.conformPlain v p.ty place).value = .ok c)

theorem defaultFits_of_defaultFault? {schema : Schema} {p : Param} {s : Snippet}
    (clean : (store.defaultFault? schema p s).value = none) : store.DefaultFits schema p s := by
  unfold defaultFault? at clean
  simp only [Logged.value_bind] at clean
  split at clean
  · cases clean
  · rename_i v evaluated
    refine ⟨v, evaluated, fun closed place => ?_⟩
    rw [conform_of_typed (default_isTyped evaluated)] at clean
    simp only [closed, List.isEmpty_nil, Bool.not_true, Bool.false_eq_true, if_false,
      Logged.value_bind] at clean
    split at clean
    · rename_i c conformed
      have placeless : Conformer.Placeless (store.conformPlain v) := conformPlain_placeless v
      have same := placeless p.ty place
        ((((Location.ofDocument schema.document).child "params").child p.name).child "default")
      rw [conformed] at same
      exact ⟨c, ok_of_toOption same⟩
    · cases clean

private theorem defaultFits_of_defaultFaults {params : List (Schema × Param)}
    (clean : (store.defaultFaults params).value = []) :
    ∀ c ∈ params, ∀ s, c.2.default = some s → store.DefaultFits c.1 c.2 s := by
  induction params with
  | nil =>
    intro c member
    cases member
  | cons entry rest ih =>
    obtain ⟨schema, p⟩ := entry
    rw [List.forall_mem_cons]
    unfold defaultFaults at clean
    cases declared : p.default with
    | none =>
      rw [declared] at clean
      refine ⟨fun s same => ?_, ih clean⟩
      cases same
    | some default =>
      simp only [declared, Logged.value_bind, Logged.value_pure, List.append_eq_nil_iff,
        Option.toList_eq_nil_iff] at clean
      refine ⟨fun s same => ?_, ih clean.2⟩
      cases same
      exact defaultFits_of_defaultFault? clean.1

/-- All defaults of a store that loads fit. -/
theorem defaultFits_of_load {ds : List Document} {maxDepth : Nat}
    (loaded : (load ds maxDepth).value = .ok store) {schema : Schema}
    (listed : schema ∈ store.schemas.values) {p : Param} (member : p ∈ schema.params) {s : Snippet}
    (declared : p.default = some s) : store.DefaultFits schema p s :=
  defaultFits_of_defaultFaults (load_eq_ok.mp loaded).2 (schema, p)
    (List.mem_flatMap.mpr ⟨schema, listed, List.mem_map_of_mem member⟩) s declared

/-! ### Validation -/

variable {schema : Schema}

/-- The faults found in a parameter whose default is taken. -/
theorem faults_runParam_of_default {p : Param} {s : Snippet} {v : Value} {place : Location}
    (declared : p.default = some s)
    (evaluated : Eval.outcome (store.eval { module := schema.module } s.expr) = .ok v) :
    (store.runParam schema p none place).value.faults =
      match (store.conformPlain v p.ty place).value with
      | .ok (w, _) => (store.runChecks schema.component (paramEnv schema.module p.name w) place
          (.checkViolation p.name) p.checks).value.faults
      | .error faults => faults := by
  have outcome : (store.eval { module := schema.module } s.expr).run.value = .ok v := evaluated
  simp only [runParam, valueOf, declared, Logged.value_bind, outcome]
  rcases (store.conformPlain v p.ty place).value with faults | ⟨w, _ | via⟩ <;> rfl

theorem runParam_report {supplied : List (String × Value)} {p : Param} {subst : Subst}
    {place : Location} (fits : ∀ s, p.default = some s → store.DefaultFits schema p s) :
    store.ParamReport schema supplied p (p.ty.substitute subst) place
      (store.runParam schema { p with ty := p.ty.substitute subst }
        (givenFor (store.conformFields supplied) p) place).value.faults := by
  rw [givenFor_conformFields]
  cases given : supplied.find? (·.1 == p.name) with
  | some g => exact .supplied given fun d member => mem_faults_runParam member
  | none =>
    rcases Option.eq_none_or_eq_some p.default with declared | ⟨s, declared⟩
    · have only : (store.runParam schema { p with ty := p.ty.substitute subst } none
          place).value.faults = [⟨place, .missingRequiredParam p.name⟩] := by
        simp [runParam, valueOf, declared, Logged.value_bind]
      exact only ▸ .missing given declared
    · obtain ⟨v, evaluated, closed⟩ := fits s declared
      rw [Option.map_none,
        faults_runParam_of_default (p := { p with ty := p.ty.substitute subst }) declared evaluated]
      cases conformed : (store.conformPlain v (p.ty.substitute subst) place).value with
      | ok c => exact .checked given declared evaluated conformed
      | error faults =>
        refine .openDefault given declared evaluated (fun none => ?_) conformed
        obtain ⟨c, fitting⟩ := closed none place
        rw [Ty.substitute_of_params_eq_nil none, fitting] at conformed
        cases conformed

/-- The faults of a validation are told, up to an abort, by the names supplied, by what is reported
of each parameter, and by the checks on all parameters. -/
def Reports (store : Store) (schema : Schema) (args : List Ty) (supplied : List (String × Value))
    (base : Location) (faults : List Diagnostic) : Prop :=
  ∃ own cross,
    List.Forall₂ (fun p => store.ParamReport (schema.instantiate args) supplied p
      (p.ty.substitute (Generic.assign schema.generics args)) (base.child p.name))
      schema.params own ∧
    (∀ d ∈ cross, ∃ c ∈ schema.checks, ∃ env,
      store.CheckFault env (base.child "checks") .crossFieldCheckViolation c d) ∧
    faults <+: (supplied.filter fun g => ((schema.instantiate args).param? g.1).isNone).map
      (fun g => ⟨base.child g.1, .unknownParam g.1⟩) ++ own.flatten ++ cross

/-- In a store that loads, a parameter that is left out fails its checks at most if its type is not
open: its default has a value, and one of this type. -/
theorem reports_of_load (ds : List Document) (maxDepth : Nat) (store : Store)
    (loaded : (load ds maxDepth).value = .ok store) (schema : Schema)
    (listed : schema ∈ store.schemas.values) (args : List Ty) (supplied : List (String × Value))
    (base : Location) (faults : List Diagnostic)
    (failed : (store.validate (schema.instantiate args) supplied base).value = .error faults) :
    store.Reports schema args supplied base faults := by
  obtain ⟨cross, causes, cut⟩ := faults_validateWith failed
  refine ⟨(schema.instantiate args).params.map fun p =>
      (store.runParam (schema.instantiate args) p (givenFor (store.conformFields supplied) p)
        (base.child p.name)).value.faults, cross, ?_, causes, ?_⟩
  · simp only [Schema.instantiate, List.map_map]
    rw [List.forall₂_map_right_iff, List.forall₂_same]
    exact fun p member => runParam_report fun s => defaultFits_of_load loaded listed member
  · rwa [conformFields_eq_map, List.filter_map, List.map_map, ← conformFields_eq_map] at cut

/-- A sink with a parameter of open type and another one whose default fails its check. -/
def panel : Document where
  module := "panel"
  origin := "panel"
  version := supportedVersion
  kind := .sink
  generics := ["T"]
  input := some "String"
  params := [("x", ⟨"T", some "5", [], none⟩), ("n", ⟨"u8", some "3", [⟨"n > 5", none⟩], none⟩)]

/-- The type of strings. -/
def stringTy : Ty := .named Builtin.string []

/-- Where the panel is bound. -/
def panelPlace : Location := ((Location.ofDocument "main").child "let").child "p"

private theorem panel_load : ∃ s, (load [panel] 4).value = .ok s ∧ ∃ schema ∈ s.schemas.values,
    (∃ p ∈ schema.params, p.name = "x" ∧ p.default.isSome = true ∧ p.checks.isEmpty = true) ∧
    ∃ faults, (s.validate (schema.instantiate [stringTy]) [] panelPlace).value =
      .error faults ∧
      faults.map Diagnostic.text = ["main: let.p.x: type mismatch: expected 'String', found 'i64'",
        "main: let.p.n: check on 'n' failed: n > 5"] := by
  decide +kernel

/-- The default of open type is not a string, and the other one fails its check. -/
theorem panel_reports : ∃ s, (load [panel] 4).value = .ok s ∧ ∃ schema ∈ s.schemas.values,
    ∃ faults, (s.validate (schema.instantiate [stringTy]) [] panelPlace).value = .error faults ∧
      faults.map Diagnostic.text = ["main: let.p.x: type mismatch: expected 'String', found 'i64'",
        "main: let.p.n: check on 'n' failed: n > 5"] ∧
      s.Reports schema [stringTy] [] panelPlace faults := by
  obtain ⟨s, loaded, schema, listed, -, faults, failed, texts⟩ := panel_load
  exact ⟨s, loaded, schema, listed, faults, failed, texts,
    reports_of_load [panel] 4 s loaded schema listed [stringTy] [] panelPlace faults failed⟩

/-- A default without checks is not of the type that its parameter has been given. -/
theorem panel_default_unfit : ∃ s, (load [panel] 4).value = .ok s ∧ ∃ schema ∈ s.schemas.values,
    (∃ p ∈ schema.params, p.name = "x" ∧ p.default.isSome = true ∧ p.checks.isEmpty = true) ∧
    ∃ faults, (s.validate (schema.instantiate [stringTy]) [] panelPlace).value = .error faults ∧
      "main: let.p.x: type mismatch: expected 'String', found 'i64'" ∈
        faults.map Diagnostic.text := by
  obtain ⟨s, loaded, schema, listed, unchecked, faults, failed, texts⟩ := panel_load
  exact ⟨s, loaded, schema, listed, unchecked, faults, failed, texts ▸ List.mem_cons_self⟩

end Store
end Pipeline

import Pipeline.Proofs.Fault.Noted
import Pipeline.Proofs.Schema.Abort
import Pipeline.Store.Load

/-!
# What a schema admits

Values are valid for a schema if all names are known, every parameter obtains a value and all checks
pass. The valid parameters are then told by the values, and so are the checks put off. Where
validation fails without an abort, nothing was cut short: the names reported as unknown and as
missing are exactly those that are, and the checks on all parameters together were evaluated if each
parameter had obtained a value.
-/

set_option autoImplicit false
set_option relaxedAutoImplicit false

namespace Pipeline

/-- A truth value that is not known yet. -/
def Value.isOpenBool (v : Value) : Bool := !v.isKnown && v.ty.path? == Option.some Builtin.bool

theorem Findings.andThen_value {a : Findings} {next : Logged Findings} (running : a.aborted = false) :
    (a.andThen next).value = ⟨a.params ++ next.value.params, a.faults ++ next.value.faults,
      a.deferred ++ next.value.deferred, next.value.aborted⟩ := by
  simp [andThen, running]

/-- The name that a fault reports as unknown. -/
def ErrorKind.unknown? : ErrorKind → Option String
  | unknownParam name => some name
  | _ => none

/-- The name that a fault reports as missing. -/
def ErrorKind.missing? : ErrorKind → Option String
  | missingRequiredParam name => some name
  | _ => none

/-- The names that faults tell of a place's own fields. -/
def ownNames (name? : ErrorKind → Option String) (base : Location) (faults : List Diagnostic) :
    List String :=
  faults.filterMap fun d =>
    if d.location.path.length = base.path.length + 1 then name? d.kind else none

/-- What was not cut short is all that the two parts came to. -/
theorem Findings.andThen_eq {a : Findings} {next : Logged Findings}
    (running : (a.andThen next).value.aborted = false) :
    a.aborted = false ∧ next.value.aborted = false ∧ (a.andThen next).value =
      { params := a.params ++ next.value.params
        faults := a.faults ++ next.value.faults
        deferred := a.deferred ++ next.value.deferred } := by
  cases first : a.aborted with
  | true =>
    rw [andThen_of_aborted first, Logged.value_pure, first] at running
    cases running
  | false =>
    rw [aborted_andThen first] at running
    exact ⟨rfl, running, by rw [andThen_value first, running]⟩

namespace Store

open Eval

/-! ### Checks -/

section Checks

variable {store : Store} {component : String} {env : Env} {place : Location}
variable {violation : String → ErrorKind}

/-- The truth of a check is not known yet. -/
def leavesOpen (store : Store) (env : Env) (c : Check) : Bool :=
  match outcome (store.eval env c.snippet.expr) with
  | .ok v => v.isOpenBool
  | .error _ => false

/-- A check is true, as far as is known. -/
def Passes (store : Store) (env : Env) (c : Check) : Prop :=
  outcome (store.eval env c.snippet.expr) = .ok (.bool true) ∨ store.leavesOpen env c = true

/-- The sources of the checks whose truth is not known yet. -/
def putOff (store : Store) (env : Env) (checks : List Check) : List String :=
  (checks.filter (store.leavesOpen env)).map (·.source)

/-- What is reported of a check: that it is false, or why it has no truth value. -/
def checkFaults (store : Store) (env : Env) (place : Location) (violation : String → ErrorKind)
    (c : Check) : List Diagnostic :=
  match outcome (store.eval env c.snippet.expr) with
  | .ok (.bool true) => []
  | .ok (.bool false) => [⟨place, violation c.source⟩]
  | .ok v => if v.isOpenBool then [] else [mismatch place Builtin.boolTy v.ty.text]
  | .error e => [evalFault place c.snippet e]

theorem checkFaults_eq_nil {c : Check} :
    store.checkFaults env place violation c = [] ↔ store.Passes env c := by
  unfold checkFaults Passes leavesOpen
  rcases outcome (store.eval env c.snippet.expr) with e | v
  · simp
  · cases v with
    | bool b => cases b <;> simp [Value.isOpenBool, Value.isKnown]
    | _ => simp

/-- The verdict on a check, with what is reported of it. -/
private theorem check_cases (store : Store) (env : Env) (place : Location)
    (violation : String → ErrorKind) (c : Check) :
    let faults := store.checkFaults env place violation c
    let left := store.leavesOpen env c
    let verdict := (store.check c env place).value
    verdict = .ok .holds ∧ faults = [] ∧ left = false ∨
      verdict = .ok .fails ∧ faults = [⟨place, violation c.source⟩] ∧ left = false ∨
      verdict = .ok .deferred ∧ faults = [] ∧ left = true ∨
      ∃ d, verdict = .error d ∧ faults = [d] ∧ left = false := by
  intro faults left verdict
  unfold faults left verdict checkFaults leavesOpen
  rw [check_value]
  rcases outcome (store.eval env c.snippet.expr) with e | v
  · simp
  · have same : (!v.isKnown && v.ty.path? == some Builtin.bool) = v.isOpenBool := rfl
    cases v with
    | bool b => cases b <;> simp [Value.isOpenBool, Value.isKnown]
    | _ =>
      simp only [same]
      cases Value.isOpenBool _ <;> simp

private theorem runChecks_cons_eq (calm : ∀ source, (violation source).isTerminal = false) (c : Check)
    (rest : List Check) :
    (store.runChecks component env place violation (c :: rest)).value =
      (Findings.andThen
        { faults := store.checkFaults env place violation c
          deferred := store.putOff env [c]
          aborted := (store.checkFaults env place violation c).any (·.kind.isTerminal) }
        (store.runChecks component env place violation rest)).value := by
  rw [runChecks, Logged.value_bind, putOff, List.filter_singleton]
  rcases store.check_cases env place violation c with
    ⟨verdict, faults, left⟩ | ⟨verdict, faults, left⟩ | ⟨verdict, faults, left⟩ |
      ⟨d, verdict, faults, left⟩ <;>
    rw [verdict, faults, left] <;> simp [calm, Findings.ofFault]

/-- Checks that raise no abort are evaluated to the last. -/
theorem runChecks_eq (calm : ∀ source, (violation source).isTerminal = false) (checks : List Check)
    (running : (store.runChecks component env place violation checks).value.aborted = false) :
    (store.runChecks component env place violation checks).value =
      { faults := checks.flatMap (store.checkFaults env place violation)
        deferred := store.putOff env checks } := by
  induction checks with
  | nil => rfl
  | cons c rest ih =>
    rw [runChecks_cons_eq calm] at running ⊢
    obtain ⟨-, later, whole⟩ := Findings.andThen_eq running
    rw [whole, ih later, putOff, putOff, putOff, ← List.map_append, ← List.filter_append]
    rfl

/-- Where none of the faults of checks is an abort, they are evaluated to the last. -/
theorem runChecks_running (calm : ∀ source, (violation source).isTerminal = false)
    {checks : List Check}
    (none : NoAbort (checks.flatMap (store.checkFaults env place violation))) :
    (store.runChecks component env place violation checks).value.aborted = false := by
  induction checks with
  | nil => rfl
  | cons c rest ih =>
    rw [List.flatMap_cons, NoAbort, List.forall_mem_append] at none
    rw [runChecks_cons_eq calm, Findings.aborted_andThen (by simpa using none.1)]
    exact ih none.2

/-- Checks that pass are put off as far as their truth is not known yet. -/
theorem runChecks_of_passes (calm : ∀ source, (violation source).isTerminal = false)
    {checks : List Check} (pass : ∀ c ∈ checks, store.Passes env c) :
    (store.runChecks component env place violation checks).value =
      { deferred := store.putOff env checks } := by
  have none : checks.flatMap (store.checkFaults env place violation) = [] :=
    List.flatMap_eq_nil_iff.mpr fun c member => checkFaults_eq_nil.mpr (pass c member)
  have running : (store.runChecks component env place violation checks).value.aborted = false :=
    runChecks_running calm (by rw [none]; exact List.forall_mem_nil _)
  rw [runChecks_eq calm checks running, none]

/-- Without a fault, all checks pass. -/
theorem passes_of_runChecks (calm : ∀ source, (violation source).isTerminal = false)
    {checks : List Check}
    (clean : (store.runChecks component env place violation checks).value.faults = []) :
    ∀ c ∈ checks, store.Passes env c := by
  have running : (store.runChecks component env place violation checks).value.aborted = false := by
    have grave := store.runChecks_grave component env place violation checks
    exact Bool.eq_false_iff.mpr fun aborted => grave aborted clean
  rw [runChecks_eq calm checks running, List.flatMap_eq_nil_iff] at clean
  exact fun c member => checkFaults_eq_nil.mp (clean c member)

end Checks

/-! ### Parameters -/

section Params

variable {store : Store} {schema : Schema} {supplied : List (String × Value)} {base : Location}

/-- A parameter obtains its value: what is supplied under its name, or the value of its default,
conforms to the type declared. -/
inductive Obtains (store : Store) (schema : Schema) (supplied : List (String × Value))
    (base : Location) (p : Param) : ValidParam → Prop
  | supplied {name : String} {v w : Value} {via : Option Conversion} :
      supplied.find? (·.1 == p.name) = some (name, v) →
      (store.conform v p.ty (base.child p.name)).value = .ok (w, via) →
      Obtains store schema supplied base p ⟨p.name, w, (via.map .coerced).getD .supplied⟩
  | default {s : Snippet} {v w : Value} {via : Option Conversion} :
      supplied.find? (·.1 == p.name) = none → p.default = some s →
      outcome (store.eval { module := schema.module } s.expr) = .ok v →
      (store.conform v p.ty (base.child p.name)).value = .ok (w, via) →
      Obtains store schema supplied base p ⟨p.name, w, (via.map .coerced).getD .default⟩

private theorem settled_eq_ok {p : Param} {origin : ParamOrigin}
    {r : Except (List Diagnostic) Conformed} {q : ValidParam} :
    settled p origin r = .ok q ↔
      ∃ w via, r = .ok (w, via) ∧ q = ⟨p.name, w, (via.map .coerced).getD origin⟩ := by
  rcases r with faults | ⟨w, _ | via⟩
  · simp [settled]
  · simp [settled, eq_comm]
  · simp [settled, eq_comm]

private theorem valueOf_some (p : Param) (conform : Conformer) (place : Location) :
    (store.valueOf schema p (some conform) place).value =
      settled p .supplied (conform p.ty place).value := by
  unfold valueOf
  simp only [Logged.value_bind]
  rcases (conform p.ty place).value with faults | ⟨w, _ | via⟩ <;> rfl

private theorem valueOf_default {p : Param} {s : Snippet} {v : Value} (place : Location)
    (declared : p.default = some s)
    (found : outcome (store.eval { module := schema.module } s.expr) = .ok v) :
    (store.valueOf schema p none place).value =
      settled p .default (store.conform v p.ty place).value := by
  have found : (store.eval { module := schema.module } s.expr).run.value = .ok v := found
  rw [conform_of_typed (default_isTyped found)]
  unfold valueOf
  simp only [declared, Logged.value_bind, found]
  rcases (store.conformPlain v p.ty place).value with faults | ⟨w, _ | via⟩ <;> rfl

/-- A parameter has a value before its checks exactly if it obtains it. -/
theorem valueOf_eq_ok {p : Param} {q : ValidParam} :
    (store.valueOf schema p (givenFor (store.conformFields supplied) p)
        (base.child p.name)).value = .ok q ↔ store.Obtains schema supplied base p q := by
  rw [givenFor_conformFields]
  cases found : supplied.find? (·.1 == p.name) with
  | some g =>
    rw [Option.map_some, valueOf_some, settled_eq_ok]
    constructor
    · rintro ⟨w, via, conforms, rfl⟩
      exact .supplied found conforms
    · intro obtains
      cases obtains with
      | supplied found' conforms =>
        cases found.symm.trans found'
        exact ⟨_, _, conforms, rfl⟩
      | default found' => cases found.symm.trans found'
  | none =>
    rw [Option.map_none]
    constructor
    · intro value
      rcases Option.eq_none_or_eq_some p.default with declared | ⟨s, declared⟩
      · unfold valueOf at value
        rw [declared] at value
        cases value
      · cases evaluated : outcome (store.eval { module := schema.module } s.expr) with
        | error e =>
          have evaluated : (store.eval { module := schema.module } s.expr).run.value = .error e :=
            evaluated
          unfold valueOf at value
          simp only [declared, Logged.value_bind, evaluated] at value
          cases value
        | ok v =>
          rw [valueOf_default _ declared evaluated] at value
          obtain ⟨w, via, conforms, rfl⟩ := settled_eq_ok.mp value
          exact .default found declared evaluated conforms
    · intro obtains
      cases obtains with
      | supplied found' => cases found.symm.trans found'
      | default _ declared evaluated conforms =>
        rw [valueOf_default _ declared evaluated]
        exact settled_eq_ok.mpr ⟨_, _, conforms, rfl⟩

/-- A parameter is accepted with a value that it obtains and that passes its checks. -/
def Accepts (store : Store) (schema : Schema) (supplied : List (String × Value)) (base : Location)
    (p : Param) (q : ValidParam) : Prop :=
  store.Obtains schema supplied base p q ∧
    ∀ c ∈ p.checks, store.Passes (paramEnv schema.module p.name q.value) c

/-- Validates a parameter for which something may be supplied. -/
abbrev ownRun (store : Store) (schema : Schema) (supplied : List (String × Value))
    (base : Location) (p : Param) : Findings :=
  (store.runParam schema p (givenFor (store.conformFields supplied) p) (base.child p.name)).value

theorem runParam_of_obtains {p : Param} {q : ValidParam}
    (obtains : store.Obtains schema supplied base p q) :
    store.ownRun schema supplied base p =
      { (store.runChecks schema.component (paramEnv schema.module p.name q.value)
          (base.child p.name) (.checkViolation p.name) p.checks).value with params := [q] } := by
  unfold ownRun runParam
  rw [Logged.value_bind, valueOf_eq_ok.mpr obtains]
  rfl

theorem runParam_of_accepts {p : Param} {q : ValidParam}
    (accepts : store.Accepts schema supplied base p q) :
    store.ownRun schema supplied base p =
      { params := [q]
        deferred := store.putOff (paramEnv schema.module p.name q.value) p.checks } := by
  rw [runParam_of_obtains accepts.1, runChecks_of_passes (fun _ => rfl) accepts.2]

theorem accepts_of_runParam {p : Param} (clean : (store.ownRun schema supplied base p).faults = []) :
    ∃ q, store.Accepts schema supplied base p q := by
  rcases valueOf_cases schema p (givenFor (store.conformFields supplied) p) (base.child p.name) with
    ⟨f, failed, -, faults⟩ | ⟨conform, supplies, ⟨faults, refused, failed⟩ |
      ⟨w, via, q, -, found, -, -⟩⟩
  · unfold ownRun runParam at clean
    rw [Logged.value_bind, failed] at clean
    exact absurd clean faults
  · unfold ownRun runParam at clean
    rw [Logged.value_bind, failed] at clean
    exact absurd clean (supplies.grave (grave_givenFor conformFields_grave) _ _ _ refused)
  · have obtains := valueOf_eq_ok.mp found
    rw [runParam_of_obtains obtains] at clean
    exact ⟨q, obtains, passes_of_runChecks (fun _ => rfl) clean⟩

/-- What the checks of parameters put off, parameter by parameter. -/
def ownPutOff (store : Store) (schema : Schema) (params : List Param) (qs : List ValidParam) :
    List String :=
  (params.zip qs).flatMap fun c =>
    store.putOff (paramEnv schema.module c.1.name c.2.value) c.1.checks

theorem runParams_of_accepts {params : List Param} {qs : List ValidParam}
    (each : List.Forall₂ (store.Accepts schema supplied base) params qs) :
    (store.runParams schema (store.conformFields supplied) base params).value =
      { params := qs, deferred := store.ownPutOff schema params qs } := by
  induction each with
  | nil => rfl
  | @cons p q params qs accepts _ ih =>
    have here := runParam_of_accepts accepts
    rw [runParams_cons, Findings.andThen_value (congrArg Findings.aborted here), ih, here]
    rfl

theorem accepts_of_runParams {params : List Param}
    (clean : (store.runParams schema (store.conformFields supplied) base params).value.faults = []) :
    ∃ qs, List.Forall₂ (store.Accepts schema supplied base) params qs := by
  induction params with
  | nil => exact ⟨[], .nil⟩
  | cons p rest ih =>
    rw [runParams_cons] at clean
    obtain ⟨here, there, -⟩ := Findings.andThen_of_faults_eq_nil runParam_grave clean
    obtain ⟨q, accepts⟩ := accepts_of_runParam here
    obtain ⟨qs, each⟩ := ih there
    exact ⟨q :: qs, .cons accepts each⟩

/-- Without an abort, the values obtained are found, whatever the checks say. -/
theorem params_of_obtains {params : List Param} {qs : List ValidParam}
    (each : List.Forall₂ (store.Obtains schema supplied base) params qs)
    (running : (store.runParams schema (store.conformFields supplied) base params).value.aborted =
      false) :
    (store.runParams schema (store.conformFields supplied) base params).value.params = qs := by
  induction each with
  | nil => rfl
  | @cons p q params qs obtains _ ih =>
    rw [runParams_cons] at running ⊢
    obtain ⟨-, later, whole⟩ := Findings.andThen_eq running
    have here := congrArg Findings.params (runParam_of_obtains obtains)
    rw [whole, ih later]
    exact congrArg (· ++ qs) here

end Params

/-! ### Names -/

section Names

variable {store : Store} {schema : Schema} {supplied : List (String × Value)} {base : Location}

/-- The names supplied that the schema does not declare. -/
def undeclared (schema : Schema) (supplied : List (String × Value)) : List String :=
  (supplied.map (·.1)).filter fun name => (schema.param? name).isNone

/-- Nothing is supplied for a parameter, and it has no default. -/
def leftOut (supplied : List (String × Value)) (p : Param) : Bool :=
  (supplied.find? (·.1 == p.name)).isNone && p.default.isNone

theorem faults_unknownNames : (unknownNames schema (store.conformFields supplied) base).faults =
    (undeclared schema supplied).map fun name => ⟨base.child name, .unknownParam name⟩ := by
  unfold unknownNames undeclared
  rw [conformFields_eq_map, List.filter_map, List.filter_map, List.map_map, List.map_map]
  rfl

theorem ownNames_unknownNames :
    ownNames ErrorKind.unknown? base
        (unknownNames schema (store.conformFields supplied) base).faults =
      undeclared schema supplied ∧
    ownNames ErrorKind.missing? base
        (unknownNames schema (store.conformFields supplied) base).faults = [] := by
  rw [faults_unknownNames, ownNames, ownNames, List.filterMap_map, List.filterMap_map]
  constructor
  · simp [Function.comp_def, Location.child, ErrorKind.unknown?]
  · simp [Function.comp_def, ErrorKind.missing?]

/-- A fault that tells of no field of a place as unknown or missing. -/
def Beside (base : Location) (d : Diagnostic) : Prop :=
  d.kind.unknown? = none ∧ d.kind.missing? = none ∨
    base.path.length + 1 < d.location.path.length

theorem ownNames_eq_nil {faults : List Diagnostic} (beside : ∀ d ∈ faults, Beside base d) :
    ownNames ErrorKind.unknown? base faults = [] ∧
      ownNames ErrorKind.missing? base faults = [] := by
  unfold ownNames
  rw [List.filterMap_eq_nil_iff, List.filterMap_eq_nil_iff]
  constructor <;> intro d member <;> split
  · rename_i own
    exact (beside d member).elim And.left fun below => absurd own (by omega)
  · rfl
  · rename_i own
    exact (beside d member).elim And.right fun below => absurd own (by omega)
  · rfl

private theorem beside_toKind (place : Location) (s : Snippet) (e : EvalError) :
    Beside base (evalFault place s e) := Or.inl (by cases e <;> exact ⟨rfl, rfl⟩)

/-- What is reported of a value that does not fit stands at its field or below it. -/
private theorem beside_misfit {place : Location} {d : Diagnostic} (misfit : Misfit place d)
    (below : base.path.length < place.path.length) : Beside base d := by
  induction misfit with
  | mismatch | tie | hidden => exact Or.inl ⟨rfl, rfl⟩
  | unknown place name | missing place name =>
    refine Or.inr ?_
    simp only [Location.child, List.length_append, List.length_singleton]
    omega
  | inside _ ih =>
    refine ih ?_
    simp only [Location.child, List.length_append]
    omega

private theorem beside_check {env : Env} {place : Location} {violation : String → ErrorKind}
    (named : ∀ source, (violation source).unknown? = none ∧ (violation source).missing? = none)
    {c : Check} {d : Diagnostic} (fault : store.CheckFault env place violation c d) :
    Beside base d := by
  cases fault with
  | stuck failed =>
    rw [check_value] at failed
    split at failed
    · split at failed <;> cases failed
    · split at failed <;> cases failed
      exact Or.inl ⟨rfl, rfl⟩
    · cases failed
      exact beside_toKind place c.snippet _
  | violated => exact Or.inl (named c.source)

private theorem beside_param {p : Param} {given : Option Conformer} {d : Diagnostic}
    (misfits : ∀ conform ∈ given, conform.Misfits) (present : given ≠ none ∨ p.default ≠ none)
    (fault : store.ParamFault schema p given (base.child p.name) d) : Beside base d := by
  have below : base.path.length < (base.child p.name).path.length := by simp [Location.child]
  cases fault with
  | missing none undeclared => exact absurd undeclared (present.resolve_left (absurd none))
  | valueless => exact beside_toKind _ _ _
  | unfit supplies refused member =>
    cases supplies with
    | given => exact beside_misfit (misfits _ rfl _ _ _ refused d member) below
    | default => exact beside_misfit (conformPlain_misfits _ _ _ _ refused d member) below
  | check _ _ _ cause => exact beside_check (fun _ => ⟨rfl, rfl⟩) cause

/-- Of a parameter it is reported that it is missing if nothing is supplied for it and it has no
default, and no name is reported as unknown. -/
theorem ownNames_ownRun (p : Param) :
    ownNames ErrorKind.unknown? base (store.ownRun schema supplied base p).faults = [] ∧
      ownNames ErrorKind.missing? base (store.ownRun schema supplied base p).faults =
        if leftOut supplied p then [p.name] else [] := by
  unfold leftOut
  cases found : supplied.find? (·.1 == p.name) with
  | none =>
    cases declared : p.default with
    | none =>
      have none : store.ownRun schema supplied base p =
          { faults := [⟨base.child p.name, .missingRequiredParam p.name⟩] } := by
        unfold ownRun runParam valueOf
        rw [givenFor_conformFields, found, declared]
        rfl
      rw [none]
      simp [ownNames, Location.child, ErrorKind.unknown?, ErrorKind.missing?]
    | some s =>
      refine ownNames_eq_nil fun d member => ?_
      refine beside_param (fun conform given => ?_) (Or.inr (by simp [declared]))
        (mem_faults_runParam member)
      rw [givenFor_conformFields, found] at given
      cases given
  | some g =>
    refine ownNames_eq_nil fun d member => ?_
    refine beside_param (fun conform given => ?_) (Or.inl ?_) (mem_faults_runParam member)
    · obtain ⟨f, among, rfl⟩ := Option.map_eq_some_iff.mp given
      exact conformFields_misfits supplied f (List.mem_of_find?_eq_some among)
    · rw [givenFor_conformFields, found]
      exact Option.some_ne_none _

theorem ownNames_append {name? : ErrorKind → Option String} (faults later : List Diagnostic) :
    ownNames name? base (faults ++ later) =
      ownNames name? base faults ++ ownNames name? base later := List.filterMap_append

/-- The names that are reported of parameters validated without an abort. -/
theorem ownNames_runParams {params : List Param}
    (running : (store.runParams schema (store.conformFields supplied) base params).value.aborted =
      false) :
    let faults := (store.runParams schema (store.conformFields supplied) base params).value.faults
    ownNames ErrorKind.unknown? base faults = [] ∧
      ownNames ErrorKind.missing? base faults =
        (params.filter (leftOut supplied)).map (·.name) := by
  induction params with
  | nil => exact ⟨rfl, rfl⟩
  | cons p rest ih =>
    rw [runParams_cons] at running ⊢
    obtain ⟨-, later, whole⟩ := Findings.andThen_eq running
    obtain ⟨unknown, missing⟩ :
        ownNames ErrorKind.unknown? base (store.ownRun schema supplied base p).faults = [] ∧ _ :=
      store.ownNames_ownRun p
    obtain ⟨unknown', missing'⟩ := ih later
    rw [whole]
    change ownNames _ base (_ ++ _) = _ ∧ ownNames _ base (_ ++ _) = _
    rw [ownNames_append, ownNames_append, unknown, unknown', missing, missing', List.filter_cons]
    exact ⟨rfl, by split <;> rfl⟩

end Names
/-! ### Whole validations -/

section Whole

variable {store : Store} {schema : Schema} {supplied : List (String × Value)} {base : Location}

/-- What the checks on all parameters see. -/
def crossEnv (schema : Schema) (params : List ValidParam) : Env where
  module := schema.module
  vars := NameMap.ofList (params.map fun q => (q.name, q.value))

/-- The schema admits what is supplied: all names are known, each parameter obtains a value, and the
checks on each of them and those on all of them pass. This tells the valid parameters. -/
structure Admits (store : Store) (schema : Schema) (supplied : List (String × Value))
    (base : Location) (valid : ValidParams) : Prop where
  known : ∀ g ∈ supplied, (schema.param? g.1).isSome = true
  each : List.Forall₂ (store.Accepts schema supplied base) schema.params valid.params
  joint : ∀ c ∈ schema.checks, store.Passes (crossEnv schema valid.params) c
  component : valid.component = schema.component
  ty : valid.ty = inferTy schema valid.params
  deferred : valid.runtimeChecks = store.ownPutOff schema schema.params valid.params ++
    store.putOff (crossEnv schema valid.params) schema.checks

/-- What a whole validation comes to. -/
private def wholeRun (store : Store) (schema : Schema) (supplied : List (String × Value))
    (base : Location) : Findings :=
  let own := (store.ownFindings (store.conformFields supplied) base schema).value
  (own.andThen (store.runCross schema own.params base)).value

private theorem validate_value : (store.validate schema supplied base).value =
    conclude schema (store.wholeRun schema supplied base) := by
  have same := congrArg Logged.value
    (store.validateWith_eq schema (store.conformFields supplied) base)
  exact same

theorem undeclared_eq_nil :
    undeclared schema supplied = [] ↔ ∀ g ∈ supplied, (schema.param? g.1).isSome = true := by
  simp [undeclared, List.filter_eq_nil_iff, Option.isSome_iff_ne_none]

private theorem runCross_eq {qs : List ValidParam} (full : qs.length = schema.params.length) :
    store.runCross schema qs base =
      store.runChecks schema.component (crossEnv schema qs) (base.child "checks")
        .crossFieldCheckViolation schema.checks := if_pos full

private theorem ownFindings_of_accepts {qs : List ValidParam}
    (known : undeclared schema supplied = [])
    (each : List.Forall₂ (store.Accepts schema supplied base) schema.params qs) :
    (store.ownFindings (store.conformFields supplied) base schema).value =
      { params := qs, deferred := store.ownPutOff schema schema.params qs } := by
  have none : (unknownNames schema (store.conformFields supplied) base).faults = [] := by
    rw [faults_unknownNames, known]
    rfl
  unfold ownFindings
  rw [Findings.andThen_value rfl, none, runParams_of_accepts each]
  rfl

private theorem wholeRun_of_accepts {qs : List ValidParam}
    (known : undeclared schema supplied = [])
    (each : List.Forall₂ (store.Accepts schema supplied base) schema.params qs)
    (joint : ∀ c ∈ schema.checks, store.Passes (crossEnv schema qs) c) :
    store.wholeRun schema supplied base =
      { params := qs
        deferred := store.ownPutOff schema schema.params qs ++
          store.putOff (crossEnv schema qs) schema.checks } := by
  unfold wholeRun
  dsimp only
  rw [ownFindings_of_accepts known each, Findings.andThen_value rfl,
    runCross_eq each.length_eq.symm, runChecks_of_passes (fun _ => rfl) joint]
  simp

/-- A validation succeeds exactly with what the schema admits. -/
theorem validate_eq_ok_iff {valid : ValidParams} :
    (store.validate schema supplied base).value = .ok valid ↔
      store.Admits schema supplied base valid := by
  rw [validate_value]
  constructor
  · intro found
    have clean : (store.wholeRun schema supplied base).faults = [] := by
      unfold conclude at found
      split at found
      · rename_i clean
        exact List.isEmpty_iff.mp clean
      · cases found
    have start := Findings.grave_of_not_aborted
      (f := unknownNames schema (store.conformFields supplied) base) rfl
    obtain ⟨own, cross, -⟩ :=
      Findings.andThen_of_faults_eq_nil (Findings.grave_andThen start runParams_grave) clean
    obtain ⟨known, params, -⟩ := Findings.andThen_of_faults_eq_nil start own
    rw [faults_unknownNames, List.map_eq_nil_iff] at known
    obtain ⟨qs, each⟩ := accepts_of_runParams params
    change (store.runCross schema
      (store.ownFindings (store.conformFields supplied) base schema).value.params base).value.faults =
        [] at cross
    rw [ownFindings_of_accepts known each, runCross_eq each.length_eq.symm] at cross
    have joint := passes_of_runChecks (fun _ => rfl) cross
    rw [wholeRun_of_accepts known each joint] at found
    cases found
    exact ⟨undeclared_eq_nil.mp known, each, joint, rfl, rfl, rfl⟩
  · rintro ⟨known, each, joint, component, ty, deferred⟩
    rw [wholeRun_of_accepts (undeclared_eq_nil.mpr known) each joint]
    obtain ⟨component', ty', params, runtimeChecks⟩ := valid
    dsimp only at component ty deferred
    subst component ty deferred
    rfl

private theorem beside_runCross (store : Store) (schema : Schema) (params : List ValidParam)
    (base : Location) :
    ∀ d ∈ (store.runCross schema params base).value.faults, Beside base d := by
  intro d member
  unfold runCross at member
  split at member
  · obtain ⟨c, -, cause⟩ := mem_faults_runChecks member
    exact beside_check (fun _ => ⟨rfl, rfl⟩) cause
  · cases member

/-- A validation that fails without an abort has come to its end. -/
private theorem running_of_noAbort
    (calm : NoAbort (store.wholeRun schema supplied base).faults) :
    let own := (store.ownFindings (store.conformFields supplied) base schema).value
    own.aborted = false ∧ (store.runCross schema own.params base).value.aborted = false := by
  intro own
  have no_abort {faults : List Diagnostic} {g : Diagnostic} (calm : NoAbort faults)
      (aborted : AbortedBy faults g) : False := by
    obtain ⟨terminal, earlier, rfl, -⟩ := aborted
    exact absurd terminal (by simp [calm g (by simp)])
  have whole : store.wholeRun schema supplied base =
      (own.andThen (store.runCross schema own.params base)).value := rfl
  have first : own.aborted = false ∧ _ ∨ own.aborted = true ∧ _ :=
    store.ownFindings_cut (conformFields_misfits supplied) schema
  rcases first with ⟨running, -⟩ | ⟨aborted, g, -, -, last, -⟩
  · refine ⟨running, ?_⟩
    rw [whole, Findings.faults_andThen running, NoAbort, List.forall_mem_append] at calm
    have second : (store.runCross schema own.params base).value.aborted = false ∧ _ ∨ _ :=
      store.runCross_cut (store.conformFields supplied) schema own.params
    rcases second with ⟨running', -⟩ | ⟨-, g, -, -, last, -⟩
    · exact running'
    · exact (no_abort calm.2 last).elim
  · rw [whole, Findings.andThen_of_aborted aborted] at calm
    exact (no_abort calm last).elim

/-- **Validation is exact.** It succeeds exactly if the schema admits what is supplied. Where it fails
without an abort, the own fields reported as unknown are the names that are not declared, those
reported as missing are the parameters left out, and all checks on the parameters together are
evaluated if each of them has obtained a value. -/
theorem validate_exact (store : Store) (schema : Schema) (supplied : List (String × Value))
    (base : Location) :
    (∀ valid, (store.validate schema supplied base).value = .ok valid ↔
      store.Admits schema supplied base valid) ∧
    ∀ faults, (store.validate schema supplied base).value = .error faults → NoAbort faults →
      ownNames ErrorKind.unknown? base faults = undeclared schema supplied ∧
      ownNames ErrorKind.missing? base faults =
        (schema.params.filter (leftOut supplied)).map (·.name) ∧
      ∀ params, List.Forall₂ (store.Obtains schema supplied base) schema.params params →
        ∃ earlier, faults = earlier ++ schema.checks.flatMap
          (store.checkFaults (crossEnv schema params) (base.child "checks")
            .crossFieldCheckViolation) := by
  refine ⟨fun valid => validate_eq_ok_iff, fun faults failed calm => ?_⟩
  rw [validate_value] at failed
  obtain rfl := conclude_eq_error failed
  obtain ⟨own, cross⟩ := running_of_noAbort calm
  have whole : (store.wholeRun schema supplied base).faults =
      (store.ownFindings (store.conformFields supplied) base schema).value.faults ++
        (store.runCross schema (store.ownFindings (store.conformFields supplied) base
          schema).value.params base).value.faults := Findings.faults_andThen own _
  obtain ⟨-, running, parts⟩ := Findings.andThen_eq own
  change (store.ownFindings (store.conformFields supplied) base schema).value = _ at parts
  have names := ownNames_eq_nil (store.beside_runCross schema
    (store.ownFindings (store.conformFields supplied) base schema).value.params base)
  rw [whole]
  rw [parts] at names cross ⊢
  obtain ⟨unknown, missing⟩ := store.ownNames_runParams running
  refine ⟨?_, ?_, fun qs each => ⟨_, congrArg _ ?_⟩⟩
  · rw [ownNames_append, ownNames_append, names.1, unknown, ownNames_unknownNames.1]
    simp
  · rw [ownNames_append, ownNames_append, names.2, missing, ownNames_unknownNames.2]
    simp
  · have same := params_of_obtains each running
    have full := each.length_eq.symm
    have none : (unknownNames schema (store.conformFields supplied) base).params = [] := rfl
    rw [none, same, List.nil_append, runCross_eq full] at cross
    rw [none, same, List.nil_append, runCross_eq full, runChecks_eq (fun _ => rfl) _ cross]

end Whole

/-- A document with a dial that shows a mark at a size below a limit. -/
def dial : Document where
  module := "dial"
  origin := "dial"
  version := supportedVersion
  kind := .sink
  input := some "String"
  types := [("Mark", ⟨[], [("x", .short "i64"), ("y", .short "i64")], [], none, none, none⟩)]
  params := [("mark", ⟨"Mark", none, [], none⟩), ("size", ⟨"u8", some "3", [⟨"size > 0", none⟩], none⟩),
    ("limit", ⟨"u8", none, [], none⟩)]
  checks := [⟨"size < limit", none⟩]

/-- Where the dial is bound. -/
def dialPlace : Location := ((Location.ofDocument "main").child "let").child "d"

/-- What is supplied for a mark, with further fields. -/
def markWith (further : List (String × Value)) : String × Value :=
  ("mark", .record .infer ([("x", .int 1), ("y", .int 2)] ++ further))

/-- A limit that is not known yet. -/
def steady : List (String × Value) :=
  [markWith [], ("limit", .ref "n" (.named (Builtin.path "u8") []))]

/-- A size that fails its check, and a name that is not declared. -/
def unmarked : List (String × Value) := [("color", .int 7), ("size", .int 0)]

/-- A size above the limit, and a name that is not declared. -/
def oversized : List (String × Value) :=
  [("color", .int 7), markWith [], ("size", .int 9), ("limit", .int 4)]

private instance (faults : List Diagnostic) : Decidable (NoAbort faults) :=
  inferInstanceAs (Decidable (∀ d ∈ faults, _))

private theorem dial_load : ∃ s, (load [dial] 32).value = .ok s ∧ ∃ schema ∈ s.schema? "dial",
    (∃ valid, (s.validate schema steady dialPlace).value = .ok valid ∧
      valid.runtimeChecks = ["size < limit"]) ∧
    (∃ faults, (s.validate schema unmarked dialPlace).value = .error faults ∧ NoAbort faults ∧
      undeclared schema unmarked = ["color"] ∧
      (schema.params.filter (leftOut unmarked)).map (·.name) = ["mark", "limit"]) ∧
    ((∃ faults, (s.validate schema oversized dialPlace).value = .error faults ∧ NoAbort faults) ∧
      ∀ p ∈ schema.params, (s.valueOf schema p (givenFor (s.conformFields oversized) p)
        (dialPlace.child p.name)).value.isOk = true) ∧
    ∃ faults, (s.validate schema [markWith [("z", .int 3)], ("limit", .int 4)] dialPlace).value =
        .error faults ∧ NoAbort faults ∧
      (faults.filterMap fun d => d.kind.unknown?) = ["z"] ∧
      undeclared schema [markWith [("z", .int 3)], ("limit", .int 4)] = [] := by
  decide +kernel

private theorem forall₂_obtains {store : Store} {schema : Schema} {supplied : List (String × Value)}
    {base : Location} {params : List Param}
    (each : ∀ p ∈ params, (store.valueOf schema p (givenFor (store.conformFields supplied) p)
      (base.child p.name)).value.isOk = true) :
    ∃ qs, List.Forall₂ (store.Obtains schema supplied base) params qs := by
  induction params with
  | nil => exact ⟨[], .nil⟩
  | cons p rest ih =>
    rw [List.forall_mem_cons] at each
    obtain ⟨qs, later⟩ := ih each.2
    cases found : (store.valueOf schema p (givenFor (store.conformFields supplied) p)
        (base.child p.name)).value with
    | error f =>
      rw [found] at each
      cases each.1
    | ok q => exact ⟨q :: qs, .cons (valueOf_eq_ok.mp found) later⟩

/-- A dial is admitted with a limit that is not known yet; one that lacks a mark is not, nor one that
is too large, whatever else is wrong with it. -/
theorem validate_dial : ∃ s, (load [dial] 32).value = .ok s ∧ ∃ schema ∈ s.schema? "dial",
    (∃ valid, s.Admits schema steady dialPlace valid ∧ valid.runtimeChecks = ["size < limit"]) ∧
    (∃ faults, (s.validate schema unmarked dialPlace).value = .error faults ∧
      ownNames ErrorKind.unknown? dialPlace faults = ["color"] ∧
      ownNames ErrorKind.missing? dialPlace faults = ["mark", "limit"]) ∧
    ∃ faults params, (s.validate schema oversized dialPlace).value = .error faults ∧
      List.Forall₂ (s.Obtains schema oversized dialPlace) schema.params params ∧
      ∃ earlier, faults = earlier ++ schema.checks.flatMap
        (s.checkFaults (crossEnv schema params) (dialPlace.child "checks")
          .crossFieldCheckViolation) := by
  obtain ⟨s, loaded, schema, declared, ⟨valid, found, deferred⟩,
    ⟨faults, failed, calm, color, without⟩, ⟨⟨faults', failed', calm'⟩, each⟩, -⟩ := dial_load
  obtain ⟨qs, obtained⟩ := forall₂_obtains each
  have steady := (validate_exact s schema steady dialPlace).1 valid
  have unmarked := (validate_exact s schema unmarked dialPlace).2 faults failed calm
  have oversized := (validate_exact s schema oversized dialPlace).2 faults' failed' calm'
  exact ⟨s, loaded, schema, declared, ⟨valid, steady.mp found, deferred⟩,
    ⟨faults, failed, unmarked.1.trans color, unmarked.2.1.trans without⟩,
    faults', qs, failed', obtained, oversized.2.2 qs obtained⟩

/-- The name of a field that a mark does not have is reported as unknown, and it is none of those
supplied for the dial, which are all declared. -/
theorem unknown_field_of_mark : ∃ s, (load [dial] 32).value = .ok s ∧
    ∃ schema ∈ s.schema? "dial", ∃ faults,
      (s.validate schema [markWith [("z", .int 3)], ("limit", .int 4)] dialPlace).value =
          .error faults ∧ NoAbort faults ∧
        (faults.filterMap fun d => d.kind.unknown?) = ["z"] ∧
        undeclared schema [markWith [("z", .int 3)], ("limit", .int 4)] = [] := by
  obtain ⟨s, loaded, schema, declared, -, -, -, reported⟩ := dial_load
  exact ⟨s, loaded, schema, declared, reported⟩

end Store
end Pipeline

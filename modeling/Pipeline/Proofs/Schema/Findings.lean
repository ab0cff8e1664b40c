import Mathlib.Data.List.Forall2
import Pipeline.Proofs.Schema.Conversion
import Pipeline.Schema.Validate

/-!
# Findings of a validation

A validation succeeds when it finds no fault. Then nothing was cut short, and every parameter has
been given a value: an abort and a value that does not conform each come with a fault.
-/

set_option autoImplicit false
set_option relaxedAutoImplicit false

namespace Pipeline

/-- An abort is a fault. -/
def Findings.Grave (f : Findings) : Prop := f.aborted = true → f.faults ≠ []

namespace Findings

theorem grave_of_not_aborted {f : Findings} (running : f.aborted = false) : f.Grave := by
  intro aborted
  rw [running] at aborted
  cases aborted

theorem grave_ofFault (d : Diagnostic) : (ofFault d).Grave := fun _ => by simp [ofFault]

theorem grave_andThen {a : Findings} {next : Logged Findings} (first : a.Grave)
    (second : next.value.Grave) : (a.andThen next).value.Grave := by
  unfold andThen
  split
  · exact first
  · intro aborted
    simp only [Logged.value_bind, Logged.value_pure] at aborted ⊢
    simp [second aborted]

/-- Without a fault, the second part has been reached. -/
theorem andThen_of_faults_eq_nil {a : Findings} {next : Logged Findings} (first : a.Grave)
    (none : (a.andThen next).value.faults = []) :
    a.faults = [] ∧ next.value.faults = [] ∧
      (a.andThen next).value.params = a.params ++ next.value.params := by
  unfold andThen at none ⊢
  split at none
  · rename_i aborted
    exact absurd none (first aborted)
  · rename_i running
    simp only [Logged.value_bind, Logged.value_pure, List.append_eq_nil_iff] at none
    exact ⟨none.1, none.2, by rw [if_neg running]; rfl⟩

end Findings

namespace Store

variable (store : Store)

/-! ### Checks -/

private theorem runChecks_cons (component : String) (env : Env) (place : Location)
    (violation : String → ErrorKind) (c : Check) (rest : List Check) :
    ∃ f : Findings, f.params = [] ∧ f.Grave ∧
      (store.runChecks component env place violation (c :: rest)).value =
        (f.andThen (store.runChecks component env place violation rest)).value := by
  simp only [runChecks, Logged.value_bind]
  cases (store.check c env place).value with
  | error d => exact ⟨.ofFault d, rfl, Findings.grave_ofFault d, rfl⟩
  | ok verdict =>
    cases verdict with
    | holds => exact ⟨{}, rfl, Findings.grave_of_not_aborted rfl, rfl⟩
    | fails => exact ⟨{ faults := [⟨place, violation c.source⟩] }, rfl,
        Findings.grave_of_not_aborted rfl, rfl⟩
    | deferred => exact ⟨{ deferred := [c.source] }, rfl, Findings.grave_of_not_aborted rfl, rfl⟩

theorem runChecks_grave (component : String) (env : Env) (place : Location)
    (violation : String → ErrorKind) (checks : List Check) :
    (store.runChecks component env place violation checks).value.Grave := by
  induction checks with
  | nil => exact Findings.grave_of_not_aborted rfl
  | cons c rest ih =>
    obtain ⟨f, -, grave, same⟩ := store.runChecks_cons component env place violation c rest
    rw [same]
    exact Findings.grave_andThen grave ih

theorem runChecks_params (component : String) (env : Env) (place : Location)
    (violation : String → ErrorKind) (checks : List Check) :
    (store.runChecks component env place violation checks).value.params = [] := by
  induction checks with
  | nil => rfl
  | cons c rest ih =>
    obtain ⟨f, none, -, same⟩ := store.runChecks_cons component env place violation c rest
    rw [same]
    unfold Findings.andThen
    split
    · exact none
    · simp [none, ih]

/-! ### Parameters -/

variable {store} {schema : Schema}

/-- What is given under the name of a parameter. -/
def givenFor (given : List (String × Conformer)) (p : Param) : Option Conformer :=
  (given.find? (·.1 == p.name)).map (·.2)

theorem grave_givenFor {given : List (String × Conformer)} {p : Param}
    (grave : ∀ g ∈ given, g.2.Grave) : ∀ c ∈ givenFor given p, c.Grave := by
  intro c member
  obtain ⟨g, found, rfl⟩ := Option.map_eq_some_iff.mp member
  exact grave g (List.mem_of_find?_eq_some found)

/-- What gives a parameter its value: what is supplied, or the value of its default. -/
inductive Supplies (store : Store) (schema : Schema) (p : Param) :
    Option Conformer → Conformer → Prop
  | given (conform : Conformer) : Supplies store schema p (some conform) conform
  | default {s : Snippet} {v : Value} : p.default = some s →
      Eval.outcome (store.eval { module := schema.module } s.expr) = .ok v →
      Supplies store schema p none (store.conformPlain v)

/-- A parameter with the value that became of the one given, or the faults of that. -/
def settled (p : Param) (origin : ParamOrigin) :
    Except (List Diagnostic) Conformed → Except Findings ValidParam
  | .ok (v, some via) => .ok ⟨p.name, v, .coerced via⟩
  | .ok (v, none) => .ok ⟨p.name, v, origin⟩
  | .error faults => .error { faults := faults }

theorem valueOf_cases (schema : Schema) (p : Param) (given : Option Conformer) (place : Location) :
    (∃ f, (store.valueOf schema p given place).value = .error f ∧ f.Grave ∧ f.faults ≠ []) ∨
      ∃ conform, store.Supplies schema p given conform ∧
        ((∃ faults, (conform p.ty place).value = .error faults ∧
            (store.valueOf schema p given place).value = .error { faults := faults }) ∨
          ∃ w via valid, (conform p.ty place).value = .ok (w, via) ∧
            (store.valueOf schema p given place).value = .ok valid ∧ valid.name = p.name ∧
            valid.value = w) := by
  have conformed (conform : Conformer) (origin : ParamOrigin) (r : Logged (Except Findings ValidParam))
      (same : r.value = settled p origin (conform p.ty place).value) :
      (∃ faults, (conform p.ty place).value = .error faults ∧
          r.value = .error { faults := faults }) ∨
        ∃ w via valid, (conform p.ty place).value = .ok (w, via) ∧ r.value = .ok valid ∧
          valid.name = p.name ∧ valid.value = w := by
    rw [same]
    rcases (conform p.ty place).value with faults | ⟨v, _ | via⟩
    · exact Or.inl ⟨faults, rfl, rfl⟩
    · exact Or.inr ⟨v, none, _, rfl, rfl, rfl, rfl⟩
    · exact Or.inr ⟨v, some via, _, rfl, rfl, rfl, rfl⟩
  unfold valueOf
  cases given with
  | some conform =>
    refine Or.inr ⟨conform, .given conform, conformed conform .supplied _ ?_⟩
    simp only [Logged.value_bind]
    rcases (conform p.ty place).value with faults | ⟨v, _ | via⟩ <;> rfl
  | none =>
    cases declared : p.default with
    | none => exact Or.inl ⟨_, rfl, Findings.grave_of_not_aborted rfl, by simp⟩
    | some default =>
      simp only [Logged.value_bind]
      cases outcome : (store.eval { module := schema.module } default.expr).run.value with
      | error e => exact Or.inl ⟨_, rfl, Findings.grave_ofFault _, by simp [Findings.ofFault]⟩
      | ok v =>
        refine Or.inr ⟨store.conformPlain v, .default declared outcome,
          conformed (store.conformPlain v) .default _ ?_⟩
        simp only [Logged.value_bind]
        rcases (store.conformPlain v p.ty place).value with faults | ⟨v, _ | via⟩ <;> rfl

theorem Supplies.grave {p : Param} {given : Option Conformer} {conform : Conformer}
    (supplies : store.Supplies schema p given conform) (grave : ∀ c ∈ given, c.Grave) :
    conform.Grave := by
  cases supplies with
  | given => exact grave conform rfl
  | default => exact conformPlain_grave _

theorem runParam_grave {p : Param} {given : Option Conformer} {place : Location} :
    (store.runParam schema p given place).value.Grave := by
  unfold runParam
  simp only [Logged.value_bind]
  rcases valueOf_cases schema p given place with
    ⟨f, failed, aborts, -⟩ | ⟨conform, -, ⟨faults, -, failed⟩ | ⟨w, via, valid, -, found, -, -⟩⟩
  · rw [failed]
    exact aborts
  · rw [failed]
    exact Findings.grave_of_not_aborted rfl
  · rw [found]
    exact store.runChecks_grave _ _ _ _ _

/-- Without a fault, the value supplied has been made one of the type declared. -/
def Fulfills (store : Store) (schema : Schema) (given : List (String × Conformer))
    (base : Location) (p : Param) (q : ValidParam) : Prop :=
  q.name = p.name ∧ ∃ conform via, store.Supplies schema p (givenFor given p) conform ∧
    (conform p.ty (base.child p.name)).value = .ok (q.value, via)

theorem runParam_of_faults_eq_nil {p : Param} {given : List (String × Conformer)}
    {base : Location} (grave : ∀ c ∈ givenFor given p, c.Grave)
    (none : (store.runParam schema p (givenFor given p) (base.child p.name)).value.faults = []) :
    ∃ q, store.Fulfills schema given base p q ∧
      (store.runParam schema p (givenFor given p) (base.child p.name)).value.params = [q] := by
  unfold runParam at none ⊢
  simp only [Logged.value_bind] at none ⊢
  rcases valueOf_cases schema p (givenFor given p) (base.child p.name) with
    ⟨f, failed, -, faults⟩ | ⟨conform, supplies, ⟨faults, refused, failed⟩ |
      ⟨w, via, valid, conformed, found, name, rfl⟩⟩
  · rw [failed] at none
    exact absurd none faults
  · rw [failed] at none
    exact absurd none (supplies.grave grave _ _ _ refused)
  · rw [found]
    exact ⟨valid, ⟨name, conform, via, supplies, conformed⟩, rfl⟩

theorem runParams_cons (given : List (String × Conformer)) (base : Location) (p : Param)
    (rest : List Param) :
    (store.runParams schema given base (p :: rest)).value =
      ((store.runParam schema p (givenFor given p) (base.child p.name)).value.andThen
        (store.runParams schema given base rest)).value := rfl

theorem runParams_grave {given : List (String × Conformer)} {base : Location}
    {params : List Param} : (store.runParams schema given base params).value.Grave := by
  induction params with
  | nil => exact Findings.grave_of_not_aborted rfl
  | cons p rest ih =>
    exact Findings.grave_andThen runParam_grave ih

theorem runParams_of_faults_eq_nil {given : List (String × Conformer)} {base : Location}
    {params : List Param} (grave : ∀ g ∈ given, g.2.Grave)
    (none : (store.runParams schema given base params).value.faults = []) :
    List.Forall₂ (store.Fulfills schema given base) params
      (store.runParams schema given base params).value.params := by
  induction params with
  | nil => exact .nil
  | cons p rest ih =>
    rw [runParams_cons] at none
    obtain ⟨here, there, params⟩ :=
      Findings.andThen_of_faults_eq_nil runParam_grave none
    obtain ⟨q, fulfills, only⟩ := runParam_of_faults_eq_nil (grave_givenFor grave) here
    rw [runParams_cons, params, only]
    exact .cons fulfills (ih there)

theorem runCross_params (schema : Schema) (params : List ValidParam) (base : Location) :
    (store.runCross schema params base).value.params = [] := by
  unfold runCross
  split
  · exact store.runChecks_params _ _ _ _ _
  · rfl

/-- A validation that succeeds knows all names supplied, and each parameter has got the value
supplied for it or its default, as one of the type declared. -/
theorem validateWith_eq_ok {given : List (String × Conformer)} {base : Location}
    {valid : ValidParams} (grave : ∀ g ∈ given, g.2.Grave)
    (found : (store.validateWith schema given base).value = .ok valid) :
    (∀ g ∈ given, (schema.param? g.1).isSome = true) ∧
      List.Forall₂ (store.Fulfills schema given base) schema.params valid.params ∧
      valid.ty = inferTy schema valid.params := by
  unfold validateWith at found
  simp only [Logged.value_bind] at found
  split at found
  · rename_i clean
    cases found
    rw [List.isEmpty_iff] at clean
    have start : Findings.Grave
        { faults := (given.filter fun g => (schema.param? g.1).isNone).map
            fun g => ⟨base.child g.1, .unknownParam g.1⟩ } :=
      Findings.grave_of_not_aborted rfl
    obtain ⟨own, -, params⟩ :=
      Findings.andThen_of_faults_eq_nil (Findings.grave_andThen start runParams_grave) clean
    obtain ⟨known, each, params'⟩ := Findings.andThen_of_faults_eq_nil start own
    rw [params, params', runCross_params, List.append_nil, List.nil_append]
    refine ⟨fun g member => ?_, runParams_of_faults_eq_nil grave each, rfl⟩
    rw [List.map_eq_nil_iff, List.filter_eq_nil_iff] at known
    simpa [Option.isSome_iff_ne_none] using known g member
  · cases found

theorem validateWith_eq_error {given : List (String × Conformer)} {base : Location}
    {faults : List Diagnostic}
    (failed : (store.validateWith schema given base).value = .error faults) : faults ≠ [] := by
  unfold validateWith at failed
  simp only [Logged.value_bind] at failed
  split at failed
  · cases failed
  · rename_i faulty
    cases failed
    simpa using faulty

end Store
end Pipeline

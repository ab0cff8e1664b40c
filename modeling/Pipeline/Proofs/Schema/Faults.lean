import Pipeline.Proofs.Eval.Deferral
import Pipeline.Proofs.Schema.Conformance

/-!
# Faults of a validation

Every fault that a validation reports has a cause: a name that the schema does not know, a parameter
without a value, a value that is none of the type declared, or a check. Each of them stands at the
place of the validation or below it.
-/

set_option autoImplicit false
set_option relaxedAutoImplicit false

namespace Pipeline

namespace Location

/-- True of a place and of all places below it. -/
def Under (l place : Location) : Prop := l.document = place.document ∧ place.path <+: l.path

instance (l place : Location) : Decidable (l.Under place) :=
  inferInstanceAs (Decidable (l.document = place.document ∧ place.path <+: l.path))

theorem Under.refl (l : Location) : l.Under l := ⟨rfl, List.prefix_rfl⟩

theorem Under.of_child {l place : Location} {key : String} (under : l.Under (place.child key)) :
    l.Under place := ⟨under.1, (List.prefix_append _ _).trans under.2⟩

theorem under_child (place : Location) (key : String) : (place.child key).Under place :=
  (Under.refl _).of_child

/-- What stands below one key does not stand below another one. -/
theorem Under.key_eq {l place : Location} {key other : String} (under : l.Under (place.child key))
    (under' : l.Under (place.child other)) : key = other := by
  have same : place.path ++ [key] = place.path ++ [other] := by
    refine (List.prefix_of_prefix_length_le under.2 under'.2 ?_).eq_of_length ?_ <;> simp [child]
  simpa using same

end Location

/-- Where no value is given, the faults stand at the place or below it. -/
def Conformer.Local (conform : Conformer) : Prop :=
  ∀ t place faults, (conform t place).value = .error faults → ∀ d ∈ faults, d.location.Under place

/-- The fault of a value that is none of the type expected at a place. Inside a record it stands
below the place. -/
inductive Misfit : Location → Diagnostic → Prop
  | mismatch (place : Location) (expected : Ty) (found : String) :
      Misfit place (mismatch place expected found)
  | tie (place : Location) (v : Value) (expected : Ty) (sources : List Ty) :
      Misfit place (Store.conversionTie place v expected sources)
  | unknown (place : Location) (name : String) : Misfit place ⟨place.child name, .unknownParam name⟩
  | hidden (place : Location) (name path : String) :
      Misfit place ⟨place.child name, .invalidDeclaration (.privateField name path)⟩
  | missing (place : Location) (name : String) :
      Misfit place ⟨place.child name, .missingRequiredParam name⟩
  | inside {place : Location} {name : String} {d : Diagnostic} :
      Misfit (place.child name) d → Misfit place d

namespace Misfit

variable {place : Location} {d : Diagnostic}

theorem under (misfit : Misfit place d) : d.location.Under place := by
  induction misfit with
  | mismatch place | tie place => exact .refl place
  | unknown place name | hidden place name | missing place name =>
    exact Location.under_child place name
  | inside _ ih => exact ih.of_child

/-- Values that do not fit raise no abort. -/
theorem not_terminal (misfit : Misfit place d) : d.kind.isTerminal = false := by
  induction misfit with
  | inside _ ih => exact ih
  | _ => rfl

end Misfit

/-- Where no value is given, the reason is that the value does not fit. -/
def Conformer.Misfits (conform : Conformer) : Prop :=
  ∀ t place faults, (conform t place).value = .error faults → ∀ d ∈ faults, Misfit place d

theorem Conformer.Misfits.local {conform : Conformer} (misfits : conform.Misfits) :
    conform.Local := fun t place faults failed d member =>
  (misfits t place faults failed d member).under

/-- The faults are the first of these, and all of them unless there was an abort. -/
def Findings.CutFrom (f : Findings) (all : List Diagnostic) : Prop :=
  f.faults <+: all ∧ (f.aborted = false → f.faults = all)

namespace Findings

theorem cutFrom_self (f : Findings) : f.CutFrom f.faults := ⟨List.prefix_rfl, fun _ => rfl⟩

theorem CutFrom.andThen {a : Findings} {next : Logged Findings} {first second : List Diagnostic}
    (here : a.CutFrom first) (there : next.value.CutFrom second) :
    (a.andThen next).value.CutFrom (first ++ second) := by
  unfold Findings.andThen
  split
  · rename_i aborted
    refine ⟨here.1.trans (List.prefix_append _ _), fun running => ?_⟩
    rw [Logged.value_pure, aborted] at running
    cases running
  · rename_i running
    obtain rfl := here.2 (Bool.not_eq_true _ ▸ running)
    simp only [Logged.value_bind, Logged.value_pure]
    exact ⟨(List.prefix_append_right_inj _).mpr there.1, fun reached => by rw [there.2 reached]⟩

theorem mem_faults_andThen {a : Findings} {next : Logged Findings} {d : Diagnostic}
    (member : d ∈ (a.andThen next).value.faults) : d ∈ a.faults ∨ d ∈ next.value.faults :=
  List.mem_append.mp ((a.cutFrom_self.andThen next.value.cutFrom_self).1.subset member)

end Findings

namespace Store

/-- The fault that comes of a check: it has no truth value, or it does not hold. -/
inductive CheckFault (store : Store) (env : Env) (place : Location)
    (violation : String → ErrorKind) (c : Check) : Diagnostic → Prop
  | stuck {d : Diagnostic} : (store.check c env place).value = .error d →
      CheckFault store env place violation c d
  | violated : (store.check c env place).value = .ok .fails →
      CheckFault store env place violation c ⟨place, violation c.source⟩

/-- A fault of a parameter for which something is given, or nothing. -/
inductive ParamFault (store : Store) (schema : Schema) (p : Param) (given : Option Conformer)
    (place : Location) : Diagnostic → Prop
  | missing : given = none → p.default = none →
      ParamFault store schema p given place ⟨place, .missingRequiredParam p.name⟩
  | valueless {s : Snippet} {e : EvalError} : given = none → p.default = some s →
      Eval.outcome (store.eval { module := schema.module } s.expr) = .error e →
      ParamFault store schema p given place (evalFault (place.child "default") s e)
  | unfit {conform : Conformer} {faults : List Diagnostic} {d : Diagnostic} :
      store.Supplies schema p given conform → (conform p.ty place).value = .error faults →
      d ∈ faults → ParamFault store schema p given place d
  | check {conform : Conformer} {v : Value} {via : Option Conversion} {c : Check} {d : Diagnostic} :
      store.Supplies schema p given conform → (conform p.ty place).value = .ok (v, via) →
      c ∈ p.checks →
      store.CheckFault (paramEnv schema.module p.name v) place (.checkViolation p.name) c d →
      ParamFault store schema p given place d

/-- A fault of a validation. -/
inductive ValidationFault (store : Store) (schema : Schema) (given : List (String × Conformer))
    (base : Location) : Diagnostic → Prop
  | unknown {g : String × Conformer} : g ∈ given → schema.param? g.1 = none →
      ValidationFault store schema given base ⟨base.child g.1, .unknownParam g.1⟩
  | param {p : Param} {d : Diagnostic} : p ∈ schema.params →
      store.ParamFault schema p (givenFor given p) (base.child p.name) d →
      ValidationFault store schema given base d
  | cross {env : Env} {c : Check} {d : Diagnostic} : c ∈ schema.checks →
      store.CheckFault env (base.child "checks") .crossFieldCheckViolation c d →
      ValidationFault store schema given base d

variable {store : Store}

/-! ### Causes of faults -/

theorem mem_faults_runChecks {component : String} {env : Env} {place : Location}
    {violation : String → ErrorKind} {checks : List Check} {d : Diagnostic}
    (member : d ∈ (store.runChecks component env place violation checks).value.faults) :
    ∃ c ∈ checks, store.CheckFault env place violation c d := by
  induction checks with
  | nil => cases member
  | cons c rest ih =>
    have either : store.CheckFault env place violation c d ∨
        d ∈ (store.runChecks component env place violation rest).value.faults := by
      simp only [runChecks, Logged.value_bind] at member
      rcases result : (store.check c env place).value with fault | _ | _ | _ <;>
        rw [result] at member <;>
        refine (Findings.mem_faults_andThen member).imp_left fun here => ?_
      · exact List.mem_singleton.mp here ▸ .stuck result
      · cases here
      · exact List.mem_singleton.mp here ▸ .violated result
      · cases here
    rcases either with cause | later
    · exact ⟨c, List.mem_cons_self, cause⟩
    · obtain ⟨other, listed, cause⟩ := ih later
      exact ⟨other, List.mem_cons_of_mem _ listed, cause⟩

/-- Where a parameter gets no value, none is given or supplied by a default, or it does not fit. -/
theorem mem_faults_valueOf {schema : Schema} {p : Param} {given : Option Conformer}
    {place : Location} {f : Findings} {d : Diagnostic}
    (failed : (store.valueOf schema p given place).value = .error f) (member : d ∈ f.faults) :
    store.ParamFault schema p given place d := by
  unfold valueOf at failed
  cases given with
  | some conform =>
    simp only [Logged.value_bind] at failed
    rcases result : (conform p.ty place).value with faults | ⟨v, _ | via⟩ <;>
      rw [result] at failed <;> cases failed
    exact .unfit (.given conform) result member
  | none =>
    rcases Option.eq_none_or_eq_some p.default with declared | ⟨default, declared⟩ <;>
      rw [declared] at failed
    · cases failed
      obtain rfl := List.mem_singleton.mp member
      exact .missing rfl declared
    · simp only [Logged.value_bind] at failed
      cases evaluated : (store.eval { module := schema.module } default.expr).run.value with
      | error e =>
        rw [evaluated] at failed
        cases failed
        obtain rfl := List.mem_singleton.mp member
        exact .valueless rfl declared evaluated
      | ok v =>
        rw [evaluated] at failed
        simp only [Logged.value_bind] at failed
        rcases result : (store.conformPlain v p.ty place).value with faults | ⟨w, _ | via⟩ <;>
          rw [result] at failed <;> cases failed
        exact .unfit (.default declared evaluated) result member

theorem mem_faults_runParam {schema : Schema} {p : Param} {given : Option Conformer}
    {place : Location} {d : Diagnostic}
    (member : d ∈ (store.runParam schema p given place).value.faults) :
    store.ParamFault schema p given place d := by
  unfold runParam at member
  simp only [Logged.value_bind] at member
  cases result : (store.valueOf schema p given place).value with
  | error f =>
    rw [result] at member
    exact mem_faults_valueOf result member
  | ok valid =>
    rw [result] at member
    simp only [Logged.value_bind, Logged.value_pure] at member
    obtain ⟨c, listed, cause⟩ := mem_faults_runChecks member
    rcases valueOf_cases schema p given place with
      ⟨f, failed, -⟩ | ⟨conform, supplies, ⟨faults, -, failed⟩ |
        ⟨w, via, valid', fits, found, -, same⟩⟩
    · rw [result] at failed
      cases failed
    · rw [result] at failed
      cases failed
    · rw [result] at found
      cases found
      exact .check supplies fits listed (same ▸ cause)

theorem runParams_cutFrom (store : Store) (schema : Schema) (given : List (String × Conformer))
    (base : Location) (params : List Param) :
    (store.runParams schema given base params).value.CutFrom (params.map fun p =>
      (store.runParam schema p (givenFor given p) (base.child p.name)).value.faults).flatten := by
  induction params with
  | nil => exact Findings.cutFrom_self {}
  | cons p rest ih =>
    rw [runParams_cons]
    exact (Findings.cutFrom_self _).andThen ih

/-- The faults of a validation are those of names, those of the parameters one after another and
those of the checks on all parameters, up to an abort. -/
theorem faults_validateWith {schema : Schema} {given : List (String × Conformer)} {base : Location}
    {faults : List Diagnostic}
    (failed : (store.validateWith schema given base).value = .error faults) :
    ∃ cross, (∀ d ∈ cross, ∃ c ∈ schema.checks, ∃ env,
        store.CheckFault env (base.child "checks") .crossFieldCheckViolation c d) ∧
      faults <+: (given.filter fun g => (schema.param? g.1).isNone).map
          (fun g => ⟨base.child g.1, .unknownParam g.1⟩) ++
        (schema.params.map fun p =>
          (store.runParam schema p (givenFor given p) (base.child p.name)).value.faults).flatten ++
        cross := by
  unfold validateWith at failed
  simp only [Logged.value_bind] at failed
  split at failed <;> cases failed
  have unknown := Findings.cutFrom_self
    { faults := (given.filter fun g => (schema.param? g.1).isNone).map
        fun g => ⟨base.child g.1, .unknownParam g.1⟩ }
  have own := unknown.andThen (store.runParams_cutFrom schema given base schema.params)
  refine ⟨_, fun d member => ?_, (own.andThen (Findings.cutFrom_self _)).1⟩
  unfold runCross at member
  split at member
  · obtain ⟨c, listed, cause⟩ := mem_faults_runChecks member
    exact ⟨c, listed, _, cause⟩
  · cases member

/-- Every fault of a validation has its cause. -/
theorem mem_faults_validateWith {schema : Schema} {given : List (String × Conformer)}
    {base : Location} {faults : List Diagnostic} {d : Diagnostic}
    (failed : (store.validateWith schema given base).value = .error faults) (member : d ∈ faults) :
    store.ValidationFault schema given base d := by
  obtain ⟨cross, causes, cut⟩ := faults_validateWith failed
  rcases List.mem_append.mp (cut.subset member) with own | joint
  · rcases List.mem_append.mp own with unknown | param
    · obtain ⟨g, listed, rfl⟩ := List.mem_map.mp unknown
      rw [List.mem_filter, Option.isNone_iff_eq_none] at listed
      exact .unknown listed.1 listed.2
    · obtain ⟨part, among, inside⟩ := List.mem_flatten.mp param
      obtain ⟨p, listed, rfl⟩ := List.mem_map.mp among
      exact .param listed (mem_faults_runParam inside)
  · obtain ⟨c, listed, env, cause⟩ := causes d joint
    exact .cross listed cause

/-! ### Places of faults -/

theorem location_check {c : Check} {env : Env} {place : Location} {d : Diagnostic}
    (failed : (store.check c env place).value = .error d) : d.location = place := by
  unfold check at failed
  simp only [Logged.value_bind] at failed
  split at failed
  · cases failed
  · cases failed
  · split at failed <;> cases failed
    rfl
  · cases failed
    rfl

theorem CheckFault.location {env : Env} {place : Location} {violation : String → ErrorKind}
    {c : Check} {d : Diagnostic} (fault : store.CheckFault env place violation c d) :
    d.location = place := by
  cases fault with
  | stuck failed => exact location_check failed
  | violated => rfl

theorem conformBy_misfits (inOption : Location → Ty → Logged (Option Value)) (v : Value) :
    Conformer.Misfits (store.conformBy inOption v) := by
  intro t place faults failed d member
  unfold conformBy at failed
  simp only [Logged.value_bind] at failed
  split at failed
  · cases failed
  · simp only [Logged.value_bind] at failed
    split at failed
    · rename_i converted
      cases failed
      rw [convert_value] at converted
      repeat' split at converted
      all_goals cases converted
      obtain rfl := List.mem_singleton.mp member
      exact .tie place _ _ _
    · cases failed
      obtain rfl := List.mem_singleton.mp member
      exact .mismatch place _ _
    · cases failed

theorem conformPlain_misfits (v : Value) : Conformer.Misfits (store.conformPlain v) := by
  intro t place
  unfold conformPlain
  cases store.expandedHeight t with
  | zero => exact conformBy_misfits _ v t place
  | succ depth => exact conformBy_misfits _ v t place

theorem ParamFault.under {schema : Schema} {p : Param} {given : Option Conformer}
    {place : Location} {d : Diagnostic} (inside : ∀ c ∈ given, c.Local)
    (fault : store.ParamFault schema p given place d) : d.location.Under place := by
  cases fault with
  | missing => exact .refl place
  | valueless => exact Location.under_child place "default"
  | unfit supplies refused member =>
    cases supplies with
    | given => exact inside _ rfl _ _ _ refused d member
    | default => exact (conformPlain_misfits _).local _ _ _ refused d member
  | check _ _ _ cause => exact cause.location ▸ .refl place

theorem ValidationFault.under {schema : Schema} {given : List (String × Conformer)}
    {base : Location} {d : Diagnostic} (inside : ∀ g ∈ given, g.2.Local)
    (fault : store.ValidationFault schema given base d) : d.location.Under base := by
  cases fault with
  | unknown => exact Location.under_child base _
  | param _ cause =>
    refine Location.Under.of_child (cause.under fun c member => ?_)
    obtain ⟨g, found, rfl⟩ := Option.map_eq_some_iff.mp member
    exact inside g (List.mem_of_find?_eq_some found)
  | cross _ cause => exact cause.location ▸ Location.under_child base _

theorem recordOf_misfits {given : List (String × Conformer)} (inside : ∀ g ∈ given, g.2.Misfits)
    {t : Ty} {place : Location} {faults : List Diagnostic}
    (failed : (store.recordOf given t place).value = .error faults) :
    ∀ d ∈ faults, Misfit place d := by
  intro d member
  unfold recordOf at failed
  split at failed
  · cases failed
    obtain rfl := List.mem_singleton.mp member
    exact .mismatch place _ _
  · rename_i decl _
    dsimp only at failed
    split at failed
    · cases failed
      obtain ⟨g, -, rfl⟩ := List.mem_map.mp member
      exact .hidden place _ _
    · simp only [Logged.value_bind] at failed
      split at failed <;> cases failed
      rename_i refused
      have plain := recordSchema_plain decl t
      cases mem_faults_validateWith refused member with
      | unknown => exact .unknown place _
      | @param p _ listed cause =>
        cases cause with
        | missing => exact .missing place p.name
        | valueless _ declared => rw [(plain p listed).1] at declared; cases declared
        | unfit supplies unfit among =>
          cases supplied : givenFor given p with
          | some conform =>
            rw [supplied] at supplies
            cases supplies
            obtain ⟨g, found, rfl⟩ := Option.map_eq_some_iff.mp supplied
            have misfits := inside g (List.mem_of_find?_eq_some found)
            exact .inside (misfits _ _ _ unfit d among)
          | none =>
            rw [supplied] at supplies
            cases supplies with
            | default declared => rw [(plain p listed).1] at declared; cases declared
        | check _ _ among => rw [(plain p listed).2] at among; cases among
      | cross among => cases among

theorem conform_misfits (v : Value) : Conformer.Misfits (store.conform v) := by
  induction v using Value.inductionOn with
  | record u fields ih =>
    cases u with
    | infer =>
      intro t place faults failed
      have each : ∀ g ∈ store.conformFields fields, g.2.Misfits := by
        rw [conformFields_eq_map]
        intro g member
        obtain ⟨f, listed, rfl⟩ := List.mem_map.mp member
        exact ih f listed
      simp only [conform, Logged.value_bind, Logged.value_pure] at failed
      cases result :
          (store.recordOf (store.conformFields fields) (store.normalize t) place).value <;>
        rw [result] at failed <;> cases failed
      exact recordOf_misfits each result
    | _ => exact conformPlain_misfits _
  | leaf v leaf =>
    have typed : v.isUntyped = false := by cases v <;> simp_all [Value.isLeaf, Value.isUntyped]
    rw [conform_of_typed typed]
    exact conformPlain_misfits v
  | _ => exact conformPlain_misfits _

theorem conformFields_misfits (fields : List (String × Value)) :
    ∀ g ∈ store.conformFields fields, g.2.Misfits := by
  rw [conformFields_eq_map]
  intro g member
  obtain ⟨f, -, rfl⟩ := List.mem_map.mp member
  exact conform_misfits f.2

/-- The faults of a validation stand at its place or below it. -/
theorem validate_local {schema : Schema} {supplied : List (String × Value)} {base : Location}
    {faults : List Diagnostic}
    (failed : (store.validate schema supplied base).value = .error faults) :
    ∀ d ∈ faults, d.location.Under base := fun _ member =>
  (mem_faults_validateWith failed member).under fun g listed =>
    (conformFields_misfits supplied g listed).local

theorem validateRecord_misfits {fields : List (String × Value)} {t : Ty} {base : Location}
    {faults : List Diagnostic}
    (failed : (store.validateRecord fields t base).value = .error faults) :
    ∀ d ∈ faults, Misfit base d :=
  recordOf_misfits (conformFields_misfits fields) failed

end Store
end Pipeline

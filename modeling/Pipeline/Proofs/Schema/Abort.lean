import Pipeline.Proofs.Schema.Faults

/-!
# Aborts of validations

An abort raised by a default or a check is the last fault of the validation, and no other fault is
an abort. The validation is given up there: from a schema that is declared alike up to this default
or check, whatever stands behind it, the same comes, and the same is reported on the way.
-/

set_option autoImplicit false
set_option relaxedAutoImplicit false

namespace Pipeline

/-- No fault is an abort. -/
def NoAbort (faults : List Diagnostic) : Prop := ∀ d ∈ faults, d.kind.isTerminal = false

/-- A fault is an abort, it is the last one, and no other one is an abort. -/
def AbortedBy (faults : List Diagnostic) (g : Diagnostic) : Prop :=
  g.kind.isTerminal = true ∧ ∃ earlier, faults = earlier ++ [g] ∧ NoAbort earlier

theorem NoAbort.append {earlier later : List Diagnostic} (first : NoAbort earlier)
    (second : NoAbort later) : NoAbort (earlier ++ later) :=
  List.forall_mem_append.mpr ⟨first, second⟩

theorem noAbort_singleton {d : Diagnostic} (calm : d.kind.isTerminal = false) : NoAbort [d] :=
  List.forall_mem_singleton.mpr calm

theorem abortedBy_singleton {g : Diagnostic} (terminal : g.kind.isTerminal = true) :
    AbortedBy [g] g := ⟨terminal, [], rfl, List.forall_mem_nil _⟩

theorem AbortedBy.append {earlier later : List Diagnostic} {g : Diagnostic}
    (aborted : AbortedBy later g) (calm : NoAbort earlier) : AbortedBy (earlier ++ later) g := by
  obtain ⟨terminal, between, rfl, none⟩ := aborted
  exact ⟨terminal, earlier ++ between, by rw [List.append_assoc], calm.append none⟩

theorem AbortedBy.ne_nil {faults : List Diagnostic} {g : Diagnostic}
    (aborted : AbortedBy faults g) : faults ≠ [] := by
  obtain ⟨-, earlier, rfl, -⟩ := aborted
  exact List.append_ne_nil_of_right_ne_nil earlier (List.cons_ne_nil g [])

theorem AbortedBy.eq_of_mem {faults : List Diagnostic} {g f : Diagnostic}
    (aborted : AbortedBy faults g) (member : f ∈ faults) (terminal : f.kind.isTerminal = true) :
    f = g := by
  obtain ⟨-, earlier, rfl, calm⟩ := aborted
  rcases List.mem_append.mp member with before | last
  · exact absurd terminal (by simp [calm f before])
  · exact List.mem_singleton.mp last

theorem Logged.bind_congr_value {α β : Type} {x : Logged α} {f g : α → Logged β}
    (same : f x.value = g x.value) : x >>= f = x >>= g := by
  change (⟨(f x.value).value, x.events ++ (f x.value).events⟩ : Logged β) =
    ⟨(g x.value).value, x.events ++ (g x.value).events⟩
  rw [same]

theorem Logged.bind_bind {α β γ : Type} (x : Logged α) (f : α → Logged β) (g : β → Logged γ) :
    x >>= f >>= g = x >>= fun a => f a >>= g := by
  change (⟨_, x.events ++ _ ++ _⟩ : Logged γ) = ⟨_, x.events ++ (_ ++ _)⟩
  rw [List.append_assoc]
  rfl

/-- Nothing more is reported where the value is passed on. -/
theorem Logged.bind_eq_self {α : Type} {x : Logged α} {f : α → Logged α}
    (same : f x.value = pure x.value) : x >>= f = x := by
  rw [Logged.bind_congr_value (g := pure) same]
  change (⟨x.value, x.events ++ []⟩ : Logged α) = x
  rw [List.append_nil]

/-! ### One part after another -/

namespace Findings

theorem andThen_of_aborted {a : Findings} (aborted : a.aborted = true) (next : Logged Findings) :
    a.andThen next = pure a := if_pos aborted

theorem aborted_andThen {a : Findings} (running : a.aborted = false) (next : Logged Findings) :
    (a.andThen next).value.aborted = next.value.aborted := by
  simp [andThen, running]

theorem faults_andThen {a : Findings} (running : a.aborted = false) (next : Logged Findings) :
    (a.andThen next).value.faults = a.faults ++ next.value.faults := by
  simp [andThen, running]

/-- Parts that are gone through one after another, each of which either raises no abort or is ended
by one for some cause: the first one that is ended ends the whole, whatever stands behind it. -/
theorem exists_cut {α : Type} (run : List α → Logged Findings) (part : α → Logged Findings)
    {Cause : α → Diagnostic → Prop} (nil : run [] = pure {})
    (cons : ∀ x more, run (x :: more) = part x >>= fun found => found.andThen (run more))
    (each : ∀ x, (part x).value.aborted = false ∧ NoAbort (part x).value.faults ∨
      (part x).value.aborted = true ∧ ∃ g, Cause x g ∧ AbortedBy (part x).value.faults g)
    (xs : List α) :
    (run xs).value.aborted = false ∧ NoAbort (run xs).value.faults ∨
      (run xs).value.aborted = true ∧ ∃ before x after g, xs = before ++ x :: after ∧ Cause x g ∧
        AbortedBy (run xs).value.faults g ∧
        ∀ x' after', part x' = part x → run (before ++ x' :: after') = run xs := by
  induction xs with
  | nil =>
    rw [nil]
    exact Or.inl ⟨rfl, List.forall_mem_nil _⟩
  | cons x rest ih =>
    rcases each x with ⟨running, before⟩ | ⟨aborted, g, cause, last⟩
    · have value : (run (x :: rest)).value = ((part x).value.andThen (run rest)).value := by
        rw [cons]
        rfl
      rw [value, aborted_andThen running, faults_andThen running]
      refine ih.imp (fun later => ⟨later.1, before.append later.2⟩) ?_
      rintro ⟨aborted, front, y, after, g, rfl, cause, last, cut⟩
      refine ⟨aborted, x :: front, y, after, g, rfl, cause, last.append before, ?_⟩
      intro y' after' same
      rw [List.cons_append, cons, cons, cut y' after' same]
    · -- The part itself raises the abort.
      have halted (x' : α) (more : List α) (same : part x' = part x) :
          run (x' :: more) = part x := by
        rw [cons, same]
        exact Logged.bind_eq_self (andThen_of_aborted aborted (run more))
      rw [halted x rest rfl]
      exact Or.inr ⟨aborted, [], x, rest, g, rfl, cause, last, halted⟩

end Findings

namespace Store

variable {store : Store}

/-! ### Checks -/

section Checks

variable {component : String} {env : Env} {place : Location} {violation : String → ErrorKind}

/-- What a check that was evaluated adds to the findings. -/
private def ofVerdict (component : String) (place : Location) (violation : String → ErrorKind)
    (c : Check) : Except Diagnostic Verdict → Logged Findings
  | .ok .holds => pure {}
  | .ok .fails => pure { faults := [⟨place, violation c.source⟩] }
  | .ok .deferred => do
    Logged.report (.checkDeferred component c.source)
    pure { deferred := [c.source] }
  | .error d => pure (Findings.ofFault d)

private theorem ofVerdict_cases (component : String) (place : Location)
    (calm : ∀ source, (violation source).isTerminal = false) (c : Check)
    (r : Except Diagnostic Verdict) :
    let found := (ofVerdict component place violation c r).value
    found.aborted = false ∧ NoAbort found.faults ∨
      found.aborted = true ∧ ∃ g, r = .error g ∧ AbortedBy found.faults g := by
  rcases r with d | _ | _ | _
  · cases terminal : d.kind.isTerminal with
    | true => exact Or.inr ⟨terminal, d, rfl, abortedBy_singleton terminal⟩
    | false => exact Or.inl ⟨terminal, noAbort_singleton terminal⟩
  · exact Or.inl ⟨rfl, List.forall_mem_nil _⟩
  · exact Or.inl ⟨rfl, noAbort_singleton (calm c.source)⟩
  · exact Or.inl ⟨rfl, List.forall_mem_nil _⟩

/-- Checks are evaluated one after another up to an abort, after which nothing is looked at. -/
theorem runChecks_cut (calm : ∀ source, (violation source).isTerminal = false)
    (checks : List Check) :
    let run := store.runChecks component env place violation
    (run checks).value.aborted = false ∧ NoAbort (run checks).value.faults ∨
      (run checks).value.aborted = true ∧
        ∃ early c late g, checks = early ++ c :: late ∧
          (store.check c env place).value = .error g ∧ AbortedBy (run checks).value.faults g ∧
          ∀ late', run (early ++ c :: late') = run checks := by
  intro run
  let part (c : Check) : Logged Findings :=
    store.check c env place >>= ofVerdict component place violation c
  have step (c : Check) (more : List Check) :
      run (c :: more) = part c >>= fun found => found.andThen (run more) := by
    change store.runChecks component env place violation (c :: more) = _
    rw [runChecks, Logged.bind_bind]
    refine Logged.bind_congr_value ?_
    rcases (store.check c env place).value with d | _ | _ | _ <;> rfl
  refine (Findings.exists_cut run part rfl step
    (fun c => ofVerdict_cases component place calm c (store.check c env place).value)
    checks).imp_right ?_
  rintro ⟨aborted, early, c, late, g, split, raised, last, cut⟩
  exact ⟨aborted, early, c, late, g, split, raised, last, fun late' => cut c late' rfl⟩

end Checks

/-! ### Parameters -/

/-- Where validating a parameter is given up for a fault, with the parameters that are declared
alike up to there. -/
inductive ParamHalt (store : Store) (schema : Schema) (p : Param) (given : Option Conformer)
    (place : Location) : Diagnostic → (Param → Prop) → Prop
  | default {s : Snippet} {e : EvalError} : given = none → p.default = some s →
      Eval.outcome (store.eval { module := schema.module } s.expr) = .error e →
      ParamHalt store schema p given place (evalFault (place.child "default") s e)
        fun p' => p'.name = p.name ∧ p'.default = p.default
  | check {conform : Conformer} {v : Value} {via : Option Conversion} {early late : List Check}
      {c : Check} {g : Diagnostic} :
      store.Supplies schema p given conform → (conform p.ty place).value = .ok (v, via) →
      p.checks = early ++ c :: late →
      (store.check c (paramEnv schema.module p.name v) place).value = .error g →
      ParamHalt store schema p given place g
        fun p' => ∃ late', p' = { p with checks := early ++ c :: late' }

/-- Where a validation is given up for a fault, with the schemas that are declared alike up to
there: whatever stands behind in them, further parameters have the same names. -/
inductive Halt (store : Store) (schema : Schema) (given : List (String × Conformer))
    (base : Location) : Diagnostic → (Schema → Prop) → Prop
  | param {before after : List Param} {p : Param} {g : Diagnostic} {alike : Param → Prop} :
      schema.params = before ++ p :: after →
      ParamHalt store schema p (givenFor given p) (base.child p.name) g alike →
      Halt store schema given base g fun schema' => ∃ p' after' checks', alike p' ∧
        after'.map (·.name) = after.map (·.name) ∧
        schema' = { schema with params := before ++ p' :: after', checks := checks' }
  | cross {early late : List Check} {c : Check} {env : Env} {g : Diagnostic} :
      schema.checks = early ++ c :: late →
      (store.check c env (base.child "checks")).value = .error g →
      Halt store schema given base g
        fun schema' => ∃ late', schema' = { schema with checks := early ++ c :: late' }

section Params

variable {schema : Schema}

theorem ParamHalt.name {p p' : Param} {given : Option Conformer} {place : Location}
    {g : Diagnostic} {alike : Param → Prop}
    (halt : store.ParamHalt schema p given place g alike) (same : alike p') : p'.name = p.name := by
  cases halt with
  | default => exact same.1
  | check =>
    obtain ⟨late', rfl⟩ := same
    rfl

/-- A parameter without a value is at fault itself, unless its default raises an abort. -/
private theorem valueOf_cut {p : Param} {given : Option Conformer} {place : Location} {f : Findings}
    (misfits : ∀ conform ∈ given, conform.Misfits)
    (failed : (store.valueOf schema p given place).value = .error f) :
    f.aborted = false ∧ NoAbort f.faults ∨
      ∃ s e, given = none ∧ p.default = some s ∧
        Eval.outcome (store.eval { module := schema.module } s.expr) = .error e ∧
        f = .ofFault (evalFault (place.child "default") s e) := by
  have unfit {conform : Conformer} {faults : List Diagnostic} (misfits : conform.Misfits)
      (refused : (conform p.ty place).value = .error faults) : NoAbort faults :=
    fun d member => (misfits _ _ _ refused d member).not_terminal
  unfold valueOf at failed
  cases given with
  | some conform =>
    simp only [Logged.value_bind] at failed
    rcases result : (conform p.ty place).value with faults | ⟨v, _ | via⟩ <;>
      rw [result] at failed <;> cases failed
    exact Or.inl ⟨rfl, unfit (misfits conform rfl) result⟩
  | none =>
    rcases Option.eq_none_or_eq_some p.default with declared | ⟨default, declared⟩ <;>
      rw [declared] at failed
    · cases failed
      exact Or.inl ⟨rfl, noAbort_singleton rfl⟩
    · simp only [Logged.value_bind] at failed
      cases evaluated : (store.eval { module := schema.module } default.expr).run.value with
      | error e =>
        rw [evaluated] at failed
        cases failed
        exact Or.inr ⟨default, e, rfl, declared, evaluated, rfl⟩
      | ok v =>
        rw [evaluated] at failed
        simp only [Logged.value_bind] at failed
        rcases result : (store.conformPlain v p.ty place).value with faults | ⟨w, _ | via⟩ <;>
          rw [result] at failed <;> cases failed
        exact Or.inl ⟨rfl, unfit (conformPlain_misfits v) result⟩

/-- A default without a value is evaluated, and nothing else of its parameter. -/
private theorem runParam_of_default {p p' : Param} {place : Location} {s : Snippet} {e : EvalError}
    (declared : p.default = some s) (same : p'.default = p.default)
    (failed : Eval.outcome (store.eval { module := schema.module } s.expr) = .error e) :
    store.runParam schema p' none place = store.runParam schema p none place := by
  have failed : (store.eval { module := schema.module } s.expr).run.value = .error e := failed
  have value : store.valueOf schema p' none place = store.valueOf schema p none place := by
    unfold valueOf
    rw [same, declared]
    refine Logged.bind_congr_value ?_
    rw [failed]
  unfold runParam
  rw [value]
  have refused : (store.valueOf schema p none place).value =
      .error (.ofFault (evalFault (place.child "default") s e)) := by
    unfold valueOf
    rw [declared]
    simp only [Logged.value_bind, failed]
    rfl
  refine Logged.bind_congr_value ?_
  rw [refused]

/-- A parameter is validated up to an abort, after which nothing of it is looked at. -/
theorem runParam_cut (p : Param) {given : Option Conformer} (place : Location)
    (misfits : ∀ conform ∈ given, conform.Misfits) :
    let run := fun p => store.runParam schema p given place
    (run p).value.aborted = false ∧ NoAbort (run p).value.faults ∨
      (run p).value.aborted = true ∧ ∃ g alike, store.ParamHalt schema p given place g alike ∧
        AbortedBy (run p).value.faults g ∧ ∀ p', alike p' → run p' = run p := by
  intro run
  cases result : (store.valueOf schema p given place).value with
  | error f =>
    have value : (run p).value = f := by
      change (store.runParam schema p given place).value = f
      unfold runParam
      rw [Logged.value_bind, result]
      rfl
    rw [value]
    rcases valueOf_cut misfits result with calm | ⟨s, e, rfl, declared, failed, rfl⟩
    · exact Or.inl calm
    · cases terminal : (e.toKind s.source).isTerminal with
      | false => exact Or.inl ⟨terminal, noAbort_singleton terminal⟩
      | true =>
        refine Or.inr
          ⟨terminal, _, _, .default rfl declared failed, abortedBy_singleton terminal, ?_⟩
        intro p' same
        exact runParam_of_default declared same.2 failed
  | ok valid =>
    obtain ⟨conform, via, supplies, fits⟩ : ∃ conform via,
        store.Supplies schema p given conform ∧
          (conform p.ty place).value = .ok (valid.value, via) := by
      rcases valueOf_cases schema p given place with
        ⟨f, failed, -⟩ | ⟨conform, supplies, ⟨faults, -, failed⟩ |
          ⟨w, via, valid', fits, found, -, rfl⟩⟩
      · rw [result] at failed
        cases failed
      · rw [result] at failed
        cases failed
      · rw [result] at found
        cases found
        exact ⟨conform, via, supplies, fits⟩
    -- With other checks, the parameter has the same value.
    have step (checks : List Check) : run { p with checks := checks } =
        store.valueOf schema p given place >>= fun _ =>
          store.runChecks schema.component (paramEnv schema.module p.name valid.value) place
            (.checkViolation p.name) checks >>= fun found =>
          pure { found with params := [valid] } := by
      change store.valueOf schema p given place >>= _ = _
      refine Logged.bind_congr_value ?_
      rw [result]
      rfl
    have value : (run p).value = { (store.runChecks schema.component
        (paramEnv schema.module p.name valid.value) place (.checkViolation p.name) p.checks).value
          with params := [valid] } := by
      rw [step p.checks]
      rfl
    rw [value]
    refine (runChecks_cut (fun _ => rfl) p.checks).imp id ?_
    rintro ⟨aborted, early, c, late, g, split, raised, last, cut⟩
    refine ⟨aborted, g, _, .check supplies fits split raised, last, ?_⟩
    rintro p' ⟨late', rfl⟩
    rw [step, cut, ← step p.checks]

variable {given : List (String × Conformer)} {base : Location}

/-- Parameters are validated one after another up to an abort, after which none is looked at. -/
theorem runParams_cut (misfits : ∀ g ∈ given, g.2.Misfits) (params : List Param) :
    let run := store.runParams schema given base
    (run params).value.aborted = false ∧ NoAbort (run params).value.faults ∨
      (run params).value.aborted = true ∧
        ∃ before p after g alike, params = before ++ p :: after ∧
          store.ParamHalt schema p (givenFor given p) (base.child p.name) g alike ∧
          AbortedBy (run params).value.faults g ∧
          ∀ p' after', alike p' → run (before ++ p' :: after') = run params := by
  intro run
  let part (p : Param) := store.runParam schema p (givenFor given p) (base.child p.name)
  have own (p : Param) : ∀ conform ∈ givenFor given p, conform.Misfits := by
    intro conform member
    obtain ⟨g, found, rfl⟩ := Option.map_eq_some_iff.mp member
    exact misfits g (List.mem_of_find?_eq_some found)
  have each (p : Param) : (part p).value.aborted = false ∧ NoAbort (part p).value.faults ∨
      (part p).value.aborted = true ∧ ∃ g,
        (∃ alike, store.ParamHalt schema p (givenFor given p) (base.child p.name) g alike ∧
          ∀ p', alike p' → part p' = part p) ∧ AbortedBy (part p).value.faults g := by
    refine (runParam_cut p (base.child p.name) (own p)).imp_right ?_
    rintro ⟨aborted, g, alike, halt, last, cut⟩
    refine ⟨aborted, g, ⟨alike, halt, fun p' same => ?_⟩, last⟩
    have supplied : givenFor given p' = givenFor given p := by
      unfold givenFor
      rw [halt.name same]
    change store.runParam schema p' (givenFor given p') (base.child p'.name) = _
    rw [supplied, halt.name same]
    exact cut p' same
  refine (Findings.exists_cut run part rfl (fun _ _ => rfl) each params).imp_right ?_
  rintro ⟨aborted, before, p, after, g, split, ⟨alike, halt, same⟩, last, cut⟩
  exact ⟨aborted, before, p, after, g, alike, split, halt, last,
    fun p' after' like => cut p' after' (same p' like)⟩

/-! ### Whole validations -/

theorem Halt.component {g : Diagnostic} {alike : Schema → Prop} {schema' : Schema}
    (halt : store.Halt schema given base g alike) (same : alike schema') :
    schema'.component = schema.component := by
  cases halt with
  | param =>
    obtain ⟨_, _, _, -, -, rfl⟩ := same
    rfl
  | cross =>
    obtain ⟨_, rfl⟩ := same
    rfl

/-- The faults of names that the schema does not know. -/
def unknownNames (schema : Schema) (given : List (String × Conformer)) (base : Location) :
    Findings where
  faults := (given.filter fun g => (schema.param? g.1).isNone).map
    fun g => ⟨base.child g.1, .unknownParam g.1⟩

private theorem unknownNames_congr {schema' : Schema}
    (names : schema'.params.map (·.name) = schema.params.map (·.name)) :
    unknownNames schema' given base = unknownNames schema given base := by
  have known (s : Schema) (name : String) :
      (s.param? name).isNone = !(s.params.map (·.name)).contains name := by
    rw [Bool.eq_iff_iff]
    simp [Schema.param?]
  unfold unknownNames
  simp only [known, names]

private theorem noAbort_unknownNames (schema : Schema) (given : List (String × Conformer))
    (base : Location) : NoAbort (unknownNames schema given base).faults := by
  intro d member
  obtain ⟨g, -, rfl⟩ := List.mem_map.mp member
  rfl

/-- What names and parameters come to. -/
def ownFindings (store : Store) (given : List (String × Conformer)) (base : Location)
    (schema : Schema) : Logged Findings :=
  (unknownNames schema given base).andThen (store.runParams schema given base schema.params)

private theorem runParams_with (params : List Param) (checks : List Check) (ps : List Param) :
    store.runParams { schema with params := params, checks := checks } given base ps =
      store.runParams schema given base ps := by
  induction ps with
  | nil => rfl
  | cons p rest ih =>
    rw [runParams, runParams, ih]
    rfl

theorem ownFindings_cut (misfits : ∀ g ∈ given, g.2.Misfits) (schema : Schema) :
    let own := store.ownFindings given base
    (own schema).value.aborted = false ∧ NoAbort (own schema).value.faults ∨
      (own schema).value.aborted = true ∧ ∃ g alike, store.Halt schema given base g alike ∧
        AbortedBy (own schema).value.faults g ∧
        ∀ schema', alike schema' → own schema' = own schema := by
  intro own
  have start := noAbort_unknownNames schema given base
  have aborted : (own schema).value.aborted =
      (store.runParams schema given base schema.params).value.aborted :=
    Findings.aborted_andThen rfl _
  have faults : (own schema).value.faults = (unknownNames schema given base).faults ++
      (store.runParams schema given base schema.params).value.faults :=
    Findings.faults_andThen rfl _
  rw [aborted, faults]
  refine (runParams_cut misfits schema.params).imp
    (fun later => ⟨later.1, start.append later.2⟩) ?_
  rintro ⟨aborted, before, p, after, g, alike, split, halt, last, cut⟩
  refine ⟨aborted, g, _, .param split halt, last.append start, ?_⟩
  rintro schema' ⟨p', after', checks', same, names, rfl⟩
  change Findings.andThen _ _ = Findings.andThen _ _
  rw [runParams_with, cut p' after' same, unknownNames_congr]
  rw [split, List.map_append, List.map_append, List.map_cons, List.map_cons, names, halt.name same]

theorem runCross_cut (given : List (String × Conformer)) (schema : Schema)
    (params : List ValidParam) :
    (store.runCross schema params base).value.aborted = false ∧
        NoAbort (store.runCross schema params base).value.faults ∨
      (store.runCross schema params base).value.aborted = true ∧
        ∃ g alike, store.Halt schema given base g alike ∧
          AbortedBy (store.runCross schema params base).value.faults g ∧
          ∀ schema', alike schema' →
            store.ownFindings given base schema' = store.ownFindings given base schema ∧
            store.runCross schema' params base = store.runCross schema params base := by
  by_cases full : params.length = schema.params.length
  · have run (checks : List Check) : store.runCross { schema with checks := checks } params base =
        store.runChecks schema.component
          { module := schema.module, vars := NameMap.ofList (params.map fun p => (p.name, p.value)) }
          (base.child "checks") .crossFieldCheckViolation checks := if_pos full
    rw [run schema.checks]
    refine (runChecks_cut (fun _ => rfl) schema.checks).imp id ?_
    rintro ⟨aborted, early, c, late, g, split, raised, last, cut⟩
    refine ⟨aborted, g, _, .cross split raised, last, ?_⟩
    rintro schema' ⟨late', rfl⟩
    refine ⟨?_, (run _).trans (cut late')⟩
    exact congrArg (Findings.andThen (unknownNames schema given base))
      (runParams_with schema.params _ schema.params)
  · have none : store.runCross schema params base = pure {} := if_neg full
    rw [none]
    exact Or.inl ⟨rfl, List.forall_mem_nil _⟩

/-- How a validation ends. -/
def conclude (schema : Schema) (found : Findings) : Except (List Diagnostic) ValidParams :=
  if found.faults.isEmpty then
    .ok ⟨schema.component, inferTy schema found.params, found.params, found.deferred⟩
  else .error found.faults

theorem conclude_eq_error {found : Findings} {faults : List Diagnostic}
    (failed : conclude schema found = .error faults) : faults = found.faults := by
  unfold conclude at failed
  split at failed
  · cases failed
  · cases failed
    rfl

private theorem conclude_of_abortedBy {found : Findings} {g : Diagnostic}
    (aborted : AbortedBy found.faults g) (schema : Schema) :
    conclude schema found = .error found.faults :=
  if_neg (by simpa using aborted.ne_nil)

theorem validateWith_eq (schema : Schema) (given : List (String × Conformer))
    (base : Location) :
    store.validateWith schema given base =
      store.ownFindings given base schema >>= fun own =>
        own.andThen (store.runCross schema own.params base) >>= fun found =>
          pure (conclude schema found) := by
  unfold validateWith
  refine Logged.bind_congr_value (Logged.bind_congr_value ?_)
  unfold conclude
  split <;> rfl

/-- A validation is given up where it is aborted: with any schema that is declared alike up to there
it takes the same course. -/
theorem validateWith_cut (misfits : ∀ g ∈ given, g.2.Misfits) {faults : List Diagnostic}
    (failed : (store.validateWith schema given base).value = .error faults) :
    NoAbort faults ∨ ∃ g alike, store.Halt schema given base g alike ∧ AbortedBy faults g ∧
      ∀ schema', alike schema' →
        store.validateWith schema' given base = store.validateWith schema given base := by
  have whole : conclude schema ((store.ownFindings given base schema).value.andThen
      (store.runCross schema (store.ownFindings given base schema).value.params base)).value =
        .error faults := by
    rw [← failed, validateWith_eq]
    rfl
  obtain rfl := conclude_eq_error whole
  rcases store.ownFindings_cut misfits schema with
    ⟨running, calm⟩ | ⟨aborted, g, alike, halt, last, cut⟩
  · rw [Findings.faults_andThen running]
    refine (store.runCross_cut given schema _).imp (fun later => calm.append later.2) ?_
    rintro ⟨aborted, g, alike, halt, last, cut⟩
    refine ⟨g, alike, halt, last.append calm, fun schema' same => ?_⟩
    rw [validateWith_eq, validateWith_eq, (cut schema' same).1]
    refine Logged.bind_congr_value ?_
    rw [(cut schema' same).2]
    refine Logged.bind_congr_value ?_
    have reached : AbortedBy ((store.ownFindings given base schema).value.andThen
        (store.runCross schema (store.ownFindings given base schema).value.params base)).value.faults
          g := by
      rw [Findings.faults_andThen running]
      exact last.append calm
    rw [conclude_of_abortedBy reached, conclude_of_abortedBy reached]
  · rw [Findings.andThen_of_aborted aborted, Logged.value_pure]
    refine Or.inr ⟨g, alike, halt, last, fun schema' same => ?_⟩
    rw [validateWith_eq, validateWith_eq, cut schema' same]
    refine Logged.bind_congr_value ?_
    rw [Findings.andThen_of_aborted aborted, Findings.andThen_of_aborted aborted]
    refine Logged.bind_congr_value ?_
    rw [Logged.value_pure, conclude_of_abortedBy last, conclude_of_abortedBy last]

/-- An abort ends the validation of what is supplied for a component. -/
theorem validate_cut {schema : Schema} {supplied : List (String × Value)} {base : Location}
    {faults : List Diagnostic}
    (failed : (store.validate schema supplied base).value = .error faults) :
    NoAbort faults ∨ ∃ g alike, store.Halt schema (store.conformFields supplied) base g alike ∧
      AbortedBy faults g ∧ ∀ schema', alike schema' →
        store.validate schema' supplied base = store.validate schema supplied base := by
  refine (validateWith_cut (conformFields_misfits supplied) failed).imp_right ?_
  rintro ⟨g, alike, halt, last, cut⟩
  refine ⟨g, alike, halt, last, fun schema' same => ?_⟩
  unfold validate
  rw [cut schema' same, halt.component same]

end Params

end Store
end Pipeline

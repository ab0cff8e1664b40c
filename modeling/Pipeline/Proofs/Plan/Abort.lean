import Pipeline.Proofs.Plan.Independence

/-!
# Aborts of documents

The first binding that raises an abort is the last one that is looked at: no body behind it and no
pipe has an effect. A default or a check that raises it ends the binding as well. Of fields,
however, all are evaluated before it shows that one of them has raised an abort, so that faults of
those behind it are reported after it.
-/

set_option autoImplicit false
set_option relaxedAutoImplicit false

namespace Pipeline.Store

/-! ### Fields -/

/-- The fault of a written field, if it has no value. -/
def fieldFault? (store : Store) (env : Env) (place : Location) (field : String × RawValue) :
    Option Diagnostic :=
  match (store.fieldValue env (place.child field.1) field.2).value.value with
  | .ok _ => none
  | .error d => some d

variable {store : Store} {env : Env}

theorem fieldValues_faults (place : Location) (raws : List (String × RawValue)) :
    (store.fieldValues env place raws).value.2.2 =
      raws.filterMap (store.fieldFault? env place) := by
  induction raws with
  | nil => rfl
  | cons field rest ih =>
    obtain ⟨name, raw⟩ := field
    simp only [fieldValues, Logged.value_bind]
    cases found : (store.fieldValue env (place.child name) raw).value.value with
    | ok v =>
      have none : store.fieldFault? env place (name, raw) = none := by
        unfold fieldFault?
        rw [found]
      rw [List.filterMap_cons_none none]
      exact ih
    | error d =>
      have some : store.fieldFault? env place (name, raw) = some d := by
        unfold fieldFault?
        rw [found]
      rw [List.filterMap_cons_some some]
      exact congrArg (d :: ·) ih

/-- The first abort among the faults of things that are looked at one after another. -/
theorem exists_first_abort {α : Type} (fault : α → Option Diagnostic) (xs : List α) :
    NoAbort (xs.filterMap fault) ∨ ∃ before x after g, xs = before ++ x :: after ∧
      fault x = some g ∧ g.kind.isTerminal = true ∧ NoAbort (before.filterMap fault) := by
  induction xs with
  | nil => exact Or.inl (List.forall_mem_nil _)
  | cons x rest ih =>
    have later (own : List Diagnostic) (calm : NoAbort own)
        (step : ∀ more, (x :: more).filterMap fault = own ++ more.filterMap fault) :
        NoAbort ((x :: rest).filterMap fault) ∨ ∃ before y after g,
          x :: rest = before ++ y :: after ∧ fault y = some g ∧ g.kind.isTerminal = true ∧
          NoAbort (before.filterMap fault) := by
      refine ih.imp (fun none => step rest ▸ calm.append none) ?_
      rintro ⟨before, y, after, g, rfl, found, terminal, none⟩
      exact ⟨x :: before, y, after, g, rfl, found, terminal, step before ▸ calm.append none⟩
    cases found : fault x with
    | none =>
      exact later [] (List.forall_mem_nil _) fun more => List.filterMap_cons_none found
    | some d =>
      cases terminal : d.kind.isTerminal with
      | true => exact Or.inr ⟨[], x, rest, d, rfl, found, terminal, List.forall_mem_nil _⟩
      | false =>
        exact later [d] (noAbort_singleton terminal) fun more => List.filterMap_cons_some found

/-! ### Constructions -/

theorem isTerminal_referenceFault (consumer : String) (supplied : List (String × Value))
    (place : Location) (d : Diagnostic) :
    (referenceFault consumer supplied place d).kind.isTerminal = d.kind.isTerminal := by
  unfold referenceFault
  split
  · rename_i kind
    have calm : d.kind.isTerminal = false := by
      rw [kind]
      rfl
    rw [calm]
    dsimp only
    repeat' split
    all_goals first | exact calm | rfl
  · rfl

theorem referenceFault_of_terminal (consumer : String) (supplied : List (String × Value))
    (place : Location) {d : Diagnostic} (terminal : d.kind.isTerminal = true) :
    referenceFault consumer supplied place d = d := by
  unfold referenceFault
  split
  · rename_i kind
    rw [kind] at terminal
    cases terminal
  · rfl

theorem noAbort_map_referenceFault {consumer : String} {supplied : List (String × Value)}
    {place : Location} {faults : List Diagnostic} (calm : NoAbort faults) :
    NoAbort (faults.map (referenceFault consumer supplied place)) := by
  intro d member
  obtain ⟨f, inside, rfl⟩ := List.mem_map.mp member
  rw [isTerminal_referenceFault]
  exact calm f inside

theorem abortedBy_map_referenceFault {consumer : String} {supplied : List (String × Value)}
    {place : Location} {faults : List Diagnostic} {g : Diagnostic} (aborted : AbortedBy faults g) :
    AbortedBy (faults.map (referenceFault consumer supplied place)) g := by
  obtain ⟨terminal, earlier, rfl, calm⟩ := aborted
  rw [List.map_append, List.map_singleton, referenceFault_of_terminal _ _ _ terminal]
  exact (abortedBy_singleton terminal).append (noAbort_map_referenceFault calm)

/-- Where constructing a binding raises an abort, the validation of its fields is given up. -/
theorem construct_cut {name : String} {t : Ty} {supplied : List (String × Value)}
    {place : Location} {faults : List Diagnostic}
    (failed : (store.construct name t supplied place).value = .error faults) :
    NoAbort faults ∨ ∃ schema g alike, t.path?.bind store.schema? = some schema ∧
      store.Halt (schema.instantiate t.args) (store.conformFields supplied) place g alike ∧
      AbortedBy faults g ∧ ∀ schema', alike schema' →
        store.validate schema' supplied place =
          store.validate (schema.instantiate t.args) supplied place := by
  unfold construct at failed
  dsimp only at failed
  split at failed
  · rename_i schema known
    simp only [Logged.value_bind] at failed
    split at failed
    · cases failed
    · rename_i own refused
      cases failed
      refine (validate_cut refused).imp noAbort_map_referenceFault ?_
      rintro ⟨g, alike, halt, last, cut⟩
      exact ⟨schema, g, alike, known, halt, abortedBy_map_referenceFault last, cut⟩
  · left
    split at failed
    · simp only [Logged.value_bind] at failed
      split at failed
      · cases failed
      · rename_i own refused
        cases failed
        refine noAbort_map_referenceFault fun d member => ?_
        exact (validateRecord_misfits refused d member).not_terminal
    · cases failed
      exact noAbort_singleton rfl

/-! ### Bindings -/

/-- What raises an abort in a binding of a type: a field, after which the faults of the fields
behind it are reported, or a default or a check of its component, where the validation is given up.
-/
inductive Raises (store : Store) (env : Env) (t : Ty) (body : BindingBody) (place : Location) :
    Diagnostic → List Diagnostic → Prop
  | field {before after : List (String × RawValue)} {field : String × RawValue} {g : Diagnostic} :
      body = .fields (before ++ field :: after) → store.fieldFault? env place field = some g →
      Raises store env t body place g (after.filterMap (store.fieldFault? env place))
  | validation {raws : List (String × RawValue)} {supplied : List (String × Value)}
      {schema : Schema} {g : Diagnostic} {alike : Schema → Prop} :
      body = .fields raws → supplied = (store.fieldValues env place raws).value.1 →
      t.path?.bind store.schema? = some schema →
      store.Halt (schema.instantiate t.args) (store.conformFields supplied) place g alike →
      (∀ schema', alike schema' → store.validate schema' supplied place =
        store.validate (schema.instantiate t.args) supplied place) →
      Raises store env t body place g []

theorem bodyFaults_cut (store : Store) (env : Env) (name : String) (t : Ty) (body : BindingBody)
    (place : Location) :
    NoAbort (store.bodyFaults env name t body place) ∨ ∃ earlier g behind,
      store.bodyFaults env name t body place = earlier ++ g :: behind ∧ NoAbort earlier ∧
      g.kind.isTerminal = true ∧ store.Raises env t body place g behind := by
  cases body with
  | host code => exact Or.inl (List.forall_mem_nil _)
  | fields raws =>
    unfold bodyFaults
    dsimp only
    split
    · rw [fieldValues_faults]
      refine (exists_first_abort _ raws).imp_right ?_
      rintro ⟨before, field, after, g, rfl, found, terminal, calm⟩
      refine ⟨_, g, _, ?_, calm, terminal, .field rfl found⟩
      rw [List.filterMap_append, List.filterMap_cons_some found]
    · cases result :
        (store.construct name t (store.fieldValues env place raws).value.1 place).value with
      | ok c => exact Or.inl (List.forall_mem_nil _)
      | error faults =>
        refine (construct_cut result).imp_right ?_
        rintro ⟨schema, g, alike, known, halt, ⟨terminal, earlier, rfl, calm⟩, cut⟩
        exact ⟨earlier, g, [], rfl, calm, terminal, .validation rfl rfl known halt cut⟩

/-- A binding is constructed if its type is known. -/
private def bindTyped (store : Store) (env : Env) (types : NameMap Ty) (lets : Location)
    (p : Progress) (b : String × BindingEntry) : Logged Progress :=
  match types.get? b.1 with
  | none => pure p
  | some t => store.bindOne env p b.1 t b.2.body (lets.child b.1)

private theorem bindEach_cons {types : NameMap Ty} {lets : Location} {p : Progress}
    (running : p.aborted = false) (b : String × BindingEntry)
    (more : List (String × BindingEntry)) :
    store.bindEach env types lets p (b :: more) =
      store.bindTyped env types lets p b >>= fun p => store.bindEach env types lets p more := by
  rw [bindEach, if_neg (by simp [running])]
  unfold bindTyped
  cases types.get? b.1 <;> rfl

private theorem bindTyped_cut (store : Store) (env : Env) (types : NameMap Ty) (lets : Location)
    {p : Progress} (running : p.aborted = false) (calm : NoAbort p.faults)
    (b : String × BindingEntry) :
    let next := store.bindTyped env types lets p b
    next.value.aborted = false ∧ NoAbort next.value.faults ∨
      next.value.aborted = true ∧ ∃ t earlier g behind, types.get? b.1 = some t ∧
        store.Raises env t b.2.body (lets.child b.1) g behind ∧
        next.value.faults = earlier ++ g :: behind ∧ NoAbort earlier ∧
        g.kind.isTerminal = true := by
  intro next
  cases typed : types.get? b.1 with
  | none =>
    have skipped : next = pure p := by
      simp only [next, bindTyped, typed]
    rw [skipped]
    exact Or.inl ⟨running, calm⟩
  | some t =>
    have made : next = store.bindOne env p b.1 t b.2.body (lets.child b.1) := by
      simp only [next, bindTyped, typed]
    obtain ⟨faults, raised⟩ := store.bindOne_faults env p b.1 t b.2.body (lets.child b.1)
    rw [← made] at faults raised
    rw [running, Bool.false_or] at raised
    rcases store.bodyFaults_cut env b.1 t b.2.body (lets.child b.1) with
      none | ⟨earlier, g, behind, own, before, terminal, raises⟩
    · have further : next.value.aborted = false := by
        rw [raised, List.any_eq_false]
        intro d member
        rw [none d member]
        exact Bool.false_ne_true
      exact Or.inl ⟨further, faults ▸ calm.append none⟩
    · have aborted : next.value.aborted = true := by
        rw [raised, List.any_eq_true]
        exact ⟨g, own ▸ List.mem_append_right earlier List.mem_cons_self, terminal⟩
      refine Or.inr ⟨aborted, t, p.faults ++ earlier, g, behind, rfl, raises, ?_,
        calm.append before, terminal⟩
      rw [List.append_assoc, ← own]
      exact faults

/-- Bindings are constructed up to one that raises an abort, and no body behind it is looked at. -/
theorem bindEach_cut (store : Store) (env : Env) (types : NameMap Ty) (lets : Location)
    {p : Progress} (running : p.aborted = false) (calm : NoAbort p.faults)
    (bindings : List (String × BindingEntry)) :
    let run := store.bindEach env types lets p
    (run bindings).value.aborted = false ∧ NoAbort (run bindings).value.faults ∨
      (run bindings).value.aborted = true ∧ ∃ before b after t earlier g behind,
        bindings = before ++ b :: after ∧ types.get? b.1 = some t ∧
        store.Raises env t b.2.body (lets.child b.1) g behind ∧
        (run bindings).value.faults = earlier ++ g :: behind ∧ NoAbort earlier ∧
        g.kind.isTerminal = true ∧ ∀ after', run (before ++ b :: after') = run bindings := by
  induction bindings generalizing p with
  | nil => exact Or.inl ⟨running, calm⟩
  | cons b rest ih =>
    intro run
    let next := store.bindTyped env types lets p b
    have step (more : List (String × BindingEntry)) :
        run (b :: more) = next >>= fun p => store.bindEach env types lets p more :=
      bindEach_cons running b more
    rcases store.bindTyped_cut env types lets running calm b with
      ⟨further, none⟩ | ⟨aborted, t, earlier, g, behind, typed, raises, faults, before, terminal⟩
    · have value : (run (b :: rest)).value =
          (store.bindEach env types lets next.value rest).value := by
        rw [step]
        rfl
      rw [value]
      refine (ih further none).imp_right ?_
      rintro ⟨aborted, before, b', after, t, earlier, g, behind, rfl, typed, raises, faults, calm,
        terminal, cut⟩
      refine ⟨aborted, b :: before, b', after, t, earlier, g, behind, rfl, typed, raises, faults,
        calm, terminal, fun after' => ?_⟩
      rw [List.cons_append, step, step]
      exact Logged.bind_congr_value (cut after')
    · -- The binding itself raises the abort.
      have halted (more : List (String × BindingEntry)) : run (b :: more) = next := by
        rw [step]
        refine Logged.bind_eq_self ?_
        cases more with
        | nil => rfl
        | cons => rw [bindEach, if_pos aborted]
      rw [halted]
      exact Or.inr ⟨aborted, [], b, rest, t, earlier, g, behind, rfl, typed, raises, faults, before,
        terminal, halted⟩

/-! ### The whole document -/

private theorem bind_eq_error {α β : Type} {x : Except ErrorKind α} {f : α → Except ErrorKind β}
    {kind : ErrorKind} (failed : x >>= f = .error kind) :
    x = .error kind ∨ ∃ a, f a = .error kind := by
  cases x with
  | error e =>
    cases failed
    exact Or.inl rfl
  | ok a => exact Or.inr ⟨a, failed⟩

private theorem mapError_eq_error {ε α : Type} {x : Except ε α} {f : ε → ErrorKind}
    {kind : ErrorKind} (failed : x.mapError f = .error kind) : ∃ e, f e = kind := by
  cases x with
  | error e => exact ⟨e, Except.error.inj failed⟩
  | ok a => cases failed

/-- A type has no meaning where it cannot be parsed, where a name in it cannot be resolved, and where
arguments are missing or too many. -/
theorem bindingTy_kind {scope : ModuleScope} {written : String} {kind : ErrorKind}
    (failed : store.bindingTy scope written = .error kind) :
    (∃ source reason, kind = .invalidExpression source reason) ∨
      (∃ e : ResolveError, kind = e.toKind) ∨ ∃ reason, kind = .invalidDeclaration reason := by
  unfold bindingTy at failed
  rcases bind_eq_error failed with here | ⟨parsed, failed⟩
  · obtain ⟨e, rfl⟩ := mapError_eq_error here
    exact Or.inl ⟨_, _, rfl⟩
  · rcases bind_eq_error failed with here | ⟨t, failed⟩
    · obtain ⟨e, rfl⟩ := mapError_eq_error here
      exact Or.inr (Or.inl ⟨e, rfl⟩)
    · split at failed
      · split at failed
        · rcases bind_eq_error failed with here | ⟨args, never⟩
          · obtain ⟨e, rfl⟩ := mapError_eq_error here
            exact Or.inr (Or.inr ⟨e, rfl⟩)
          · cases never
        · cases failed
      · cases failed

theorem bindingTypes_kind {scope : ModuleScope} {lets : Location}
    {bindings : List (String × BindingEntry)} :
    ∀ d ∈ (store.bindingTypes scope lets bindings).2,
      (∃ source reason, d.kind = .invalidExpression source reason) ∨
        (∃ e : ResolveError, d.kind = e.toKind) ∨ ∃ reason, d.kind = .invalidDeclaration reason := by
  intro d member
  obtain ⟨r, listed, found⟩ := List.mem_filterMap.mp member
  obtain ⟨b, -, rfl⟩ := List.mem_map.mp listed
  dsimp only at found
  split at found
  · cases found
  · rename_i kind failed
    cases found
    exact bindingTy_kind failed

theorem noAbort_bindingTypes (scope : ModuleScope) (lets : Location)
    (bindings : List (String × BindingEntry)) :
    NoAbort (store.bindingTypes scope lets bindings).2 := by
  intro d member
  rcases bindingTypes_kind d member with ⟨source, reason, kind⟩ | ⟨e, kind⟩ | ⟨reason, kind⟩ <;>
    rw [kind]
  · rfl
  · cases e <;> rfl
  · rfl

/-- Without an abort among the bindings, there is none in the document. -/
theorem noAbort_planIn {scope : ModuleScope} {d : Document}
    (calm : NoAbort (store.progressIn scope d).value.faults) :
    NoAbort (faultsIn (store.planIn d scope).value) := by
  obtain ⟨piped, ordered, all, own, kinds⟩ := store.faultsIn_planIn scope d
  rw [all]
  refine calm.append (NoAbort.append (fun f member => (own f member).2) fun f member => ?_)
  rcases kinds f member with ⟨names, kind⟩ | ⟨name, rfl⟩
  · rw [kind]
    rfl
  · rfl

/-- Behind a field whose abort is reported, no further field of its binding is at fault. -/
def AbortsLast (store : Store) (d : Document) : Prop :=
  ∀ scope, store.scope? d.module = some scope → ∀ b ∈ d.bindings, ∀ before field after,
    b.2.body = .fields (before ++ field :: after) → ∀ g ∈ store.bindingFaults d,
      store.fieldFault? (store.envIn scope d) ((d.location.child "let").child b.1) field = some g →
        g.kind.isTerminal = true → after.filterMap
          (store.fieldFault? (store.envIn scope d) ((d.location.child "let").child b.1)) = []

/-- No field of the document raises an abort. -/
theorem abortsLast_of_noAbort {d : Document}
    (calm : ∀ scope, store.scope? d.module = some scope → ∀ b ∈ d.bindings, ∀ raws,
      b.2.body = .fields raws → NoAbort (raws.filterMap
        (store.fieldFault? (store.envIn scope d) ((d.location.child "let").child b.1)))) :
    store.AbortsLast d := by
  intro scope inScope b member before field after body g _ found terminal
  have inside : g ∈ (before ++ field :: after).filterMap
      (store.fieldFault? (store.envIn scope d) ((d.location.child "let").child b.1)) :=
    List.mem_filterMap.mpr ⟨field, List.mem_append_right before List.mem_cons_self, found⟩
  have minor := calm scope inScope b member _ body g inside
  exact absurd terminal (by simp [minor])

/-- A document whose bindings have the same names and types, up to one from which on bodies and
pipes may differ, is bound as far as this one in the same way. -/
private theorem progressIn_congr {scope : ModuleScope} {d : Document} (d' : Document)
    (module : d'.module = d.module) (location : d'.location = d.location)
    (named : d'.bindings.map (fun b => (b.1, b.2.ty)) = d.bindings.map fun b => (b.1, b.2.ty))
    (cut : store.bindEach (store.envIn scope d) (store.typesIn scope d) (d.location.child "let")
        (store.enteredIn scope d) d'.bindings = store.progressIn scope d) :
    store.progressIn scope d' = store.progressIn scope d := by
  have names : d'.bindings.map (·.1) = d.bindings.map (·.1) := by
    have first := congrArg (List.map Prod.fst) named
    simpa only [List.map_map, Function.comp_def] using first
  have types : store.bindingTypes scope (d.location.child "let") d'.bindings =
      store.bindingTypes scope (d.location.child "let") d.bindings := bindingTypes_congr named
  rw [← cut]
  unfold progressIn enteredIn envIn typesIn
  rw [location, types, names, module]

theorem plan_eq_planIn {scope : ModuleScope} {d : Document} (main : d.kind = .main)
    (inScope : store.scope? d.module = some scope) : store.plan d = store.planIn d scope := by
  unfold plan
  rw [if_neg (by simp [main]), inScope]

/-- Only a pipeline in a known scope can raise an abort. -/
private theorem exists_scope_of_abort {d : Document} {f : Diagnostic}
    (raised : f ∈ faultsIn (store.plan d).value) (terminal : f.kind.isTerminal = true) :
    d.kind = .main ∧ ∃ scope, store.scope? d.module = some scope := by
  unfold plan at raised
  split at raised
  · obtain rfl := List.mem_singleton.mp raised
    cases terminal
  · rename_i main
    refine ⟨not_not.mp main, ?_⟩
    split at raised
    · obtain rfl := List.mem_singleton.mp raised
      cases terminal
    · rename_i scope inScope
      exact ⟨scope, inScope⟩

/-- **An abort stops a document at once**, unless a field has raised it and faults of further fields
of its binding follow. The abort is the last fault that is reported, and the only one. The binding
that has raised it, in a field or in a default or check at which the validation is given up, is the
last one that is looked at: with other bodies for those behind it and with other pipes, the same
comes of the document and the same is reported on the way. -/
theorem abort_stops (store : Store) (d : Document) {f : Diagnostic}
    (raised : f ∈ store.bindingFaults d) (terminal : f.kind.isTerminal = true)
    (last : store.AbortsLast d) :
    AbortedBy (store.bindingFaults d) f ∧
      ∃ scope before b after t, store.scope? d.module = some scope ∧
        d.bindings = before ++ b :: after ∧ (store.typesIn scope d).get? b.1 = some t ∧
        store.Raises (store.envIn scope d) t b.2.body ((d.location.child "let").child b.1) f [] ∧
        ∀ after' pipes, after'.map (fun b => (b.1, b.2.ty)) = after.map (fun b => (b.1, b.2.ty)) →
          store.plan { d with bindings := before ++ b :: after', pipes := pipes } = store.plan d := by
  have planned := store.bindingFaults_eq d
  rw [planned] at raised
  obtain ⟨main, scope, inScope⟩ := exists_scope_of_abort raised terminal
  rw [plan_eq_planIn main inScope] at planned raised
  have entered : NoAbort (store.enteredIn scope d).faults :=
    store.noAbort_bindingTypes scope (d.location.child "let") d.bindings
  rcases store.bindEach_cut (store.envIn scope d) (store.typesIn scope d) (d.location.child "let")
    (p := store.enteredIn scope d) rfl entered d.bindings with
    ⟨-, calm⟩ | ⟨aborted, before, b, after, t, earlier, g, behind, split, typed, raises,
      faults, calm, grave, cut⟩
  · exact absurd terminal (by simp [noAbort_planIn calm f raised])
  · have reported : store.bindingFaults d = earlier ++ g :: behind := by
      rw [planned, planIn_of_aborted aborted]
      exact faults
    have none : behind = [] := by
      cases raises with
      | field body found =>
        refine last scope inScope b ?_ _ _ _ body g ?_ found grave
        · exact split ▸ List.mem_append_right before List.mem_cons_self
        · exact reported ▸ List.mem_append_right earlier List.mem_cons_self
      | validation => rfl
    subst none
    have ends : AbortedBy (store.bindingFaults d) g := ⟨grave, earlier, reported, calm⟩
    obtain rfl : f = g := ends.eq_of_mem (planned ▸ raised) terminal
    refine ⟨ends, scope, before, b, after, t, inScope, split, typed, raises, ?_⟩
    intro after' pipes same
    have named : (before ++ b :: after').map (fun b => (b.1, b.2.ty)) =
        d.bindings.map fun b => (b.1, b.2.ty) := by
      rw [split, List.map_append, List.map_append, List.map_cons, List.map_cons, same]
    have progress := progressIn_congr (d := d)
      { d with bindings := before ++ b :: after', pipes := pipes } rfl rfl named (cut after')
    rw [plan_eq_planIn (d := { d with bindings := before ++ b :: after', pipes := pipes }) main
      inScope, plan_eq_planIn main inScope, planIn_of_aborted aborted,
      planIn_of_aborted (progress ▸ aborted), progress]

/-- The store of lines with a limit for the sink, which its check takes to be there. -/
def limitStore : Store :=
  { linesStore with
    impls := linesStore.impls ++ [⟨2, "std", "std", [⟨"T", .type, none⟩],
      .std "Option" [.param "T"], none, [], [],
      [⟨⟨"unwrap", .const, true, [], .param "T"⟩, .external⟩], false, .declared⟩]
    schemas := [("io::Table", ⟨"io::Table", some .sink, "io", "io", [],
      [⟨"inputs", .std "Vec" [.named "io::Lines" []], none, [], none⟩,
       ⟨"limit", .std "Option" [.std "u8" []], none,
        [⟨⟨"self.unwrap() > 1", .binary .gt (.method .self "unwrap" [] false) (.lit (.int 1))⟩,
          none, none⟩], none⟩], [], []⟩)] }

/-- A pipeline with three bindings at fault, where the check of the second raises an abort, and with
a pipe that is at fault as well. -/
def limitDocument : Document :=
  { linesDocument with
    bindings := [("lines", ⟨"Lines", .fields []⟩),
      ("table", ⟨"Table", .fields [("limit", .str "None"), ("inputs", .seq [])]⟩),
      ("rows", ⟨"Table", .fields [("inputs", .str "nowhere")]⟩)]
    pipes := ["rows"] }

/-- What is reported of the first binding stands before the abort, and nothing stands behind it. -/
theorem abort_stops_limit :
    limitStore.AbortsLast limitDocument ∧
      (limitStore.bindingFaults limitDocument).map Diagnostic.text =
        ["main: let.lines.type: invalid declaration: 'io::Lines' has no parameters to bind; " ++
            "construct it with host code",
          "main: let.table.limit: aborted: called 'unwrap' on a 'None' value"] ∧
      ∃ f ∈ limitStore.bindingFaults limitDocument, f.kind.isTerminal = true ∧
        AbortedBy (limitStore.bindingFaults limitDocument) f := by
  have last : limitStore.AbortsLast limitDocument := by
    refine abortsLast_of_noAbort fun scope inScope b member raws body => ?_
    cases inScope
    have some_of_three : b = ("lines", ⟨"Lines", .fields []⟩) ∨
        b = ("table", ⟨"Table", .fields [("limit", .str "None"), ("inputs", .seq [])]⟩) ∨
        b = ("rows", ⟨"Table", .fields [("inputs", .str "nowhere")]⟩) := by
      simpa [limitDocument] using member
    rcases some_of_three with rfl | rfl | rfl <;> cases body <;> unfold NoAbort <;> decide +kernel
  have reported : ∃ f ∈ limitStore.bindingFaults limitDocument, f.kind.isTerminal = true := by
    decide +kernel
  obtain ⟨f, raised, terminal⟩ := reported
  exact ⟨last, by decide +kernel, f, raised, terminal, (abort_stops _ _ raised terminal last).1⟩

/-- A pipeline with one binding, two fields of which raise an abort. -/
def unwrapsDocument : Document :=
  { linesDocument with
    bindings := [("table", ⟨"Table",
      .fields [("limit", .str "None.unwrap()"), ("inputs", .str "None.unwrap()")]⟩)]
    pipes := [] }

/-- Both aborts are reported, so that none of them has stopped the document. -/
theorem two_aborts_reported :
    (limitStore.bindingFaults unwrapsDocument).map Diagnostic.text =
        ["main: let.table.limit: aborted: called 'unwrap' on a 'None' value",
          "main: let.table.inputs: aborted: called 'unwrap' on a 'None' value"] ∧
      ¬ ∃ f, AbortedBy (limitStore.bindingFaults unwrapsDocument) f := by
  refine ⟨by decide +kernel, ?_⟩
  rintro ⟨f, -, earlier, faults, calm⟩
  have first : ∃ g ∈ (limitStore.bindingFaults unwrapsDocument).dropLast,
      g.kind.isTerminal = true := by
    decide +kernel
  rw [faults, List.dropLast_concat] at first
  obtain ⟨g, member, terminal⟩ := first
  exact absurd terminal (by simp [calm g member])

end Pipeline.Store

import Pipeline.Proofs.Plan.Complete
import Pipeline.Proofs.Schema.Abort

/-!
# Bindings that do not affect one another

What is wrong with a binding stands below its own key, and is found from the types of the bindings
and from its own body alone. Only two things pass from one binding to another: an abort, after which
no further binding is looked at, and the cycles that their dependencies form.
-/

set_option autoImplicit false
set_option relaxedAutoImplicit false

namespace Pipeline

/-- True of the fault that a cycle of bindings is. -/
def ErrorKind.isCyclic : ErrorKind → Bool
  | cyclicBinding _ => true
  | _ => false

/-- The same document with another body for a binding, whose type is kept. -/
def Document.withBody (d : Document) (name : String) (body : BindingBody) : Document :=
  { d with bindings := d.bindings.map fun b => (b.1, if b.1 = name then ⟨b.2.ty, body⟩ else b.2) }

/-- The faults that a result consists of, if it does. -/
def faultsIn {α : Type} : Except (List Diagnostic) α → List Diagnostic
  | .ok _ => []
  | .error faults => faults

/-- True of a fault at a place or below it that is no cycle. -/
def Diagnostic.concerns (d : Diagnostic) (place : Location) : Bool :=
  decide (d.location.Under place) && !d.kind.isCyclic

namespace Store

/-- What is reported when a document is bound. -/
def bindingFaults (store : Store) (d : Document) : List Diagnostic :=
  faultsIn (store.bind d).value

/-- What is reported below the key of a binding, cycles apart. -/
def faultsOf (store : Store) (d : Document) (name : String) : List Diagnostic :=
  (store.bindingFaults d).filter (·.concerns ((d.location.child "let").child name))

/-- The faults of a binding of known type. -/
def bodyFaults (store : Store) (env : Env) (name : String) (t : Ty) (body : BindingBody)
    (place : Location) : List Diagnostic :=
  match body with
  | .host _ => []
  | .fields raws =>
    let fields := (store.fieldValues env place raws).value
    if !fields.2.2.isEmpty then fields.2.2
    else faultsIn (store.construct name t fields.1 place).value

/-- The faults of a written binding; one whose type is unknown is not looked at. -/
def entryFaults (store : Store) (env : Env) (types : NameMap Ty) (lets : Location)
    (b : String × BindingEntry) : List Diagnostic :=
  match types.get? b.1 with
  | none => []
  | some t => store.bodyFaults env b.1 t b.2.body (lets.child b.1)

variable {store : Store} {env : Env}

/-! ### Places of faults -/

/-- The fault of an expression in a field, or of what stands in the place of one. -/
structure FieldFault (place : Location) (d : Diagnostic) : Prop where
  under : d.location.Under place
  kind : (∃ source reason, d.kind = .invalidExpression source reason) ∨
    ∃ source e, d.kind = EvalError.toKind source e

theorem FieldFault.of_child {place : Location} {key : String} {d : Diagnostic}
    (fault : FieldFault (place.child key) d) : FieldFault place d :=
  ⟨fault.under.of_child, fault.kind⟩

private theorem andThen_eq_error {α β : Type} {x : FieldValue α} {f : α → Logged (FieldValue β)}
    {d : Diagnostic} (failed : (x.andThen f).value.value = .error d) :
    x.value = .error d ∨ ∃ a, (f a).value.value = .error d := by
  unfold FieldValue.andThen at failed
  split at failed
  · rename_i here
    cases failed
    exact Or.inl here
  · exact Or.inr ⟨_, failed⟩

private theorem itemValues_fault {place : Location} {items : List RawValue}
    (each : ∀ raw ∈ items, ∀ place d, (store.fieldValue env place raw).value.value = .error d →
      FieldFault place d)
    {i : Nat} {d : Diagnostic}
    (failed : (store.itemValues env place i items).value.value = .error d) :
    FieldFault place d := by
  induction items generalizing i with
  | nil => cases failed
  | cons raw rest ih =>
    rw [List.forall_mem_cons] at each
    simp only [itemValues, Logged.value_bind] at failed
    rcases andThen_eq_error failed with here | ⟨v, later⟩
    · exact (each.1 _ _ here).of_child
    · simp only [Logged.value_bind] at later
      rcases andThen_eq_error later with there | ⟨vs, never⟩
      · exact ih each.2 there
      · cases never

private theorem entryValues_fault {place : Location} {entries : List (RawValue × RawValue)}
    (each : ∀ e ∈ entries, ∀ place d, (store.fieldValue env place e.2).value.value = .error d →
      FieldFault place d)
    {d : Diagnostic} (failed : (store.entryValues env place entries).value.value = .error d) :
    FieldFault place d := by
  induction entries with
  | nil => cases failed
  | cons e rest ih =>
    obtain ⟨key, raw⟩ := e
    rw [List.forall_mem_cons] at each
    unfold entryValues at failed
    split at failed
    · simp only [Logged.value_bind] at failed
      rcases andThen_eq_error failed with here | ⟨v, later⟩
      · exact (each.1 _ _ here).of_child
      · simp only [Logged.value_bind] at later
        rcases andThen_eq_error later with there | ⟨vs, never⟩
        · exact ih each.2 there
        · cases never
    · cases failed
      exact ⟨.refl place, Or.inl ⟨_, _, rfl⟩⟩

/-- The fault of a field stands at the field or inside it. -/
theorem fieldValue_fault {place : Location} {raw : RawValue} {d : Diagnostic}
    (failed : (store.fieldValue env place raw).value.value = .error d) : FieldFault place d := by
  induction raw using RawValue.inductionOn generalizing place d with
  | str source =>
    unfold fieldValue expressionValue at failed
    split at failed
    · cases failed
      exact ⟨.refl place, Or.inl ⟨_, _, rfl⟩⟩
    · simp only [Logged.value_bind] at failed
      split at failed <;> cases failed
      exact ⟨.refl place, Or.inr ⟨_, _, rfl⟩⟩
  | seq items ih =>
    unfold fieldValue at failed
    simp only [Logged.value_bind] at failed
    rcases andThen_eq_error failed with here | ⟨vs, never⟩
    · exact itemValues_fault (fun raw member place d => ih raw member) here
    · cases never
  | map entries ih =>
    unfold fieldValue at failed
    simp only [Logged.value_bind] at failed
    rcases andThen_eq_error failed with here | ⟨fs, never⟩
    · exact entryValues_fault (fun e member place d => ih e member) here
    · cases never
  | tagged =>
    unfold fieldValue at failed
    cases failed
    exact ⟨.refl place, Or.inl ⟨_, _, rfl⟩⟩
  | null | bool | int | float =>
    unfold fieldValue at failed
    cases failed

theorem fieldValues_fault {place : Location} {raws : List (String × RawValue)} :
    ∀ d ∈ (store.fieldValues env place raws).value.2.2, FieldFault place d := by
  induction raws with
  | nil => simp [fieldValues]
  | cons f rest ih =>
    simp only [fieldValues, Logged.value_bind]
    cases found : (store.fieldValue env (place.child f.1) f.2).value.value with
    | ok v => exact ih
    | error d => exact List.forall_mem_cons.mpr ⟨(fieldValue_fault found).of_child, ih⟩

theorem location_referenceFault (consumer : String) (supplied : List (String × Value))
    (place : Location) (d : Diagnostic) :
    (referenceFault consumer supplied place d).location = d.location := by
  unfold referenceFault
  dsimp only
  repeat' split
  all_goals rfl

theorem construct_under {name : String} {t : Ty} {supplied : List (String × Value)}
    {place : Location} {faults : List Diagnostic}
    (failed : (store.construct name t supplied place).value = .error faults) :
    ∀ d ∈ faults, d.location.Under place := by
  have refined {own : List Diagnostic} (below : ∀ d ∈ own, d.location.Under place) :
      ∀ d ∈ own.map (referenceFault name supplied place), d.location.Under place := by
    intro d member
    obtain ⟨f, inside, rfl⟩ := List.mem_map.mp member
    exact location_referenceFault name supplied place f ▸ below f inside
  unfold construct at failed
  dsimp only at failed
  split at failed
  · simp only [Logged.value_bind] at failed
    split at failed <;> cases failed
    rename_i refused
    exact refined (validate_local refused)
  · split at failed
    · simp only [Logged.value_bind] at failed
      split at failed <;> cases failed
      rename_i refused
      exact refined fun f member => (validateRecord_misfits refused f member).under
    · cases failed
      exact List.forall_mem_singleton.mpr (Location.under_child place "type")

/-- What is wrong with a binding stands below its key. -/
theorem entryFaults_under {types : NameMap Ty} {lets : Location} {b : String × BindingEntry} :
    ∀ d ∈ store.entryFaults env types lets b, d.location.Under (lets.child b.1) := by
  unfold entryFaults
  split
  · simp
  · unfold bodyFaults
    split
    · simp
    · dsimp only
      split
      · exact fun d member => (fieldValues_fault d member).under
      · cases result : (store.construct _ _ _ _).value with
        | ok c => simp [faultsIn]
        | error faults => exact construct_under result

private theorem flows_fault {types : NameMap Ty} {place : Location} {input : Option Ty}
    {names : List String} {d : Diagnostic}
    (failed : (store.flows types place input names).value = .error d) :
    d.location = place ∧ d.kind.isTerminal = false := by
  induction names generalizing input with
  | nil => cases failed
  | cons producer rest ih =>
    unfold flows at failed
    split at failed
    · rename_i consumer more same
      cases same
      split at failed
      · simp only [Logged.value_bind] at failed
        split at failed
        · cases failed
          exact ⟨rfl, rfl⟩
        · rename_i item produced
          simp only [Logged.value_bind] at failed
          split at failed
          · simp only [Logged.value_bind, Logged.value_pure] at failed
            cases later : (store.flows types place (some item) (consumer :: more)).value <;>
              rw [later] at failed <;> cases failed
            exact ih later
          · cases failed
            exact ⟨rfl, rfl⟩
      · cases failed
    · cases failed

/-- What is wrong with a pipe stands at the pipe, and raises no abort. -/
theorem pipe_fault {types : NameMap Ty} {graph : BindingGraph} {place : Location} {written : String}
    {faults : List Diagnostic}
    (failed : (store.pipe types graph place written).value = .error faults) :
    ∀ d ∈ faults, d.location = place ∧ d.kind.isTerminal = false := by
  unfold pipe at failed
  dsimp only at failed
  split at failed
  · cases failed
    exact List.forall_mem_singleton.mpr ⟨rfl, rfl⟩
  · split at failed
    · cases failed
      intro d member
      obtain ⟨stage, -, rfl⟩ := List.mem_map.mp member
      exact ⟨rfl, rfl⟩
    · simp only [Logged.value_bind] at failed
      split at failed <;> cases failed
      rename_i refused
      exact List.forall_mem_singleton.mpr (flows_fault refused)

/-- The pipes add faults of their own to those of the bindings. -/
theorem bindPipes_faults (store : Store) (types : NameMap Ty) (place : Location) (p : Progress)
    (i : Nat) (pipes : List String) :
    ∃ faults, (store.bindPipes types place p i pipes).value.1.faults = p.faults ++ faults ∧
      ∀ d ∈ faults, d.location.Under place ∧ d.kind.isTerminal = false := by
  induction pipes generalizing p i with
  | nil => exact ⟨[], (List.append_nil _).symm, by simp⟩
  | cons written rest ih =>
    simp only [bindPipes, Logged.value_bind]
    split
    · rename_i own refused
      obtain ⟨later, same, below⟩ := ih (p.fail own) (i + 1)
      refine ⟨own ++ later, by rw [same, Progress.fail, List.append_assoc], fun d member => ?_⟩
      rcases List.mem_append.mp member with here | there
      · obtain ⟨location, calm⟩ := pipe_fault refused d here
        exact ⟨location ▸ Location.under_child place _, calm⟩
      · exact below d there
    · simp only [Logged.value_bind, Logged.value_pure]
      exact ih _ (i + 1)

/-! ### Faults of all bindings -/

theorem bindOne_faults (store : Store) (env : Env) (p : Progress) (name : String) (t : Ty)
    (body : BindingBody) (place : Location) :
    (store.bindOne env p name t body place).value.faults =
        p.faults ++ store.bodyFaults env name t body place ∧
      (store.bindOne env p name t body place).value.aborted =
        (p.aborted || (store.bodyFaults env name t body place).any (·.kind.isTerminal)) := by
  unfold bindOne bodyFaults
  split
  · simp
  · rename_i raws
    simp only [Logged.value_bind]
    obtain ⟨graph, made, -⟩ := p.foldl_dependOn name (store.fieldValues env place raws).value.2.1
    simp only [made]
    split
    · simp [Progress.fail]
    · simp only [Logged.value_bind]
      split <;> rename_i result <;> simp [Progress.fail, faultsIn, result]

/-- A binding that is looked at adds its faults, and no more is looked at if an abort is among
them. -/
theorem bindEach_step (store : Store) (env : Env) (types : NameMap Ty) (lets : Location)
    {p : Progress} (running : p.aborted = false) (b : String × BindingEntry) :
    ∃ next : Progress, next.faults = p.faults ++ store.entryFaults env types lets b ∧
      next.aborted = (store.entryFaults env types lets b).any (·.kind.isTerminal) ∧
      ∀ rest, (store.bindEach env types lets p (b :: rest)).value =
        (store.bindEach env types lets next rest).value := by
  cases typed : types.get? b.1 with
  | none =>
    refine ⟨p, ?_, ?_, fun rest => ?_⟩
    · simp [entryFaults, typed]
    · simp [entryFaults, typed, running]
    · simp only [bindEach, running, typed, Bool.false_eq_true, if_false]
  | some t =>
    obtain ⟨faults, aborted⟩ := store.bindOne_faults env p b.1 t b.2.body (lets.child b.1)
    refine ⟨(store.bindOne env p b.1 t b.2.body (lets.child b.1)).value, ?_, ?_, fun rest => ?_⟩
    · simpa only [entryFaults, typed] using faults
    · simpa only [entryFaults, typed, running, Bool.false_or] using aborted
    · simp only [bindEach, running, typed, Bool.false_eq_true, if_false, Logged.value_bind]

theorem bindEach_of_aborted {types : NameMap Ty} {lets : Location} {p : Progress}
    (aborted : p.aborted = true) (bindings : List (String × BindingEntry)) :
    (store.bindEach env types lets p bindings).value = p := by
  cases bindings with
  | nil => rfl
  | cons b rest =>
    rw [bindEach, if_pos aborted]
    rfl

/-- Up to an abort, the faults are those of the bindings, one after another. -/
theorem bindEach_faults {types : NameMap Ty} {lets : Location} {p : Progress}
    {bindings : List (String × BindingEntry)}
    (running : (store.bindEach env types lets p bindings).value.aborted = false) :
    (store.bindEach env types lets p bindings).value.faults =
      p.faults ++ bindings.flatMap (store.entryFaults env types lets) := by
  induction bindings generalizing p with
  | nil => simp [bindEach]
  | cons b rest ih =>
    cases before : p.aborted with
    | true =>
      rw [bindEach_of_aborted before, before] at running
      cases running
    | false =>
      obtain ⟨next, faults, -, step⟩ := bindEach_step store env types lets before b
      rw [step] at running ⊢
      rw [ih running, faults, List.flatMap_cons, List.append_assoc]

/-- Where a document is given up, the abort is among its faults. -/
theorem exists_terminal_of_aborted {types : NameMap Ty} {lets : Location} {p : Progress}
    {bindings : List (String × BindingEntry)}
    (known : p.aborted = true → ∃ f ∈ p.faults, f.kind.isTerminal = true)
    (aborted : (store.bindEach env types lets p bindings).value.aborted = true) :
    ∃ f ∈ (store.bindEach env types lets p bindings).value.faults, f.kind.isTerminal = true := by
  induction bindings generalizing p with
  | nil => exact known aborted
  | cons b rest ih =>
    cases before : p.aborted with
    | true =>
      rw [bindEach_of_aborted before]
      exact known before
    | false =>
      obtain ⟨next, faults, raised, step⟩ := bindEach_step store env types lets before b
      rw [step] at aborted ⊢
      refine ih (fun early => ?_) aborted
      rw [raised, List.any_eq_true] at early
      obtain ⟨f, member, terminal⟩ := early
      exact ⟨f, faults ▸ List.mem_append_right _ member, terminal⟩

theorem not_under_child (place : Location) (key : String) : ¬ place.Under (place.child key) := by
  intro under
  have shorter := under.2.length_le
  simp only [Location.child, List.length_append, List.length_singleton] at shorter
  omega

/-- A graph reports cycles, and dependencies that are no bindings beside these. -/
theorem graphFaults_kind {graph : BindingGraph} {lets : Location} :
    ∀ d ∈ graphFaults graph lets, (∃ names, d.kind = .cyclicBinding names) ∨
      ∃ name, d = ⟨lets, .unresolvedReference name⟩ := by
  have kinds : ∀ kind ∈ graph.faults, (∃ names, kind = .cyclicBinding names) ∨
      ∃ name, kind = .unresolvedReference name := by
    intro kind member
    unfold BindingGraph.faults at member
    split at member
    · obtain ⟨c, -, rfl⟩ := List.mem_map.mp member
      exact Or.inl ⟨c, rfl⟩
    · obtain ⟨name, -, rfl⟩ := List.mem_map.mp member
      exact Or.inr ⟨name, rfl⟩
  intro d member
  obtain ⟨kind, inside, rfl⟩ := List.mem_map.mp member
  split
  · exact Or.inl ⟨_, rfl⟩
  · refine (kinds kind inside).imp_right ?_
    rintro ⟨name, rfl⟩
    exact ⟨name, rfl⟩

/-! ### The whole document -/

theorem bindingFaults_eq (store : Store) (d : Document) :
    store.bindingFaults d = faultsIn (store.plan d).value := by
  unfold bindingFaults bind
  simp only [Logged.value_bind]
  cases (store.plan d).value <;> rfl

/-- The types that the bindings of a document are resolved to. -/
def typesIn (store : Store) (scope : ModuleScope) (d : Document) : NameMap Ty :=
  (store.bindingTypes scope (d.location.child "let") d.bindings).1

/-- What the fields of a document see. -/
def envIn (store : Store) (scope : ModuleScope) (d : Document) : Env :=
  bindingEnv d.module (d.bindings.map (·.1)) (store.typesIn scope d)

/-- What is known of a document before its bindings are constructed. -/
def enteredIn (store : Store) (scope : ModuleScope) (d : Document) : Progress where
  graph := (d.bindings.map (·.1)).foldl BindingGraph.addBinding .empty
  faults := (store.bindingTypes scope (d.location.child "let") d.bindings).2

/-- What is known of a document when its bindings have been constructed. -/
def progressIn (store : Store) (scope : ModuleScope) (d : Document) : Logged Progress :=
  store.bindEach (store.envIn scope d) (store.typesIn scope d) (d.location.child "let")
    (store.enteredIn scope d) d.bindings

/-- After an abort nothing more is done. -/
theorem planIn_of_aborted {scope : ModuleScope} {d : Document}
    (aborted : (store.progressIn scope d).value.aborted = true) :
    store.planIn d scope =
      store.progressIn scope d >>= fun p => pure (.error p.faults) := by
  change store.progressIn scope d >>= _ = _
  refine Logged.bind_congr_value ?_
  exact if_pos aborted

/-- The faults of a document are those of its bindings, followed by those of its pipes and those of
its graph. -/
theorem faultsIn_planIn (store : Store) (scope : ModuleScope) (d : Document) :
    ∃ piped ordered, faultsIn (store.planIn d scope).value =
        (store.progressIn scope d).value.faults ++ (piped ++ ordered) ∧
      (∀ f ∈ piped, f.location.Under (d.location.child "pipe") ∧ f.kind.isTerminal = false) ∧
      ∀ f ∈ ordered, (∃ names, f.kind = .cyclicBinding names) ∨
        ∃ name, f = ⟨d.location.child "let", .unresolvedReference name⟩ := by
  by_cases aborted : (store.progressIn scope d).value.aborted = true
  · rw [planIn_of_aborted aborted]
    exact ⟨[], [], (List.append_nil _).symm, List.forall_mem_nil _, List.forall_mem_nil _⟩
  · obtain ⟨piped, added, own⟩ := store.bindPipes_faults (store.typesIn scope d)
      (d.location.child "pipe") (store.progressIn scope d).value 0 d.pipes
    generalize planned : faultsIn (store.planIn d scope).value = faults
    change faultsIn (store.progressIn scope d >>= _).value = faults at planned
    rw [Logged.value_bind, if_neg aborted] at planned
    change faultsIn (store.bindPipes (store.typesIn scope d) (d.location.child "pipe")
      (store.progressIn scope d).value 0 d.pipes >>= _).value = faults at planned
    rw [Logged.value_bind] at planned
    dsimp only at planned
    rw [added] at planned
    split at planned
    · subst planned
      exact ⟨piped, _, List.append_assoc .., own, graphFaults_kind⟩
    · rename_i clear
      rw [Bool.not_eq_true, Bool.not_eq_false', List.isEmpty_iff, List.append_eq_nil_iff,
        List.append_eq_nil_iff] at clear
      rw [clear.1.1]
      split at planned <;> subst planned
      · exact ⟨[], _, rfl, List.forall_mem_nil _, List.forall_mem_singleton.mpr (Or.inl ⟨_, rfl⟩)⟩
      · exact ⟨[], [], rfl, List.forall_mem_nil _, List.forall_mem_nil _⟩

/-- The faults of a document are those of its bindings, each found on its own, and others that stand
elsewhere, unless an abort is among them. -/
theorem planIn_faults {d : Document} {scope : ModuleScope} {types : NameMap Ty}
    {faults : List Diagnostic}
    (read : store.bindingTypes scope (d.location.child "let") d.bindings = (types, faults)) :
    (∃ f ∈ faultsIn (store.planIn d scope).value, f.kind.isTerminal = true) ∨
      ∃ rest, faultsIn (store.planIn d scope).value =
          faults ++ d.bindings.flatMap (store.entryFaults
            (bindingEnv d.module (d.bindings.map (·.1)) types) types (d.location.child "let")) ++
            rest ∧
        ∀ name, ∀ f ∈ rest, f.kind.isCyclic = true ∨
          ¬ f.location.Under ((d.location.child "let").child name) := by
  have typing : store.typesIn scope d = types := congrArg Prod.fst read
  have entered : (store.enteredIn scope d).faults = faults := congrArg Prod.snd read
  obtain ⟨piped, ordered, all, below, kinds⟩ := store.faultsIn_planIn scope d
  rw [all]
  by_cases aborted : (store.progressIn scope d).value.aborted = true
  · obtain ⟨f, member, terminal⟩ :=
      exists_terminal_of_aborted (fun raised => absurd raised Bool.false_ne_true) aborted
    exact Or.inl ⟨f, List.mem_append_left _ member, terminal⟩
  · have own : (store.progressIn scope d).value.faults = (store.enteredIn scope d).faults ++
        d.bindings.flatMap (store.entryFaults (store.envIn scope d) (store.typesIn scope d)
          (d.location.child "let")) := bindEach_faults (Bool.not_eq_true _ ▸ aborted)
    rw [entered, envIn, typing] at own
    refine Or.inr ⟨piped ++ ordered, by rw [own], fun name f member => ?_⟩
    rcases List.mem_append.mp member with inPipe | inGraph
    · exact Or.inr fun under => absurd ((below f inPipe).1.key_eq under.of_child) (by decide)
    · rcases kinds f inGraph with ⟨names, kind⟩ | ⟨missing, rfl⟩
      · exact Or.inl (by rw [kind]; rfl)
      · exact Or.inr (not_under_child _ name)

/-- What is left of the faults of many things, if only some of them have any that are left. -/
private theorem filter_flatMap_of_silent {α : Type} {f : α → List Diagnostic} {own : α → Bool}
    {left : Diagnostic → Bool} {xs : List α}
    (silent : ∀ a ∈ xs, own a = false → (f a).filter left = []) :
    (xs.flatMap f).filter left = ((xs.filter own).flatMap f).filter left := by
  induction xs with
  | nil => rfl
  | cons a rest ih =>
    rw [List.forall_mem_cons] at silent
    rw [List.flatMap_cons, List.filter_append, ih silent.2, List.filter_cons]
    cases mine : own a with
    | true => rw [if_pos rfl, List.flatMap_cons, List.filter_append]
    | false => rw [if_neg Bool.false_ne_true, silent.1 mine, List.nil_append]

/-- Without an abort, the faults of a binding are those of its type and those of its own body. -/
theorem faultsOf_eq {d : Document} {scope : ModuleScope} {types : NameMap Ty}
    {faults : List Diagnostic} (name : String) (main : d.kind = .main)
    (inScope : store.scope? d.module = some scope)
    (read : store.bindingTypes scope (d.location.child "let") d.bindings = (types, faults))
    (running : ∀ f ∈ store.bindingFaults d, f.kind.isTerminal = false) :
    store.faultsOf d name =
      (faults ++ (d.bindings.filter (·.1 = name)).flatMap (store.entryFaults
        (bindingEnv d.module (d.bindings.map (·.1)) types) types (d.location.child "let"))).filter
        (·.concerns ((d.location.child "let").child name)) := by
  have planned := store.bindingFaults_eq d
  unfold plan at planned
  rw [if_neg (by simp [main]), inScope] at planned
  simp only at planned
  unfold faultsOf
  rw [planned] at running ⊢
  rcases planIn_faults read with ⟨f, member, terminal⟩ | ⟨rest, all, apart⟩
  · exact absurd terminal (by simp [running f member])
  · have outside : rest.filter (·.concerns ((d.location.child "let").child name)) = [] := by
      refine List.filter_eq_nil_iff.mpr fun f member => ?_
      rcases apart name f member with cyclic | elsewhere
      · simp [Diagnostic.concerns, cyclic]
      · simp [Diagnostic.concerns, elsewhere]
    rw [all, List.filter_append, outside, List.append_nil, List.filter_append, List.filter_append]
    refine congrArg _ (filter_flatMap_of_silent fun b _ other => ?_)
    refine List.filter_eq_nil_iff.mpr fun f member => ?_
    have elsewhere : ¬ f.location.Under ((d.location.child "let").child name) := fun under =>
      of_decide_eq_false other ((entryFaults_under f member).key_eq under)
    simp [Diagnostic.concerns, elsewhere]

/-- The types of bindings do not depend on their bodies. -/
theorem bindingTypes_congr {scope : ModuleScope} {lets : Location}
    {bindings bindings' : List (String × BindingEntry)}
    (same : bindings'.map (fun b => (b.1, b.2.ty)) = bindings.map fun b => (b.1, b.2.ty)) :
    store.bindingTypes scope lets bindings' = store.bindingTypes scope lets bindings := by
  have read (bindings : List (String × BindingEntry)) :
      bindings.map (fun b => (b.1, store.bindingTy scope b.2.ty)) =
        (bindings.map fun b => (b.1, b.2.ty)).map fun b => (b.1, store.bindingTy scope b.2) := by
    rw [List.map_map]
    rfl
  unfold bindingTypes
  rw [read, read, same]

theorem bindingTypes_withBody (scope : ModuleScope) (lets : Location) (d : Document)
    (name : String) (body : BindingBody) :
    store.bindingTypes scope lets (d.withBody name body).bindings =
      store.bindingTypes scope lets d.bindings := by
  refine bindingTypes_congr ?_
  unfold Document.withBody
  rw [List.map_map]
  refine List.map_congr_left fun b _ => ?_
  dsimp only [Function.comp_apply]
  split <;> rfl

/-- The other bindings are kept as they are. -/
theorem filter_withBody (d : Document) {x y : String} (other : x ≠ y) (body : BindingBody) :
    (d.withBody y body).bindings.filter (·.1 = x) = d.bindings.filter (·.1 = x) := by
  unfold Document.withBody
  rw [List.filter_map]
  refine (List.map_congr_left fun b member => ?_).trans (List.map_id _)
  have named : b.1 = x := by simpa using (List.mem_filter.mp member).2
  rw [if_neg (named ▸ other)]
  rfl

/-- **The bindings of a document are diagnosed independently.** Whatever other body a binding is
given, what is reported below the key of every other one is the same, cycles apart, as long as no
abort is reported. -/
theorem faultsOf_withBody (store : Store) (d : Document) {x y : String} (other : x ≠ y)
    (body : BindingBody) (running : ∀ f ∈ store.bindingFaults d, f.kind.isTerminal = false)
    (running' : ∀ f ∈ store.bindingFaults (d.withBody y body), f.kind.isTerminal = false) :
    store.faultsOf (d.withBody y body) x = store.faultsOf d x := by
  have unread (same : store.plan (d.withBody y body) = store.plan d) :
      store.faultsOf (d.withBody y body) x = store.faultsOf d x := by
    unfold faultsOf
    rw [bindingFaults_eq, bindingFaults_eq, same]
    rfl
  by_cases main : d.kind = .main
  · cases inScope : store.scope? d.module with
    | none =>
      refine unread ?_
      unfold plan
      rw [inScope, show store.scope? (d.withBody y body).module = none from inScope]
      rfl
    | some scope =>
      rcases read : store.bindingTypes scope (d.location.child "let") d.bindings with
        ⟨types, faults⟩
      have read' := (bindingTypes_withBody scope (d.location.child "let") d y body).trans read
      have names : (d.withBody y body).bindings.map (·.1) = d.bindings.map (·.1) := by
        simp [Document.withBody, Function.comp_def]
      rw [faultsOf_eq x main inScope read running,
        faultsOf_eq (d := d.withBody y body) x main inScope read' running', names,
        filter_withBody d other]
      rfl
  · refine unread ?_
    unfold plan
    rw [if_pos main, if_pos (show ¬ (d.withBody y body).kind = .main from main)]
    rfl

/-- A pipeline in which both bindings are at fault, one of them for a name that is not there. -/
def rowsDocument : Document :=
  { linesDocument with
    bindings := [("table", ⟨"Table", .fields [("inputs", .seq [.str "lines", .str "rows"])]⟩),
      ("lines", ⟨"Lines", .fields []⟩)] }

/-- What is reported of the sink stays when the source is made by the host. -/
theorem rowsDocument_faults :
    (linesStore.bindingFaults rowsDocument).map Diagnostic.text =
        ["main: let.table.inputs.1: unresolved reference 'rows'",
          "main: let.lines.type: invalid declaration: 'io::Lines' has no parameters to bind; " ++
            "construct it with host code"] ∧
      (linesStore.bindingFaults (rowsDocument.withBody "lines" (.host "stdin()"))).map
          Diagnostic.text = ["main: let.table.inputs.1: unresolved reference 'rows'"] ∧
      linesStore.faultsOf (rowsDocument.withBody "lines" (.host "stdin()")) "table" =
        linesStore.faultsOf rowsDocument "table" ∧
      (linesStore.faultsOf rowsDocument "table").map Diagnostic.text =
        ["main: let.table.inputs.1: unresolved reference 'rows'"] := by
  have running : ∀ f ∈ linesStore.bindingFaults rowsDocument, f.kind.isTerminal = false := by
    decide +kernel
  have running' : ∀ f ∈ linesStore.bindingFaults (rowsDocument.withBody "lines" (.host "stdin()")),
      f.kind.isTerminal = false := by
    decide +kernel
  exact ⟨by decide +kernel, by decide +kernel,
    faultsOf_withBody linesStore rowsDocument (by decide) _ running running', by decide +kernel⟩

end Store
end Pipeline

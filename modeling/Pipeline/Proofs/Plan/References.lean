import Pipeline.Proofs.Plan.Abort
import Pipeline.Store.Load

/-!
# References that do not fit

A field of a binding may hold another binding. Where this one does not fit, the mismatch is reported
as a fault of the pipeline that names both, if the reference is the value of the field itself. One
inside a nested record is left a mismatch of types, since only the places of the fields are compared
with that of the fault. On the other hand a check without truth value is taken for a reference that
does not fit, where it stands at a field that holds a binding.
-/

set_option autoImplicit false
set_option relaxedAutoImplicit false

namespace Pipeline

/-- True of the fault of one binding that cannot feed another. -/
def ErrorKind.isPipelineTypeError : ErrorKind → Bool
  | pipelineTypeError _ _ _ => true
  | _ => false

namespace Store

/-- Giving a value a type at a place ends with a fault. -/
def Refuses (store : Store) (v : Value) (t : Ty) (place : Location) (d : Diagnostic) : Prop :=
  ∃ faults, (store.conform v t place).value = .error faults ∧ d ∈ faults

/-- A value of an expected type mentions a binding that does not fit: it is a reference to it
itself, or a record with a field that mentions it. The last argument is the mismatch. -/
inductive UnfitRef (store : Store) (binding : String) :
    Value → Ty → Location → Diagnostic → Prop
  | here {u t : Ty} {place : Location} {expected found : String} :
      store.Refuses (.ref binding u) t place ⟨place, .typeMismatch expected found⟩ →
      UnfitRef store binding (.ref binding u) t place ⟨place, .typeMismatch expected found⟩
  | inside {fields : List (String × Value)} {t : Ty} {place : Location} {decl : TypeDecl}
      {p : Param} {v : Value} {d : Diagnostic} :
      store.structOf? (store.normalize t) = some decl →
      p ∈ ((Schema.ofStruct decl).instantiate (store.normalize t).args).params →
      fields.find? (·.1 == p.name) = some (p.name, v) →
      UnfitRef store binding v p.ty (place.child p.name) d →
      UnfitRef store binding (.record .infer fields) t place d

/-- The fields of a binding of a type are refused: those of a component by its schema, those of a
struct by the schema of its fields. -/
inductive Invalid (store : Store) (t : Ty) (supplied : List (String × Value)) (place : Location) :
    Schema → List Diagnostic → Prop
  | component {schema : Schema} {faults : List Diagnostic} :
      t.path?.bind store.schema? = some schema →
      (store.validate (schema.instantiate t.args) supplied place).value = .error faults →
      Invalid store t supplied place (schema.instantiate t.args) faults
  | record {decl : TypeDecl} {faults : List Diagnostic} :
      t.path?.bind store.schema? = none → (store.structOf? t).isSome = true →
      store.structOf? (store.normalize t) = some decl →
      (store.validateRecord supplied t place).value = .error faults →
      Invalid store t supplied place
        ((Schema.ofStruct decl).instantiate (store.normalize t).args) faults

/-- A binding whose fields have values and are refused when its document is bound. -/
structure Rejection (store : Store) (d : Document) where
  scope : ModuleScope
  before : List (String × BindingEntry)
  name : String
  entry : BindingEntry
  after : List (String × BindingEntry)
  ty : Ty
  raws : List (String × RawValue)
  supplied : List (String × Value)
  schema : Schema
  /-- What the validation of the fields reports. -/
  faults : List Diagnostic
  main : d.kind = .main
  inScope : store.scope? d.module = some scope
  listed : d.bindings = before ++ (name, entry) :: after
  /-- No binding before it raises an abort, after which none is looked at. -/
  reached : NoAbort (before.flatMap
    (store.entryFaults (store.envIn scope d) (store.typesIn scope d) (d.location.child "let")))
  typed : (store.typesIn scope d).get? name = some ty
  body : entry.body = .fields raws
  values : (store.fieldValues (store.envIn scope d) ((d.location.child "let").child name)
    raws).value.1 = supplied
  valued : (store.fieldValues (store.envIn scope d) ((d.location.child "let").child name)
    raws).value.2.2 = []
  invalid : store.Invalid ty supplied ((d.location.child "let").child name) schema faults

/-- The place of the binding. -/
def Rejection.place {store : Store} {d : Document} (r : store.Rejection d) : Location :=
  (d.location.child "let").child r.name

/-- Why a mismatch stands at a field that has a value: the value is a reference that does not fit,
or another value that does not fit as a whole, or a check has no truth value. Checks on all fields
together stand at the place of a field of the name `checks`. -/
inductive FieldMismatch (store : Store) (schema : Schema) (place : Location) (name : String)
    (v : Value) (d : Diagnostic) : Prop
  | reference {p : Param} {binding : String} {u : Ty} : p ∈ schema.params → p.name = name →
      v = .ref binding u → store.UnfitRef binding v p.ty (place.child name) d →
      FieldMismatch store schema place name v d
  | whole {p : Param} : p ∈ schema.params → p.name = name → (∀ binding u, v ≠ .ref binding u) →
      store.Refuses v p.ty (place.child name) d → FieldMismatch store schema place name v d
  | check {p : Param} {w : Value} {via : Option Conversion} {c : Check} : p ∈ schema.params →
      p.name = name → (store.conform v p.ty (place.child name)).value = .ok (w, via) →
      c ∈ p.checks →
      (store.check c (paramEnv schema.module name w) (place.child name)).value = .error d →
      FieldMismatch store schema place name v d
  | cross {c : Check} {env : Env} : name = "checks" → c ∈ schema.checks →
      (store.check c env (place.child name)).value = .error d →
      FieldMismatch store schema place name v d

variable {store : Store} {env : Env}

/-! ### Places -/

theorem child_injective (place : Location) {key other : String}
    (same : place.child key = place.child other) : key = other :=
  (Location.Under.refl (place.child key)).key_eq (same ▸ .refl _)

/-- What stands below a key of a place does not stand at the place. -/
theorem ne_of_under_child {l place : Location} {key : String} (under : l.Under (place.child key)) :
    l ≠ place := by
  rintro rfl
  exact not_under_child _ key under

theorem UnfitRef.under {binding : String} {v : Value} {t : Ty} {place : Location} {d : Diagnostic}
    (unfit : store.UnfitRef binding v t place d) : d.location.Under place := by
  induction unfit with
  | here => exact .refl _
  | inside _ _ _ _ ih => exact ih.of_child

/-! ### The faults of one binding -/

theorem find?_place (supplied : List (String × Value)) (place : Location) (name : String) :
    supplied.find? (fun s => decide (place.child name = place.child s.1)) =
      supplied.find? (·.1 == name) := by
  refine congrArg (List.find? · supplied) (funext fun s => ?_)
  rw [Bool.eq_iff_iff, decide_eq_true_iff, beq_iff_eq]
  exact ⟨fun same => (child_injective place same).symm, fun same => same ▸ rfl⟩

/-- At a field that holds bindings a mismatch becomes a fault of the pipeline. -/
theorem referenceFault_field (consumer : String) {supplied : List (String × Value)}
    (place : Location) (expected found : String) {name : String} {v : Value}
    (given : supplied.find? (·.1 == name) = some (name, v)) (refs : v.refs ≠ []) :
    referenceFault consumer supplied place ⟨place.child name, .typeMismatch expected found⟩ =
      ⟨place.child name,
        .pipelineTypeError (Text.join ", " v.refs) consumer (.mismatch expected found)⟩ := by
  simp only [referenceFault, find?_place, given, List.isEmpty_iff, if_neg refs]

/-- Everywhere else a fault stays what it is. -/
theorem referenceFault_cases (consumer : String) (supplied : List (String × Value))
    (place : Location) (d : Diagnostic) :
    referenceFault consumer supplied place d = d ∨
      ∃ name v expected found, supplied.find? (·.1 == name) = some (name, v) ∧ v.refs ≠ [] ∧
        d = ⟨place.child name, .typeMismatch expected found⟩ := by
  by_cases changed : referenceFault consumer supplied place d = d
  · exact Or.inl changed
  · right
    obtain ⟨location, kind⟩ := d
    unfold referenceFault at changed
    cases kind with
    | typeMismatch expected found =>
      dsimp only at changed
      split at changed
      · rename_i name v given
        have there : location = place.child name := by simpa using List.find?_some given
        subst there
        rw [find?_place] at given
        exact ⟨name, v, expected, found, given, fun none => changed (by simp [none]), rfl⟩
      · exact absurd rfl changed
    | _ => exact absurd rfl changed

theorem referenceFault_elsewhere (consumer : String) (supplied : List (String × Value))
    {place : Location} {d : Diagnostic} (elsewhere : ∀ name, d.location ≠ place.child name) :
    referenceFault consumer supplied place d = d := by
  refine (referenceFault_cases consumer supplied place d).resolve_right ?_
  rintro ⟨name, v, expected, found, -, -, rfl⟩
  exact elsewhere name rfl

theorem Invalid.construct {t : Ty} {supplied : List (String × Value)} {place : Location}
    {schema : Schema} {faults : List Diagnostic} (invalid : store.Invalid t supplied place schema faults)
    (name : String) : (store.construct name t supplied place).value =
      .error (faults.map (referenceFault name supplied place)) := by
  cases invalid with
  | component known refused =>
    simp only [Store.construct, known, Logged.value_bind, refused]
    rfl
  | record unknown struct decl refused =>
    simp only [Store.construct, unknown, struct, if_true, Logged.value_bind, refused]
    rfl

/-- Where a binding cannot be constructed and a fault of the pipeline is reported, its fields are
refused. -/
theorem construct_refused {name : String} {t : Ty} {supplied : List (String × Value)}
    {place : Location} {faults : List Diagnostic}
    (failed : (store.construct name t supplied place).value = .error faults) :
    (∃ schema own, store.Invalid t supplied place schema own ∧
        faults = own.map (referenceFault name supplied place)) ∨
      ∀ d ∈ faults, d.kind.isPipelineTypeError = false := by
  unfold Store.construct at failed
  dsimp only at failed
  split at failed
  · rename_i schema known
    simp only [Logged.value_bind] at failed
    split at failed <;> cases failed
    rename_i own refused
    exact Or.inl ⟨_, own, .component known refused, rfl⟩
  · rename_i unknown
    split at failed
    · rename_i struct
      simp only [Logged.value_bind] at failed
      split at failed <;> cases failed
      rename_i own refused
      cases declared : store.structOf? (store.normalize t) with
      | some decl => exact Or.inl ⟨_, own, .record unknown struct declared refused, rfl⟩
      | none =>
        right
        have whole : (store.validateRecord supplied t place).value =
            .error [mismatch place (store.normalize t) "record"] := by
          simp only [validateRecord, recordOf, declared, Logged.value_bind]
          rfl
        obtain rfl := Except.error.inj (refused.symm.trans whole)
        refine List.forall_mem_singleton.mpr ?_
        rw [referenceFault_elsewhere name supplied fun key =>
          (ne_of_under_child (.refl (place.child key))).symm]
        rfl
    · cases failed
      exact Or.inr (List.forall_mem_singleton.mpr rfl)

/-! ### Causes -/

theorem isPipelineTypeError_toKind (source : String) (e : EvalError) :
    (e.toKind source).isPipelineTypeError = false := by
  cases e <;> rfl

theorem Misfit.isPipelineTypeError {place : Location} {d : Diagnostic} (misfit : Misfit place d) :
    d.kind.isPipelineTypeError = false := by
  induction misfit with
  | inside _ ih => exact ih
  | _ => rfl

theorem isPipelineTypeError_check {c : Check} {place : Location} {d : Diagnostic}
    (failed : (store.check c env place).value = .error d) : d.kind.isPipelineTypeError = false := by
  unfold check at failed
  simp only [Logged.value_bind] at failed
  split at failed
  · cases failed
  · cases failed
  · split at failed <;> cases failed
    rfl
  · cases failed
    exact isPipelineTypeError_toKind _ _

theorem CheckFault.isPipelineTypeError {place : Location} {violation : String → ErrorKind}
    (plain : ∀ source, (violation source).isPipelineTypeError = false) {c : Check} {d : Diagnostic}
    (fault : store.CheckFault env place violation c d) : d.kind.isPipelineTypeError = false := by
  cases fault with
  | stuck failed => exact isPipelineTypeError_check failed
  | violated => exact plain c.source

/-- A validation reports no fault of the pipeline. -/
theorem ValidationFault.isPipelineTypeError {schema : Schema} {supplied : List (String × Value)}
    {base : Location} {d : Diagnostic}
    (fault : store.ValidationFault schema (store.conformFields supplied) base d) :
    d.kind.isPipelineTypeError = false := by
  cases fault with
  | unknown => rfl
  | cross _ cause => exact cause.isPipelineTypeError fun _ => rfl
  | @param p _ _ cause =>
    cases cause with
    | missing => rfl
    | valueless => exact isPipelineTypeError_toKind _ _
    | check _ _ _ cause => exact cause.isPipelineTypeError fun _ => rfl
    | unfit supplies refused member =>
      refine Misfit.isPipelineTypeError (?_ : Misfit (base.child p.name) d)
      cases supplied : givenFor (store.conformFields supplied) p with
      | none =>
        rw [supplied] at supplies
        cases supplies
        exact conformPlain_misfits _ _ _ _ refused d member
      | some conform =>
        rw [supplied] at supplies
        cases supplies
        rw [givenFor_conformFields] at supplied
        obtain ⟨f, -, rfl⟩ := Option.map_eq_some_iff.mp supplied
        exact conform_misfits f.2 _ _ _ refused d member

/-- Why the validation of the fields of a binding reports a fault; the fields of a struct that are
not public are refused before. -/
theorem Invalid.cause {t : Ty} {supplied : List (String × Value)} {place : Location}
    {schema : Schema} {faults : List Diagnostic}
    (invalid : store.Invalid t supplied place schema faults) {d : Diagnostic} (member : d ∈ faults) :
    store.ValidationFault schema (store.conformFields supplied) place d ∨
      ∃ reason, d.kind = .invalidDeclaration reason := by
  cases invalid with
  | component _ refused => exact Or.inl (mem_faults_validateWith refused member)
  | record _ _ declared refused =>
    have refused : (store.recordOf (store.conformFields supplied) (store.normalize t) place).value =
        .error faults := refused
    simp only [recordOf, declared] at refused
    split at refused
    · cases refused
      obtain ⟨g, -, rfl⟩ := List.mem_map.mp member
      exact Or.inr ⟨_, rfl⟩
    · simp only [Logged.value_bind] at refused
      split at refused <;> cases refused
      rename_i failed
      exact Or.inl (mem_faults_validateWith failed member)

theorem Invalid.isPipelineTypeError {t : Ty} {supplied : List (String × Value)} {place : Location}
    {schema : Schema} {faults : List Diagnostic}
    (invalid : store.Invalid t supplied place schema faults) :
    ∀ d ∈ faults, d.kind.isPipelineTypeError = false := by
  intro d member
  rcases invalid.cause member with fault | ⟨reason, kind⟩
  · exact fault.isPipelineTypeError
  · rw [kind]
    rfl

/-- A mismatch at a field with a value comes of this value or of a check. -/
theorem Invalid.fieldMismatch {t : Ty} {supplied : List (String × Value)} {place : Location}
    {schema : Schema} {faults : List Diagnostic}
    (invalid : store.Invalid t supplied place schema faults) {name expected found : String}
    {v : Value} (given : supplied.find? (·.1 == name) = some (name, v))
    (member : ⟨place.child name, .typeMismatch expected found⟩ ∈ faults) :
    store.FieldMismatch schema place name v ⟨place.child name, .typeMismatch expected found⟩ := by
  generalize same : (⟨place.child name, .typeMismatch expected found⟩ : Diagnostic) = d at member ⊢
  have location : d.location = place.child name := same ▸ rfl
  have kind : d.kind = .typeMismatch expected found := same ▸ rfl
  rcases invalid.cause member with fault | ⟨reason, other⟩
  · cases fault with
    | unknown => cases kind
    | @param p _ listed cause =>
      have named : p.name = name := by
        refine (cause.under fun c inside => ?_).key_eq (location ▸ .refl _)
        rw [givenFor_conformFields] at inside
        obtain ⟨f, -, rfl⟩ := Option.map_eq_some_iff.mp inside
        exact (conform_misfits f.2).local
      subst named
      rw [givenFor_conformFields, given] at cause
      cases cause with
      | missing none => cases none
      | valueless none => cases none
      | unfit supplies refused inside =>
        cases supplies
        have refuses : store.Refuses v p.ty (place.child p.name) d := ⟨_, refused, inside⟩
        by_cases itself : ∃ binding u, v = .ref binding u
        · obtain ⟨binding, u, rfl⟩ := itself
          subst same
          exact .reference listed rfl rfl (.here refuses)
        · exact .whole listed rfl (fun binding u same => itself ⟨binding, u, same⟩) refuses
      | check supplies fits inside cause =>
        cases supplies
        cases cause with
        | stuck failed => exact .check listed rfl fits inside failed
        | violated => cases kind
    | cross listed cause =>
      have named : "checks" = name := child_injective place (cause.location.symm.trans location)
      subst named
      cases cause with
      | stuck failed => exact .cross rfl listed failed
      | violated => cases kind
  · cases kind.symm.trans other

/-! ### The faults of all bindings -/

/-- The faults of bindings are those of each that stands behind no abort. -/
theorem mem_faults_bindEach {types : NameMap Ty} {lets : Location} {p : Progress}
    (running : p.aborted = false) {bindings : List (String × BindingEntry)} {d : Diagnostic} :
    d ∈ (store.bindEach env types lets p bindings).value.faults ↔
      d ∈ p.faults ∨ ∃ before b after, bindings = before ++ b :: after ∧
        NoAbort (before.flatMap (store.entryFaults env types lets)) ∧
        d ∈ store.entryFaults env types lets b := by
  induction bindings generalizing p with
  | nil => simp [bindEach]
  | cons b rest ih =>
    obtain ⟨next, faults, aborted, step⟩ := bindEach_step store env types lets running b
    rw [step]
    have here (inside : d ∈ store.entryFaults env types lets b) :
        ∃ before b' after, b :: rest = before ++ b' :: after ∧
          NoAbort (before.flatMap (store.entryFaults env types lets)) ∧
          d ∈ store.entryFaults env types lets b' := ⟨[], b, rest, rfl, List.forall_mem_nil _, inside⟩
    cases raised : next.aborted with
    | true =>
      rw [bindEach_of_aborted raised, faults, List.mem_append]
      refine or_congr_right ⟨here, ?_⟩
      rintro ⟨before, b', after, split, calm, inside⟩
      cases before with
      | nil =>
        obtain ⟨rfl, -⟩ := List.cons.inj split
        exact inside
      | cons first before =>
        -- The abort is among the faults of the first binding.
        obtain ⟨rfl, -⟩ := List.cons.inj split
        rw [aborted, List.any_eq_true] at raised
        obtain ⟨f, among, terminal⟩ := raised
        have minor := calm f (List.mem_append_left _ among)
        exact absurd terminal (by simp [minor])
    | false =>
      rw [ih raised, faults, List.mem_append, or_assoc]
      have calm : NoAbort (store.entryFaults env types lets b) := by
        rw [aborted, List.any_eq_false] at raised
        exact fun f among => Bool.not_eq_true _ ▸ raised f among
      refine or_congr_right ⟨fun either => either.elim here ?_, ?_⟩
      · rintro ⟨before, b', after, rfl, later, inside⟩
        exact ⟨b :: before, b', after, rfl, calm.append later, inside⟩
      · rintro ⟨before, b', after, split, later, inside⟩
        cases before with
        | nil =>
          obtain ⟨rfl, -⟩ := List.cons.inj split
          exact Or.inl inside
        | cons first before =>
          obtain ⟨rfl, rfl⟩ := List.cons.inj split
          exact Or.inr ⟨before, b', after, rfl,
            fun f among => later f (List.mem_append_right _ among), inside⟩

theorem mem_faults_progressIn {scope : ModuleScope} {d : Document} {g : Diagnostic} :
    g ∈ (store.progressIn scope d).value.faults ↔
      g ∈ (store.bindingTypes scope (d.location.child "let") d.bindings).2 ∨
        ∃ before b after, d.bindings = before ++ b :: after ∧
          NoAbort (before.flatMap (store.entryFaults (store.envIn scope d) (store.typesIn scope d)
            (d.location.child "let"))) ∧
          g ∈ store.entryFaults (store.envIn scope d) (store.typesIn scope d)
            (d.location.child "let") b :=
  mem_faults_bindEach (p := store.enteredIn scope d) rfl

/-- A fault of the pipeline at a binding comes of fields that are refused. -/
theorem exists_invalid_of_entry {types : NameMap Ty} {lets : Location} {name : String}
    {entry : BindingEntry} {d : Diagnostic}
    (member : d ∈ store.entryFaults env types lets (name, entry))
    (pipeline : d.kind.isPipelineTypeError = true) :
    ∃ t raws schema own, types.get? name = some t ∧ entry.body = .fields raws ∧
      (store.fieldValues env (lets.child name) raws).value.2.2 = [] ∧
      store.Invalid t (store.fieldValues env (lets.child name) raws).value.1 (lets.child name)
        schema own ∧
      d ∈ own.map (referenceFault name (store.fieldValues env (lets.child name) raws).value.1
        (lets.child name)) := by
  unfold entryFaults at member
  split at member
  · cases member
  · rename_i t typed
    unfold bodyFaults at member
    split at member
    · cases member
    · rename_i raws body
      dsimp only at member
      split at member
      · rcases (fieldValues_fault d member).kind with ⟨source, reason, kind⟩ | ⟨source, e, kind⟩
        · rw [kind] at pipeline
          cases pipeline
        · rw [kind, isPipelineTypeError_toKind] at pipeline
          cases pipeline
      · rename_i valued
        rw [Bool.not_eq_true, Bool.not_eq_false', List.isEmpty_iff] at valued
        cases result : (store.construct name t
            (store.fieldValues env (lets.child name) raws).value.1 (lets.child name)).value with
        | ok c =>
          rw [result] at member
          cases member
        | error faults =>
          rw [result] at member
          rcases construct_refused result with ⟨schema, own, invalid, rfl⟩ | none
          · exact ⟨t, raws, schema, own, typed, body, valued, invalid, member⟩
          · exact absurd pipeline (by simp [none d member])

/-! ### The whole document -/

namespace Rejection

variable {d : Document}

theorem entryFaults_eq (r : store.Rejection d) :
    store.entryFaults (store.envIn r.scope d) (store.typesIn r.scope d) (d.location.child "let")
        (r.name, r.entry) = r.faults.map (referenceFault r.name r.supplied r.place) := by
  have refused := r.invalid.construct r.name
  simp only [entryFaults, r.typed, bodyFaults, r.body, r.valued, r.values, List.isEmpty_nil,
    Bool.not_true, Bool.false_eq_true, if_false, refused, faultsIn]
  rfl

/-- What the validation of the fields reports is reported of the document, mismatches at fields that
hold bindings as faults of the pipeline. -/
theorem reported (r : store.Rejection d) {m : Diagnostic} (member : m ∈ r.faults) :
    referenceFault r.name r.supplied r.place m ∈ store.bindingFaults d := by
  obtain ⟨piped, ordered, all, -⟩ := store.faultsIn_planIn r.scope d
  rw [bindingFaults_eq, plan_eq_planIn r.main r.inScope, all]
  refine List.mem_append_left _ (mem_faults_progressIn.mpr (Or.inr ?_))
  refine ⟨r.before, (r.name, r.entry), r.after, r.listed, r.reached, ?_⟩
  rw [r.entryFaults_eq]
  exact List.mem_map_of_mem member

end Rejection

/-- A fault of the pipeline among the bindings is that of a binding whose fields are refused. -/
theorem exists_rejection {d : Document} {g : Diagnostic} (reported : g ∈ store.bindingFaults d)
    (pipeline : g.kind.isPipelineTypeError = true)
    (among : g.location.Under (d.location.child "let")) :
    ∃ r : store.Rejection d, g ∈ r.faults.map (referenceFault r.name r.supplied r.place) := by
  rw [bindingFaults_eq, plan] at reported
  split at reported
  · obtain rfl := List.mem_singleton.mp reported
    cases pipeline
  · rename_i main
    split at reported
    · obtain rfl := List.mem_singleton.mp reported
      cases pipeline
    · rename_i scope inScope
      obtain ⟨piped, ordered, all, below, kinds⟩ := store.faultsIn_planIn scope d
      rw [all] at reported
      rcases List.mem_append.mp reported with bound | rest
      · rcases mem_faults_progressIn.mp bound with typing | ⟨before, b, after, listed, reached, own⟩
        · rcases bindingTypes_kind g typing with ⟨source, reason, kind⟩ | ⟨e, kind⟩ | ⟨reason, kind⟩ <;>
            rw [kind] at pipeline
          · cases pipeline
          · cases e <;> cases pipeline
          · cases pipeline
        · obtain ⟨name, entry⟩ := b
          obtain ⟨t, raws, schema, faults, typed, body, valued, invalid, member⟩ :=
            exists_invalid_of_entry own pipeline
          exact ⟨⟨scope, before, name, entry, after, t, raws, _, schema, faults, not_not.mp main,
            inScope, listed, reached, typed, body, rfl, valued, invalid⟩, member⟩
      · rcases List.mem_append.mp rest with inPipe | inGraph
        · exact absurd ((below g inPipe).1.key_eq among) (by decide)
        · rcases kinds g inGraph with ⟨names, kind⟩ | ⟨name, rfl⟩
          · rw [kind] at pipeline
            cases pipeline
          · cases pipeline

/-- A fault of the pipeline is what became of a mismatch at a field that holds bindings. -/
structure Rejection.Turned {d : Document} (r : store.Rejection d) (name : String) (v : Value)
    (expected found : String) (g : Diagnostic) : Prop where
  given : r.supplied.find? (·.1 == name) = some (name, v)
  refs : v.refs ≠ []
  fault : g = ⟨r.place.child name,
    .pipelineTypeError (Text.join ", " v.refs) r.name (.mismatch expected found)⟩
  mismatch : ⟨r.place.child name, .typeMismatch expected found⟩ ∈ r.faults
  cause : store.FieldMismatch r.schema r.place name v
    ⟨r.place.child name, .typeMismatch expected found⟩

/-- No other fault is turned into one of the pipeline. -/
theorem exists_turned {d : Document} {g : Diagnostic} (reported : g ∈ store.bindingFaults d)
    (pipeline : g.kind.isPipelineTypeError = true)
    (among : g.location.Under (d.location.child "let")) :
    ∃ (r : store.Rejection d) (name : String) (v : Value) (expected found : String),
      r.Turned name v expected found g := by
  obtain ⟨r, member⟩ := exists_rejection reported pipeline among
  obtain ⟨m, inside, rfl⟩ := List.mem_map.mp member
  rcases referenceFault_cases r.name r.supplied r.place m with
    same | ⟨name, v, expected, found, given, refs, rfl⟩
  · rw [same, r.invalid.isPipelineTypeError m inside] at pipeline
    cases pipeline
  · exact ⟨r, name, v, expected, found, given, refs, referenceFault_field _ _ _ _ given refs, inside,
      r.invalid.fieldMismatch given inside⟩

theorem UnfitRef.nested {binding : String} {v : Value} {t : Ty} {place : Location} {m : Diagnostic}
    (unfit : store.UnfitRef binding v t place m) (other : ∀ u, v ≠ .ref binding u) :
    ∃ key, m.location.Under (place.child key) := by
  cases unfit with
  | here => exact absurd rfl (other _)
  | inside _ _ _ inner => exact ⟨_, inner.under⟩

/-- **A reference that does not fit is a fault of the pipeline where it is the value of a field.**
Inside a nested record it is left a mismatch, and no fault of the pipeline is reported there. What is
turned into a fault of the pipeline is always a mismatch at the field of a binding whose value
mentions others, all of which are named: that of the value, or that of a check. -/
theorem misfit_reported (store : Store) (d : Document) :
    (∀ (r : store.Rejection d) (p : Param) (v : Value) (binding : String) (m : Diagnostic),
      p ∈ r.schema.params → r.supplied.find? (·.1 == p.name) = some (p.name, v) →
      store.UnfitRef binding v p.ty (r.place.child p.name) m → m ∈ r.faults →
        (∀ u, v = .ref binding u → ∃ expected found, m.kind = .typeMismatch expected found ∧
          ⟨m.location, .pipelineTypeError binding r.name (.mismatch expected found)⟩ ∈
            store.bindingFaults d) ∧
        ((∀ u, v ≠ .ref binding u) → m ∈ store.bindingFaults d ∧
          ∀ g ∈ store.bindingFaults d, g.location = m.location →
            g.kind.isPipelineTypeError = false)) ∧
    ∀ g ∈ store.bindingFaults d, g.kind.isPipelineTypeError = true →
      g.location.Under (d.location.child "let") →
        ∃ (r : store.Rejection d) (name : String) (v : Value) (expected found : String),
          r.Turned name v expected found g := by
  refine ⟨fun r p v binding m _ given unfit member => ⟨?_, fun other => ?_⟩,
    fun g reported pipeline among => exists_turned reported pipeline among⟩
  · rintro u rfl
    cases unfit with
    | @here _ _ _ expected found =>
      refine ⟨expected, found, rfl, ?_⟩
      have refs : (Value.ref binding u).refs = [binding] := rfl
      have turned := referenceFault_field r.name r.place expected found given (by rw [refs]; nofun)
      exact turned ▸ r.reported member
  · obtain ⟨key, below⟩ := unfit.nested other
    have elsewhere (name : String) : m.location ≠ r.place.child name := by
      intro same
      have length := below.2.length_le
      rw [same] at length
      simp only [Location.child, List.length_append, List.length_singleton] at length
      omega
    have kept := referenceFault_elsewhere r.name r.supplied elsewhere
    refine ⟨kept ▸ r.reported member, fun g reported there => Bool.eq_false_iff.mpr ?_⟩
    intro pipeline
    have among : g.location.Under (d.location.child "let") := there ▸ below.of_child.of_child.of_child
    obtain ⟨r', name, v', expected, found, turned⟩ := exists_turned reported pipeline among
    have length := (there ▸ below).2.length_le
    rw [turned.fault] at length
    simp only [Rejection.place, Location.child, List.length_append, List.length_singleton] at length
    omega

/-! ### A size that is taken for a point -/

/-- A document with lines, which start at points, and with paths along lines. -/
def outlines : Document where
  module := "shop"
  origin := "shop"
  version := supportedVersion
  kind := .struct
  types := [("Size", ⟨[], [("width", .short "u64")], [], none, none, none⟩),
    ("Point", ⟨[], [("x", .short "u64")], [], none, none, none⟩),
    ("Line", ⟨[], [("start", .short "Point")], [], none, none, none⟩),
    ("Path", ⟨[], [("line", .short "Line")], [], none, none, none⟩)]

/-- A sink with a size, of which nothing sensible is checked. -/
def board : Document where
  module := "board"
  origin := "board"
  version := supportedVersion
  kind := .sink
  uses := ["shop::Size"]
  input := some "u64"
  params := [("size", ⟨"Size", none, [⟨"1", none⟩], none⟩)]

/-- What is written for a path along a line that starts at a binding. -/
def alongLine (start : String) : List (String × RawValue) :=
  [("line", .map [(.str "start", .str start)])]

/-- A pipeline in which a line and a path start at a size, and a board is of this size. -/
def drawing : Document where
  module := "main"
  origin := "main"
  version := supportedVersion
  kind := .main
  uses := ["shop::Size", "shop::Line", "shop::Path", "board"]
  bindings := [("size", ⟨"Size", .fields [("width", .int 1)]⟩),
    ("line", ⟨"Line", .fields [("start", .str "size")]⟩),
    ("path", ⟨"Path", .fields (alongLine "size")⟩),
    ("board", ⟨"board", .fields [("size", .str "size")]⟩)]

/-- The reference in a field of a record whose type is open. -/
private def innerRef? : Value → Option (String × String × Ty)
  | .record .infer [(field, .ref binding t)] => some (field, binding, t)
  | _ => none

private theorem innerRef?_eq_some {v : Value} {field binding : String} {t : Ty}
    (found : innerRef? v = some (field, binding, t)) :
    v = .record .infer [(field, .ref binding t)] := by
  unfold innerRef? at found
  split at found <;> cases found
  rfl

private def isMismatch (place : Location) (expected found : String) (d : Diagnostic) : Prop :=
  d.location = place ∧
    match d.kind with
    | .typeMismatch e f => e = expected ∧ f = found
    | _ => False

private instance (place : Location) (expected found : String) (d : Diagnostic) :
    Decidable (isMismatch place expected found d) := by
  unfold isMismatch
  cases d.kind <;> infer_instance

private theorem isMismatch.eq {place : Location} {expected found : String} {d : Diagnostic}
    (same : isMismatch place expected found d) : d = ⟨place, .typeMismatch expected found⟩ := by
  obtain ⟨location, kind⟩ := d
  obtain ⟨rfl, same⟩ := same
  cases kind with
  | typeMismatch e f =>
    obtain ⟨rfl, rfl⟩ := same
    rfl
  | _ => cases same

private theorem eq_error_of_mem {α : Type} {r : Except (List Diagnostic) α} {d : Diagnostic}
    (member : d ∈ faultsIn r) : r = .error (faultsIn r) := by
  cases r with
  | ok a => cases member
  | error faults => rfl

/-- The fields of a struct as parameters. -/
private def fieldParams (s : Store) (decl : TypeDecl) (t : Ty) : List Param :=
  ((Schema.ofStruct decl).instantiate (s.normalize t).args).params

/-- The values of the fields of the path, with the faults in them. -/
private def pathFields (s : Store) (scope : ModuleScope) :
    List (String × Value) × List (List String) × List Diagnostic :=
  (s.fieldValues (s.envIn scope drawing) ((drawing.location.child "let").child "path")
    (alongLine "size")).value

/-- Where the size stands in the path. -/
def startPlace : Location :=
  (((drawing.location.child "let").child "path").child "line").child "start"

/-- What becomes of the path. -/
private def PathRefused (s : Store) (scope : ModuleScope) (t : Ty) (p q : Param) : Prop :=
  (∀ g ∈ (drawing.bindings.take 2).flatMap (s.entryFaults (s.envIn scope drawing)
      (s.typesIn scope drawing) (drawing.location.child "let")), g.kind.isTerminal = false) ∧
    (pathFields s scope).2.2.isEmpty = true ∧
    (t.path?.bind s.schema?).isNone = true ∧ (s.structOf? t).isSome = true ∧
    (∃ f ∈ (pathFields s scope).1.find? (·.1 == "line"), f.1 = "line" ∧
      innerRef? f.2 = some ("start", "size", .named "shop::Size" [])) ∧
    p.name = "line" ∧ q.name = "start" ∧
    (∃ g ∈ faultsIn (s.conform (.ref "size" (.named "shop::Size" [])) q.ty startPlace).value,
      isMismatch startPlace "shop::Point" "shop::Size" g) ∧
    ∃ g ∈ faultsIn (s.validateRecord (pathFields s scope).1 t
        ((drawing.location.child "let").child "path")).value,
      isMismatch startPlace "shop::Point" "shop::Size" g

private instance (s : Store) (scope : ModuleScope) (t : Ty) (p q : Param) :
    Decidable (PathRefused s scope t p q) :=
  inferInstanceAs (Decidable (_ ∧ _))

/-- What is reported of the pipeline. -/
private def DrawingReported (s : Store) : Prop :=
  (s.bindingFaults drawing).map Diagnostic.text =
      ["main: let.line.start: 'size' cannot feed 'line': expected 'shop::Point', found 'shop::Size'",
        "main: let.path.line.start: type mismatch: expected 'shop::Point', found 'shop::Size'",
        "main: let.board.size: 'size' cannot feed 'board': expected 'bool', found 'i64'"] ∧
    (∃ g ∈ s.bindingFaults drawing, g.kind.isPipelineTypeError = true ∧
      g.location.Under (drawing.location.child "let")) ∧
    ∀ g ∈ s.bindingFaults drawing, g.location = startPlace → g.kind.isPipelineTypeError = false

private instance (s : Store) : Decidable (DrawingReported s) := inferInstanceAs (Decidable (_ ∧ _))

private theorem drawing_load : ∃ s, (load [outlines, board, drawing] 4).value = .ok s ∧
    DrawingReported s ∧
    ∃ scope ∈ s.scope? "main", ∃ t ∈ (s.typesIn scope drawing).get? "path",
      ∃ decl ∈ s.structOf? (s.normalize t), ∃ p ∈ fieldParams s decl t,
        ∃ inner ∈ s.structOf? (s.normalize p.ty), ∃ q ∈ fieldParams s inner p.ty,
          PathRefused s scope t p q := by
  decide +kernel

/-- A path is refused because a size is no point, inside its line. -/
private theorem exists_refused_path : ∃ s, (load [outlines, board, drawing] 4).value = .ok s ∧
    DrawingReported s ∧ ∃ (r : s.Rejection drawing) (p : Param) (fields : List (String × Value))
      (m : Diagnostic), p ∈ r.schema.params ∧
        r.supplied.find? (·.1 == p.name) = some (p.name, .record .infer fields) ∧
        s.UnfitRef "size" (.record .infer fields) p.ty (r.place.child p.name) m ∧ m ∈ r.faults ∧
        m.location = startPlace := by
  obtain ⟨s, loaded, reported, scope, inScope, t, typed, decl, declared, p, listed, inner, within, q,
    held, calm, valued, unknown, struct, ⟨f, first, line, value⟩, named, start, refused, rejected⟩ :=
    drawing_load
  obtain ⟨g, unfit, same⟩ := refused
  obtain ⟨m, member, same'⟩ := rejected
  have record := innerRef?_eq_some value
  let r : s.Rejection drawing := {
    scope := scope
    before := drawing.bindings.take 2
    name := "path"
    entry := ⟨"Path", .fields (alongLine "size")⟩
    after := drawing.bindings.drop 3
    ty := t
    raws := alongLine "size"
    supplied := (pathFields s scope).1
    schema := (Schema.ofStruct decl).instantiate (s.normalize t).args
    faults := faultsIn (s.validateRecord (pathFields s scope).1 t
      ((drawing.location.child "let").child "path")).value
    main := rfl
    inScope := inScope
    listed := rfl
    reached := calm
    typed := typed
    body := rfl
    values := rfl
    valued := List.isEmpty_iff.mp valued
    invalid := .record (Option.isNone_iff_eq_none.mp unknown) struct declared
      (eq_error_of_mem member) }
  have inSchema : p ∈ r.schema.params := listed
  have inFaults : m ∈ r.faults := member
  have there : m.location = startPlace := same'.1
  refine ⟨s, loaded, reported, r, p, [("start", .ref "size" (.named "shop::Size" []))], m, inSchema,
    ?_, ?_, inFaults, there⟩
  · rw [named, ← record]
    exact first.trans (congrArg (fun name => some (name, f.2)) line)
  · have given : [("start", Value.ref "size" (.named "shop::Size" []))].find? (·.1 == q.name) =
        some (q.name, .ref "size" (.named "shop::Size" [])) := by
      rw [start]
      rfl
    refine .inside within held given ?_
    rw [named, start, same'.eq]
    exact .here ⟨_, eq_error_of_mem unfit, same.eq ▸ unfit⟩

/-- A line that starts at a size is a fault of the pipeline, and in the path along such a line the
same mismatch is kept. -/
theorem misfit_reported_drawing : ∃ s, (load [outlines, board, drawing] 4).value = .ok s ∧
    (∃ m ∈ s.bindingFaults drawing, m.location = startPlace) ∧
    ∃ (r : s.Rejection drawing) (name : String) (v : Value) (expected found : String)
      (g : Diagnostic), r.Turned name v expected found g := by
  obtain ⟨s, loaded, reported, r, p, fields, m, listed, given, unfit, member, there⟩ :=
    exists_refused_path
  obtain ⟨-, ⟨g, among, pipeline, under⟩, -⟩ := reported
  have kept := ((misfit_reported s drawing).1 r p _ "size" m listed given unfit member).2 nofun
  obtain ⟨r', name, v, expected, found, turned⟩ :=
    (misfit_reported s drawing).2 g among pipeline under
  exact ⟨s, loaded, ⟨m, kept.1, there⟩, r', name, v, expected, found, g, turned⟩

/-- A size inside the line of a path is refused for a point, and no fault of the pipeline is reported
there. One is reported of the size of a board instead, which is a size. -/
theorem nested_misfit_kept : ∃ s, (load [outlines, board, drawing] 4).value = .ok s ∧
    (∃ (r : s.Rejection drawing) (p : Param) (fields : List (String × Value)) (m : Diagnostic),
      p ∈ r.schema.params ∧
        r.supplied.find? (·.1 == p.name) = some (p.name, .record .infer fields) ∧
        s.UnfitRef "size" (.record .infer fields) p.ty (r.place.child p.name) m ∧ m ∈ r.faults ∧
        ∀ g ∈ s.bindingFaults drawing, g.location = m.location →
          g.kind.isPipelineTypeError = false) ∧
    (s.bindingFaults drawing).map Diagnostic.text =
      ["main: let.line.start: 'size' cannot feed 'line': expected 'shop::Point', found 'shop::Size'",
        "main: let.path.line.start: type mismatch: expected 'shop::Point', found 'shop::Size'",
        "main: let.board.size: 'size' cannot feed 'board': expected 'bool', found 'i64'"] := by
  obtain ⟨s, loaded, reported, r, p, fields, m, listed, given, unfit, member, there⟩ :=
    exists_refused_path
  exact ⟨s, loaded, ⟨r, p, fields, m, listed, given, unfit, member, there ▸ reported.2.2⟩,
    reported.1⟩

end Store
end Pipeline

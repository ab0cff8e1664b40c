import Pipeline.Proofs.Eval.Parts
import Pipeline.Proofs.Schema.Findings

/-!
# Conformance

What a validation makes of a value is described by a relation between the value supplied, the type
declared and the value made: a value is accepted as it is, put into an option or a wrapper, or, as a
record without a type, made a struct field by field.
-/

set_option autoImplicit false
set_option relaxedAutoImplicit false

namespace Pipeline

/-- The names of the public fields of a struct with their types under the arguments of a type. -/
def TypeDecl.publicFields (d : TypeDecl) (t : Ty) : List (String × Ty) :=
  (d.fields.filter (·.isPublic)).map fun f => (f.name, f.ty.substitute (d.substFor t))

namespace Store

/-- The value supplied for a field and what it is made. -/
structure MadeField where
  name : String
  ty : Ty
  given : Value
  made : Value

/-- A value supplied is made another one of the type declared. -/
inductive Conforms (store : Store) : Value → Ty → Value → Prop
  | accepted {v w : Value} {t : Ty} : v.isUntyped = false →
      (store.accept v (store.normalize t)).value = some w → Conforms store v t w
  | present {v w : Value} {t elem : Ty} : v.isUntyped = false →
      (store.accept v (store.normalize t)).value = none →
      (store.normalize t).path? = some Builtin.option →
      (store.normalize t).args.head? = some elem →
      Conforms store v elem w → Conforms store v t (.some w)
  | transparent {v w : Value} {t inner : Ty} : v.isUntyped = false →
      (store.accept v (store.normalize t)).value = none →
      (store.project (store.normalize t) Builtin.transparent Builtin.inner).value = some inner →
      (store.accept v inner).value = some w → Conforms store v t (.wrapped (store.normalize t) w)
  | from {v w : Value} {t source : Ty} : v.isUntyped = false →
      (store.accept v (store.normalize t)).value = none →
      store.ConvertsFrom (store.normalize t) source →
      (store.accept v source).value = some w → Conforms store v t (.wrapped (store.normalize t) w)
  | record {fields : List (String × Value)} {t inferred : Ty} {d : TypeDecl}
      {parts : List MadeField} : store.structOf? (store.normalize t) = some d →
      (∀ g ∈ fields, ∃ f ∈ d.fields, f.isPublic = true ∧ f.name = g.1) →
      parts.map (fun p => (p.name, p.ty)) = d.publicFields (store.normalize t) →
      (∀ p ∈ parts, (p.name, p.given) ∈ fields) →
      (∀ p ∈ parts, Conforms store p.given p.ty p.made) →
      inferred.path? = some d.path →
      Conforms store (.record .infer fields) t
        (.record (recordTy d (store.normalize t) inferred) (parts.map fun p => (p.name, p.made)))

variable {store : Store}

/-! ### Values with a type -/

theorem conformTo_conforms {depth : Nat} {v w : Value} {t : Ty} {place : Location}
    {via : Option Conversion} (typed : v.isUntyped = false)
    (found : (store.conformTo depth v t place).value = .ok (w, via)) : store.Conforms v t w := by
  induction depth generalizing t w via with
  | zero =>
    rcases conformBy_eq_ok found with accepted | ⟨refused, converts⟩
    · exact .accepted typed accepted
    · cases converts with
      | present path head inside => cases inside
      | transparent projected accepted => exact .transparent typed refused projected accepted
      | «from» converts accepted => exact .from typed refused converts accepted
  | succ depth ih =>
    rcases conformBy_eq_ok found with accepted | ⟨refused, converts⟩
    · exact .accepted typed accepted
    · cases converts with
      | @present elem w path head inside =>
        refine .present typed refused path head ?_
        simp only [Logged.value_bind, Logged.value_pure, Option.map_eq_some_iff] at inside
        obtain ⟨⟨w', via'⟩, made, rfl⟩ := inside
        cases result : (store.conformTo depth v elem place).value with
        | error faults => simp [result, Except.toOption] at made
        | ok conformed =>
          rw [result] at made
          cases made
          exact ih result
      | transparent projected accepted => exact .transparent typed refused projected accepted
      | «from» converts accepted => exact .from typed refused converts accepted

theorem conformPlain_conforms {v w : Value} {t : Ty} {place : Location}
    {via : Option Conversion} (typed : v.isUntyped = false)
    (found : (store.conformPlain v t place).value = .ok (w, via)) : store.Conforms v t w :=
  conformTo_conforms typed found

theorem conform_of_typed {v : Value} (typed : v.isUntyped = false) :
    store.conform v = store.conformPlain v := by
  cases v with
  | record t fields =>
    cases t with
    | infer => cases typed
    | _ => rfl
  | _ => rfl

/-! ### Records -/

theorem recordOf_grave (given : List (String × Conformer)) (t : Ty) (place : Location)
    (faults : List Diagnostic) (failed : (store.recordOf given t place).value = .error faults) :
    faults ≠ [] := by
  unfold recordOf at failed
  split at failed
  · cases failed
    simp
  · dsimp only at failed
    split at failed
    · rename_i hidden
      cases failed
      simpa using hidden
    · simp only [Logged.value_bind] at failed
      split at failed
      · rename_i refused
        cases failed
        exact validateWith_eq_error refused
      · cases failed

theorem conform_grave (v : Value) : Conformer.Grave (store.conform v) := by
  cases untyped : v.isUntyped with
  | false =>
    rw [conform_of_typed untyped]
    exact conformPlain_grave v
  | true =>
    cases v with
    | record t fields =>
      cases t with
      | infer =>
        intro t place faults failed
        simp only [conform, Logged.value_bind, Logged.value_pure] at failed
        cases result : (store.recordOf (store.conformFields fields) (store.normalize t) place).value
        · rw [result] at failed
          cases failed
          exact recordOf_grave _ _ _ _ result
        · rw [result] at failed
          cases failed
      | _ => cases untyped
    | _ => cases untyped

theorem conformFields_eq_map (fields : List (String × Value)) :
    store.conformFields fields = fields.map fun f => (f.1, store.conform f.2) := by
  induction fields with
  | nil => rfl
  | cons f rest ih => simp [conformFields, ih]

theorem conformFields_grave {fields : List (String × Value)} :
    ∀ g ∈ store.conformFields fields, g.2.Grave := by
  intro g member
  rw [conformFields_eq_map] at member
  obtain ⟨f, -, rfl⟩ := List.mem_map.mp member
  exact conform_grave f.2

/-- What is given for a parameter of the name of a field is what is supplied for the field. -/
theorem givenFor_conformFields {fields : List (String × Value)} {p : Param} :
    givenFor (store.conformFields fields) p =
      (fields.find? (·.1 == p.name)).map fun f => store.conform f.2 := by
  rw [conformFields_eq_map, givenFor]
  induction fields with
  | nil => rfl
  | cons f rest ih =>
    by_cases named : f.1 = p.name
    · simp [named]
    · simpa [named] using ih

private theorem exists_parts {schema : Schema} {fields : List (String × Value)} {base : Location}
    {params : List Param} {made : List ValidParam}
    (each : List.Forall₂ (store.Fulfills schema (store.conformFields fields) base) params made)
    (required : ∀ p ∈ params, p.default = none)
    (inside : ∀ f ∈ fields, ∀ t place w via, (store.conform f.2 t place).value = .ok (w, via) →
      store.Conforms f.2 t w) :
    ∃ parts : List MadeField,
      parts.map (fun p => (p.name, p.ty)) = params.map (fun p => (p.name, p.ty)) ∧
      (∀ p ∈ parts, (p.name, p.given) ∈ fields) ∧
      (∀ p ∈ parts, store.Conforms p.given p.ty p.made) ∧
      made.map (fun q => (q.name, q.value)) = parts.map fun p => (p.name, p.made) := by
  induction each with
  | nil => exact ⟨[], rfl, nofun, nofun, rfl⟩
  | @cons p q params made fulfills _ ih =>
    rw [List.forall_mem_cons] at required
    obtain ⟨parts, types, given, conforms, values⟩ := ih required.2
    obtain ⟨named, conform, via, supplies, conformed⟩ := fulfills
    rw [givenFor_conformFields] at supplies
    cases found : fields.find? (·.1 == p.name) with
    | none =>
      rw [found] at supplies
      cases supplies with
      | default declared => rw [required.1] at declared; cases declared
    | some f =>
      rw [found] at supplies
      cases supplies with
      | given =>
        have member := List.mem_of_find?_eq_some found
        have same : f.1 = p.name := by simpa using List.find?_some found
        refine ⟨⟨p.name, p.ty, f.2, q.value⟩ :: parts, by simp [types], ?_, ?_, by simp [named, values]⟩
        · rw [List.forall_mem_cons]
          exact ⟨same ▸ member, given⟩
        · rw [List.forall_mem_cons]
          exact ⟨inside f member _ _ _ _ conformed, conforms⟩

/-- The schema of a struct under the arguments of a type. -/
private theorem recordSchema_params (d : TypeDecl) (t : Ty) :
    ((Schema.ofStruct d).instantiate t.args).params =
      (d.fields.filter (·.isPublic)).map fun f =>
        ⟨f.name, f.ty.substitute (d.substFor t), none, [], f.explain⟩ := by
  simp [Schema.instantiate, Schema.ofStruct, TypeDecl.substFor]

/-- The fields of a struct have no defaults and no checks. -/
theorem recordSchema_plain (d : TypeDecl) (t : Ty) :
    ∀ p ∈ ((Schema.ofStruct d).instantiate t.args).params, p.default = none ∧ p.checks = [] := by
  intro p member
  rw [recordSchema_params] at member
  obtain ⟨f, -, rfl⟩ := List.mem_map.mp member
  exact ⟨rfl, rfl⟩

private theorem recordSchema_param {d : TypeDecl} {t : Ty} {name : String}
    (known : (((Schema.ofStruct d).instantiate t.args).param? name).isSome = true) :
    ∃ f ∈ d.fields, f.isPublic = true ∧ f.name = name := by
  obtain ⟨p, found⟩ := Option.isSome_iff_exists.mp known
  have member := List.mem_of_find?_eq_some found
  have named : p.name = name := by simpa using List.find?_some found
  rw [recordSchema_params, List.mem_map] at member
  obtain ⟨f, visible, rfl⟩ := member
  rw [List.mem_filter] at visible
  exact ⟨f, visible.1, visible.2, named⟩

private theorem recordOf_conforms {fields : List (String × Value)} {t : Ty} {place : Location}
    {w : Value}
    (inside : ∀ f ∈ fields, ∀ t place w via, (store.conform f.2 t place).value = .ok (w, via) →
      store.Conforms f.2 t w)
    (found : (store.recordOf (store.conformFields fields) (store.normalize t) place).value = .ok w) :
    store.Conforms (.record .infer fields) t w := by
  unfold recordOf at found
  split at found
  · cases found
  · rename_i d struct
    dsimp only at found
    split at found
    · cases found
    · simp only [Logged.value_bind] at found
      split at found
      · cases found
      · rename_i valid validated
        cases found
        obtain ⟨known, each, inferred⟩ := validateWith_eq_ok conformFields_grave validated
        have required : ∀ p ∈ ((Schema.ofStruct d).instantiate (store.normalize t).args).params,
            p.default = none := fun p member => (recordSchema_plain d _ p member).1
        obtain ⟨parts, types, given, conforms, values⟩ := exists_parts each required inside
        have made : valid.toSupplied = parts.map fun p => (p.name, p.made) := values
        rw [made]
        refine .record struct (fun g member => ?_) ?_ given conforms ?_
        · refine recordSchema_param (known (g.1, store.conform g.2) ?_)
          rw [conformFields_eq_map]
          exact List.mem_map.mpr ⟨g, member, rfl⟩
        · rw [types, recordSchema_params, List.map_map]
          rfl
        · rw [inferred]
          rfl

theorem conform_conforms {v w : Value} {t : Ty} {place : Location} {via : Option Conversion}
    (found : (store.conform v t place).value = .ok (w, via)) : store.Conforms v t w := by
  induction v using Value.inductionOn generalizing t w place via with
  | record u fields ih =>
    cases u with
    | infer =>
      simp only [conform, Logged.value_bind, Logged.value_pure] at found
      cases result : (store.recordOf (store.conformFields fields) (store.normalize t) place).value
      · rw [result] at found
        cases found
      · rw [result] at found
        cases found
        exact recordOf_conforms (fun f member t place w via => ih f member) result
    | _ => exact conformPlain_conforms rfl found
  | leaf v leaf =>
    have typed : v.isUntyped = false := by cases v <;> simp_all [Value.isLeaf, Value.isUntyped]
    rw [conform_of_typed typed] at found
    exact conformPlain_conforms typed found
  | _ => exact conformPlain_conforms rfl found

/-- Fields that are validated become a struct of the type declared. -/
theorem validateRecord_eq_ok {fields : List (String × Value)} {t : Ty} {base : Location}
    {w : Value} (found : (store.validateRecord fields t base).value = .ok w) :
    store.Conforms (.record .infer fields) t w :=
  recordOf_conforms (fun _ _ _ _ _ _ => conform_conforms) found

theorem validateRecord_eq_error {fields : List (String × Value)} {t : Ty} {base : Location}
    {faults : List Diagnostic}
    (failed : (store.validateRecord fields t base).value = .error faults) : faults ≠ [] :=
  recordOf_grave _ _ _ _ failed

/-! ### Schemas -/

/-- The value that is validated for a parameter: the one supplied, or that of the default. -/
inductive Given (store : Store) (schema : Schema) (supplied : List (String × Value)) (p : Param) :
    Value → Prop
  | supplied {name : String} {v : Value} :
      supplied.find? (·.1 == p.name) = some (name, v) → Given store schema supplied p v
  | default {s : Snippet} {v : Value} : supplied.find? (·.1 == p.name) = none →
      p.default = some s → Eval.outcome (store.eval { module := schema.module } s.expr) = .ok v →
      Given store schema supplied p v

/-- Outside of all surroundings there are no references and no records without a type. -/
theorem default_all {P : Value → Prop} (lenient : Value.Lenient P) {module : String} {e : Expr}
    {v : Value} (found : Eval.outcome (store.eval { module := module } e) = .ok v) :
    Value.All P v := by
  refine eval_all lenient (fun w same => ?_) (fun name _ w same => ?_) v found
  · cases same
  · cases same

theorem default_isTyped {module : String} {e : Expr} {v : Value}
    (found : Eval.outcome (store.eval { module := module } e) = .ok v) : v.isUntyped = false := by
  have lenient : Value.Lenient fun v => v.isUntyped = false := fun _ _ typed => typed
  exact (default_all lenient found).self

/-- A parameter has the value that a validation has made of the one given for it. -/
def Validated (store : Store) (schema : Schema) (supplied : List (String × Value)) (p : Param)
    (q : ValidParam) : Prop :=
  q.name = p.name ∧ ∃ v, store.Given schema supplied p v ∧ store.Conforms v p.ty q.value

theorem Fulfills.validated {schema : Schema} {supplied : List (String × Value)} {base : Location}
    {p : Param} {q : ValidParam}
    (fulfills : store.Fulfills schema (store.conformFields supplied) base p q) :
    store.Validated schema supplied p q := by
  obtain ⟨named, conform, via, supplies, conformed⟩ := fulfills
  rw [givenFor_conformFields] at supplies
  cases found : supplied.find? (·.1 == p.name) with
  | none =>
    rw [found] at supplies
    cases supplies with
    | default declared result =>
      exact ⟨named, _, .default found declared result,
        conformPlain_conforms (default_isTyped result) conformed⟩
  | some g =>
    rw [found] at supplies
    cases supplies with
    | given => exact ⟨named, g.2, .supplied found, conform_conforms conformed⟩

/-- A validation that succeeds has given a value to every parameter. -/
theorem validate_eq_ok {schema : Schema} {supplied : List (String × Value)} {base : Location}
    {valid : ValidParams} (found : (store.validate schema supplied base).value = .ok valid) :
    (∀ g ∈ supplied, (schema.param? g.1).isSome = true) ∧
      List.Forall₂ (store.Validated schema supplied) schema.params valid.params := by
  obtain ⟨known, each, -⟩ := validateWith_eq_ok conformFields_grave found
  refine ⟨fun g member => known (g.1, store.conform g.2) ?_, each.imp fun _ _ => Fulfills.validated⟩
  rw [conformFields_eq_map]
  exact List.mem_map.mpr ⟨g, member, rfl⟩

theorem validate_eq_error {schema : Schema} {supplied : List (String × Value)} {base : Location}
    {faults : List Diagnostic}
    (failed : (store.validate schema supplied base).value = .error faults) : faults ≠ [] :=
  validateWith_eq_error failed

end Store
end Pipeline

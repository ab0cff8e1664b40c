import Pipeline.Plan.FieldValue
import Pipeline.Proofs.Schema.References

/-!
# Names read in fields

The value of a field is made of what its expressions read. The names collected on the way are those
that stand free in some expression of the field, however deep in lists and mappings.
-/

set_option autoImplicit false
set_option relaxedAutoImplicit false

namespace Pipeline

namespace RawValue

mutual

/-- The names that stand free in the expressions of a written value. -/
def reads : RawValue → List String
  | str source =>
    match Snippet.parse source with
    | .ok s => s.expr.reads
    | .error _ => []
  | seq items => readsItems items
  | map entries => readsEntries entries
  | _ => []

/-- The names that stand free in the items of a list. -/
def readsItems : List RawValue → List String
  | [] => []
  | v :: rest => reads v ++ readsItems rest

/-- The names that stand free in the values of a mapping; its keys are no expressions. -/
def readsEntries : List (RawValue × RawValue) → List String
  | [] => []
  | (_, v) :: rest => reads v ++ readsEntries rest

end

end RawValue

/-- What stands under names refers to nothing but what is known. -/
def Env.Knows (env : Env) (known : String → Prop) (names : List String) : Prop :=
  ∀ n ∈ names, ∀ v, env.vars.get? n = some v → Value.All (Value.RefersTo known) v

theorem Env.Knows.append {env : Env} {known : String → Prop} {names more : List String}
    (knows : env.Knows known (names ++ more)) : env.Knows known names ∧ env.Knows known more :=
  ⟨fun n member => knows n (List.mem_append_left _ member),
    fun n member => knows n (List.mem_append_right _ member)⟩

theorem FieldValue.andThen_eq_ok {α β : Type} {x : FieldValue α} {f : α → Logged (FieldValue β)}
    {b : β} (found : (x.andThen f).value.value = .ok b) :
    ∃ a, x.value = .ok a ∧ (f a).value.value = .ok b ∧
      (x.andThen f).value.names = x.names ++ (f a).value.names := by
  unfold andThen at found ⊢
  split at found
  · cases found
  · rename_i a here
    exact ⟨a, here, found, rfl⟩

namespace Store

open Value (All AllFields AllItems RefersTo all_list refersTo_lenient)

variable {store : Store} {env : Env}

theorem expressionValue_eq_ok (outside : env.self = none) {place : Location} {source : String}
    {v : Value} (found : (store.expressionValue env place source).value.value = .ok v) :
    (store.expressionValue env place source).value.names = (RawValue.str source).reads ∧
      (∀ known, env.Knows known (RawValue.str source).reads → All (RefersTo known) v) := by
  unfold expressionValue at found ⊢
  unfold RawValue.reads
  cases parsed : Snippet.parse source with
  | error e =>
    rw [parsed] at found
    cases found
  | ok s =>
    rw [parsed] at found
    simp only [Logged.value_bind] at found ⊢
    cases result : (store.eval env s.expr).run.value with
    | error e =>
      rw [result] at found
      cases found
    | ok w =>
      rw [result] at found
      cases found
      refine ⟨rfl, fun known knows => eval_all refersTo_lenient (fun w same => ?_) knows v result⟩
      rw [outside] at same
      cases same

private theorem itemValues_eq_ok {place : Location} {items : List RawValue}
    (each : ∀ raw ∈ items, ∀ place v, (store.fieldValue env place raw).value.value = .ok v →
      (store.fieldValue env place raw).value.names = raw.reads ∧
        (∀ known, env.Knows known raw.reads → All (RefersTo known) v))
    {i : Nat} {vs : List Value} (found : (store.itemValues env place i items).value.value = .ok vs) :
    (store.itemValues env place i items).value.names = RawValue.readsItems items ∧
      (∀ known, env.Knows known (RawValue.readsItems items) → AllItems (RefersTo known) vs) := by
  induction items generalizing i vs with
  | nil =>
    cases found
    exact ⟨rfl, fun _ _ => trivial⟩
  | cons raw rest ih =>
    rw [List.forall_mem_cons] at each
    simp only [itemValues, Logged.value_bind] at found ⊢
    obtain ⟨v, here, later, names⟩ := FieldValue.andThen_eq_ok found
    simp only [Logged.value_bind] at later
    obtain ⟨ws, there, made, names'⟩ := FieldValue.andThen_eq_ok later
    obtain ⟨read, refers⟩ := each.1 _ v here
    obtain ⟨read', refers'⟩ := ih each.2 there
    cases made
    rw [names]
    simp only [Logged.value_bind]
    rw [names', read, read']
    refine ⟨by simp [RawValue.readsItems, FieldValue.ofValue], fun known knows => ?_⟩
    exact ⟨refers known knows.append.1, refers' known knows.append.2⟩

private theorem entryValues_eq_ok {place : Location} {entries : List (RawValue × RawValue)}
    (each : ∀ e ∈ entries, ∀ place v, (store.fieldValue env place e.2).value.value = .ok v →
      (store.fieldValue env place e.2).value.names = e.2.reads ∧
        (∀ known, env.Knows known e.2.reads → All (RefersTo known) v))
    {fs : List (String × Value)}
    (found : (store.entryValues env place entries).value.value = .ok fs) :
    (store.entryValues env place entries).value.names = RawValue.readsEntries entries ∧
      (∀ known, env.Knows known (RawValue.readsEntries entries) → AllFields (RefersTo known) fs) := by
  induction entries generalizing fs with
  | nil =>
    cases found
    exact ⟨rfl, fun _ _ => trivial⟩
  | cons e rest ih =>
    obtain ⟨key, raw⟩ := e
    rw [List.forall_mem_cons] at each
    unfold entryValues at found ⊢
    cases text : key.keyText? with
    | none =>
      rw [text] at found
      cases found
    | some name =>
      rw [text] at found
      simp only [Logged.value_bind] at found ⊢
      obtain ⟨v, here, later, names⟩ := FieldValue.andThen_eq_ok found
      simp only [Logged.value_bind] at later
      obtain ⟨ws, there, made, names'⟩ := FieldValue.andThen_eq_ok later
      obtain ⟨read, refers⟩ := each.1 _ v here
      obtain ⟨read', refers'⟩ := ih each.2 there
      cases made
      rw [names]
      simp only [Logged.value_bind]
      rw [names', read, read']
      refine ⟨by simp [RawValue.readsEntries, FieldValue.ofValue], fun known knows => ?_⟩
      exact ⟨refers known knows.append.1, refers' known knows.append.2⟩

/-- Where a field has a value, the names collected are those read, and the value refers to nothing
but what stands under them. -/
theorem fieldValue_eq_ok (outside : env.self = none) (raw : RawValue) {place : Location} {v : Value}
    (found : (store.fieldValue env place raw).value.value = .ok v) :
    (store.fieldValue env place raw).value.names = raw.reads ∧
      (∀ known, env.Knows known raw.reads → All (RefersTo known) v) := by
  induction raw using RawValue.inductionOn generalizing place v with
  | str source => exact expressionValue_eq_ok outside found
  | seq items ih =>
    unfold fieldValue at found ⊢
    simp only [Logged.value_bind] at found ⊢
    obtain ⟨vs, listed, made, names⟩ := FieldValue.andThen_eq_ok found
    obtain ⟨read, refers⟩ := itemValues_eq_ok (fun raw member place v => ih raw member) listed
    cases made
    rw [names, read]
    refine ⟨by simp [RawValue.reads, FieldValue.ofValue], fun known knows => ?_⟩
    exact all_list refersTo_lenient (refers known knows)
  | map entries ih =>
    unfold fieldValue at found ⊢
    simp only [Logged.value_bind] at found ⊢
    obtain ⟨fs, listed, made, names⟩ := FieldValue.andThen_eq_ok found
    obtain ⟨read, refers⟩ := entryValues_eq_ok (fun e member place v => ih e member) listed
    cases made
    rw [names, read]
    refine ⟨by simp [RawValue.reads, FieldValue.ofValue], fun known knows => ?_⟩
    exact ⟨trivial, refers known knows⟩
  | tagged tag v ih =>
    unfold fieldValue at found
    cases found
  | int n =>
    unfold fieldValue at found ⊢
    cases found
    refine ⟨rfl, fun _ _ => ?_⟩
    unfold rawInt
    split <;> trivial
  | null | bool | float =>
    unfold fieldValue at found ⊢
    cases found
    exact ⟨rfl, fun _ _ => trivial⟩

end Store
end Pipeline

import Pipeline.Proofs.Plan.Fields
import Pipeline.Proofs.Plan.Progress

/-!
# Bindings constructed one after another

As long as there is no fault, every binding that is constructed depends on all bindings that its
fields read, and its construction refers to no others.
-/

set_option autoImplicit false
set_option relaxedAutoImplicit false

namespace Pipeline

open Value (All RefersTo)

/-- The names that stand free in the fields of a binding. -/
def BindingBody.reads : BindingBody → List String
  | fields values => values.flatMap (·.2.reads)
  | host _ => []

namespace Store

variable {store : Store} {known : String → Prop}

/-- In the fields of bindings there are references alone. -/
theorem get?_bindingEnv {module n : String} {names : List String} {types : NameMap Ty} {v : Value}
    (found : (bindingEnv module names types).vars.get? n = some v) :
    n ∈ names ∧ ∃ t, v = .ref n t := by
  obtain ⟨name, member, same⟩ := List.mem_map.mp (NameMap.mem_of_get?_ofList found)
  cases same
  exact ⟨member, _, rfl⟩

/-! ### One binding -/

/-- Where all fields of a binding have values, each of them is made of what it reads. -/
theorem fieldValues_of_faults_eq_nil {env : Env} (outside : env.self = none) {place : Location}
    {fields : List (String × RawValue)}
    (none : (store.fieldValues env place fields).value.2.2 = []) :
    (store.fieldValues env place fields).value.2.1 = fields.map (·.2.reads) ∧
      (∀ known, env.Knows known (fields.flatMap (·.2.reads)) →
        ∀ g ∈ (store.fieldValues env place fields).value.1, All (RefersTo known) g.2) := by
  induction fields with
  | nil => exact ⟨rfl, fun _ _ => by simp [fieldValues]⟩
  | cons f rest ih =>
    obtain ⟨name, raw⟩ := f
    simp only [fieldValues, Logged.value_bind] at none ⊢
    cases found : (store.fieldValue env (place.child name) raw).value.value with
    | error d =>
      rw [found] at none
      cases none
    | ok v =>
      rw [found] at none
      obtain ⟨read, refers⟩ := fieldValue_eq_ok outside raw found
      obtain ⟨reads, refer⟩ := ih none
      refine ⟨congrArg₂ List.cons read reads, fun known knows => ?_⟩
      rw [List.flatMap_cons] at knows
      exact List.forall_mem_cons.mpr ⟨refers known knows.append.1, refer known knows.append.2⟩

theorem construct_eq_ok {name : String} {t : Ty} {supplied : List (String × Value)}
    {place : Location} {c : Construction}
    (found : (store.construct name t supplied place).value = .ok c)
    (all : ∀ g ∈ supplied, All (RefersTo known) g.2) :
    ∀ v ∈ c.values, All (RefersTo known) v := by
  unfold construct at found
  dsimp only at found
  split at found
  · simp only [Logged.value_bind] at found
    split at found
    · rename_i valid validated
      cases found
      intro v member
      obtain ⟨p, inside, rfl⟩ := List.mem_map.mp member
      exact validate_refersTo validated all p inside
    · cases found
  · split at found
    · simp only [Logged.value_bind] at found
      split at found
      · rename_i w validated
        cases found
        exact List.forall_mem_singleton.mpr (validateRecord_refersTo validated all)
      · cases found
    · cases found

theorem construct_eq_error {name : String} {t : Ty} {supplied : List (String × Value)}
    {place : Location} {faults : List Diagnostic}
    (failed : (store.construct name t supplied place).value = .error faults) : faults ≠ [] := by
  unfold construct at failed
  dsimp only at failed
  split at failed
  · simp only [Logged.value_bind] at failed
    split at failed
    · cases failed
    · rename_i refused
      cases failed
      simpa using validate_eq_error refused
  · split at failed
    · simp only [Logged.value_bind] at failed
      split at failed
      · cases failed
      · rename_i refused
        cases failed
        simpa using validateRecord_eq_error refused
    · cases failed
      simp

/-- Constructing a binding ends in faults, or in a construction of what the binding reads. -/
theorem bindOne_cases {env : Env} (outside : env.self = none) (p : Progress) (name : String)
    (t : Ty) (body : BindingBody) (place : Location) :
    (∃ graph faults, faults ≠ [] ∧
      (store.bindOne env p name t body place).value = { p with graph := graph }.fail faults) ∨
    ∃ graph c, (store.bindOne env p name t body place).value =
        { p with graph := graph, constructions := p.constructions.insert name c } ∧
      (name ∈ p.graph.names → p.graph.Grows graph fun x n => x = name ∧ n ∈ body.reads) ∧
      ∀ known, env.Knows known body.reads → ∀ v ∈ c.values, All (RefersTo known) v := by
  cases body with
  | host code =>
    refine Or.inr ⟨p.graph, .host code, rfl, fun _ => ?_, fun _ _ => by simp [Construction.values]⟩
    exact (BindingGraph.Grows.refl _).congr (by simp [BindingBody.reads])
  | fields raws =>
    simp only [bindOne, Logged.value_bind]
    generalize result : (store.fieldValues env place raws).value = r
    obtain ⟨supplied, names, faults⟩ := r
    obtain ⟨graph, made, grows⟩ := p.foldl_dependOn name names
    simp only [made]
    split
    · rename_i faulty
      exact Or.inl ⟨graph, faults, by simpa using faulty, rfl⟩
    · rename_i clear
      rw [Bool.not_eq_true, Bool.not_eq_false', List.isEmpty_iff] at clear
      have none : (store.fieldValues env place raws).value.2.2 = [] := by rw [result, clear]
      obtain ⟨read, refers⟩ := fieldValues_of_faults_eq_nil outside none
      rw [result] at read refers
      dsimp only at read refers
      subst read
      simp only [Logged.value_bind]
      split
      · rename_i c constructed
        exact Or.inr ⟨graph, c, rfl, grows, fun known knows =>
          construct_eq_ok constructed (refers known knows)⟩
      · rename_i faults refused
        exact Or.inl ⟨graph, faults, construct_eq_error refused, rfl⟩

theorem clean_of_bindOne {env : Env} (outside : env.self = none) {p : Progress} {name : String}
    {t : Ty} {body : BindingBody} {place : Location}
    (clean : (store.bindOne env p name t body place).value.Clean) : p.Clean := by
  rcases store.bindOne_cases outside p name t body place with
    ⟨graph, faults, -, failed⟩ | ⟨graph, c, made, -, -⟩
  · rw [failed] at clean
    exact (Progress.clean_of_fail clean).1
  · rw [made] at clean
    exact clean

/-- A binding that is constructed depends on all bindings that it reads. -/
theorem bindOne_advances {env : Env} (outside : env.self = none) {p : Progress} {name : String}
    {t : Ty} {body : BindingBody} {place : Location} (known : name ∈ p.graph.names)
    (refs : ∀ n v, env.vars.get? n = some v → n ∈ p.graph.names ∧ ∃ t, v = .ref n t)
    (clean : (store.bindOne env p name t body place).value.Clean) :
    p.Advances (store.bindOne env p name t body place).value
      (fun x n => x = name ∧ n ∈ body.reads) (· = name) := by
  rcases store.bindOne_cases outside p name t body place with
    ⟨graph, faults, some_faults, failed⟩ | ⟨graph, c, made, grows, refers⟩
  · rw [failed] at clean
    exact absurd (Progress.clean_of_fail clean).2 some_faults
  · rw [made]
    refine Progress.advances_insert (grows known) (refers _ fun n member v found => ?_)
    obtain ⟨sibling, t, rfl⟩ := refs n v found
    exact ((grows known).depends name n).mpr (Or.inr ⟨sibling, rfl, member⟩)

/-! ### All bindings -/

theorem clean_of_bindEach {env : Env} (outside : env.self = none) {types : NameMap Ty}
    {lets : Location} {bindings : List (String × BindingEntry)} {p : Progress}
    (clean : (store.bindEach env types lets p bindings).value.Clean) : p.Clean := by
  induction bindings generalizing p with
  | nil => exact clean
  | cons b rest ih =>
    unfold bindEach at clean
    split at clean
    · exact clean
    · split at clean
      · exact ih clean
      · exact clean_of_bindOne outside (ih clean)

/-- Without a fault, all bindings are constructed, each of them dependent on what it reads. -/
theorem bindEach_advances {env : Env} (outside : env.self = none) {types : NameMap Ty}
    {lets : Location} {bindings : List (String × BindingEntry)} {p : Progress}
    (known : ∀ b ∈ bindings, b.1 ∈ p.graph.names ∧ (types.get? b.1).isSome = true)
    (refs : ∀ n v, env.vars.get? n = some v → n ∈ p.graph.names ∧ ∃ t, v = .ref n t)
    (clean : (store.bindEach env types lets p bindings).value.Clean) :
    p.Advances (store.bindEach env types lets p bindings).value
      (fun x n => ∃ b, (x, b) ∈ bindings ∧ n ∈ b.body.reads) (· ∈ bindings.map (·.1)) := by
  induction bindings generalizing p with
  | nil => exact (Progress.Advances.refl p).congr (by simp) (by simp)
  | cons b rest ih =>
    obtain ⟨name, b⟩ := b
    rw [List.forall_mem_cons] at known
    obtain ⟨t, typed⟩ := Option.isSome_iff_exists.mp known.1.2
    have running : ¬ p.aborted = true := by
      rw [(clean_of_bindEach outside clean).2]
      exact Bool.false_ne_true
    simp only [bindEach, typed, if_neg running, Logged.value_bind] at clean ⊢
    have first := bindOne_advances outside known.1.1 refs (clean_of_bindEach outside clean)
    have later := ih (first.grows.names.symm ▸ known.2) (first.grows.names.symm ▸ refs) clean
    refine (first.trans later).congr (fun x n => ?_) fun x member => by simpa using member
    simp only [List.mem_cons, Prod.mk.injEq]
    constructor
    · rintro (⟨rfl, reads⟩ | ⟨b', member, reads⟩)
      · exact ⟨b, Or.inl ⟨rfl, rfl⟩, reads⟩
      · exact ⟨b', Or.inr member, reads⟩
    · rintro ⟨b', ⟨rfl, rfl⟩ | member, reads⟩
      · exact Or.inl ⟨rfl, reads⟩
      · exact Or.inr ⟨b', member, reads⟩

end Store
end Pipeline

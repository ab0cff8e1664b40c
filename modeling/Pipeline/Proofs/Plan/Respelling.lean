import Pipeline.Proofs.Eval.Retyping
import Pipeline.Proofs.Plan.Abort

/-!
# Other spellings of a type

The type of one binding is spelled in another way with the same expansion. If the binding is code of
the host and no field takes it as it stands, no step of binding the document can tell: the fields of
the others have the same values, the pipes the same flows, and the plan is the same up to aliases.
-/

set_option autoImplicit false
set_option relaxedAutoImplicit false

namespace Pipeline

/-! ### Names that stand by themselves -/

namespace RawValue

mutual

/-- The names that stand by themselves in the expressions of a written value. -/
def bare : RawValue → List String
  | str source =>
    match Snippet.parse source with
    | .ok s => s.expr.bare false
    | .error _ => []
  | seq items => bareItems items
  | map entries => bareEntries entries
  | _ => []

/-- The names that stand by themselves in the items of a list. -/
def bareItems : List RawValue → List String
  | [] => []
  | v :: rest => bare v ++ bareItems rest

/-- The names that stand by themselves in the values of a mapping. -/
def bareEntries : List (RawValue × RawValue) → List String
  | [] => []
  | (_, v) :: rest => bare v ++ bareEntries rest

end

end RawValue

/-- The names that stand by themselves in the fields of a binding. -/
def BindingBody.bare : BindingBody → List String
  | fields values => values.flatMap (·.2.bare)
  | host _ => []

/-! ### Values of fields -/

namespace FieldValue

variable {α β : Type}

/-- If the first field has a value, the second one has the same and reads the same names. -/
private def Lasts (x y : FieldValue α) : Prop := ∀ a, x.value = .ok a → y = x

private theorem Lasts.refl (x : FieldValue α) : x.Lasts x := fun _ _ => rfl

private theorem andThen_of_ok {x : FieldValue α} {a : α} (found : x.value = .ok a)
    (f : α → Logged (FieldValue β)) :
    (x.andThen f).value = ⟨(f a).value.value, x.names ++ (f a).value.names⟩ := by
  unfold andThen
  rw [found]
  rfl

private theorem Lasts.andThen {x y : FieldValue α} {f g : α → Logged (FieldValue β)}
    (first : x.Lasts y) (next : ∀ a, (f a).value.Lasts (g a).value) :
    (x.andThen f).value.Lasts (y.andThen g).value := by
  intro b found
  obtain ⟨a, here, later, -⟩ := andThen_eq_ok found
  rw [first a here, andThen_of_ok here, andThen_of_ok here, next a b later]

end FieldValue

namespace Store

variable {store : Store} {env : Env} {vars : NameMap Value}

private theorem expressionValue_lasts {place : Location} {source : String}
    (alike : ∀ n, Option.Rel store.Retyped (env.vars.get? n) (vars.get? n))
    (same : ∀ n ∈ (RawValue.str source).bare, env.vars.get? n = vars.get? n) :
    (store.expressionValue env place source).value.Lasts
      (store.expressionValue { env with vars := vars } place source).value := by
  unfold expressionValue
  unfold RawValue.bare at same
  cases parsed : Snippet.parse source with
  | error e => exact .refl _
  | ok s =>
    rw [parsed] at same
    intro v found
    simp only [Logged.value_bind] at found ⊢
    cases result : (store.eval env s.expr).run.value with
    | error e =>
      rw [result] at found
      cases found
    | ok w =>
      have kept : (store.eval { env with vars := vars } s.expr).run.value = .ok w :=
        eval_retyped alike same w result
      rw [kept]

private theorem itemValues_lasts {place : Location} {items : List RawValue}
    (each : ∀ raw ∈ items, (∀ n ∈ raw.bare, env.vars.get? n = vars.get? n) → ∀ place,
      (store.fieldValue env place raw).value.Lasts
        (store.fieldValue { env with vars := vars } place raw).value)
    (same : ∀ n ∈ RawValue.bareItems items, env.vars.get? n = vars.get? n) (i : Nat) :
    (store.itemValues env place i items).value.Lasts
      (store.itemValues { env with vars := vars } place i items).value := by
  induction items generalizing i with
  | nil => exact .refl _
  | cons raw rest ih =>
    rw [List.forall_mem_cons] at each
    rw [RawValue.bareItems, List.forall_mem_append] at same
    simp only [itemValues, Logged.value_bind]
    refine (each.1 same.1 _).andThen fun v => ?_
    simp only [Logged.value_bind]
    exact (ih each.2 same.2 (i + 1)).andThen fun vs => .refl _

private theorem entryValues_lasts {place : Location} {entries : List (RawValue × RawValue)}
    (each : ∀ e ∈ entries, (∀ n ∈ e.2.bare, env.vars.get? n = vars.get? n) → ∀ place,
      (store.fieldValue env place e.2).value.Lasts
        (store.fieldValue { env with vars := vars } place e.2).value)
    (same : ∀ n ∈ RawValue.bareEntries entries, env.vars.get? n = vars.get? n) :
    (store.entryValues env place entries).value.Lasts
      (store.entryValues { env with vars := vars } place entries).value := by
  induction entries with
  | nil => exact .refl _
  | cons e rest ih =>
    obtain ⟨key, raw⟩ := e
    rw [List.forall_mem_cons] at each
    rw [RawValue.bareEntries, List.forall_mem_append] at same
    unfold entryValues
    cases key.keyText? with
    | none => exact .refl _
    | some name =>
      simp only [Logged.value_bind]
      refine (each.1 same.1 _).andThen fun v => ?_
      simp only [Logged.value_bind]
      exact (ih each.2 same.2).andThen fun vs => .refl _

/-- A field keeps its value when names that are only looked into get synonymous types. -/
private theorem fieldValue_lasts
    (alike : ∀ n, Option.Rel store.Retyped (env.vars.get? n) (vars.get? n)) {raw : RawValue}
    (same : ∀ n ∈ raw.bare, env.vars.get? n = vars.get? n) (place : Location) :
    (store.fieldValue env place raw).value.Lasts
      (store.fieldValue { env with vars := vars } place raw).value := by
  induction raw using RawValue.inductionOn generalizing place with
  | str source => exact expressionValue_lasts alike same
  | seq items ih =>
    unfold fieldValue
    simp only [Logged.value_bind]
    exact (itemValues_lasts ih same 0).andThen fun vs => .refl _
  | map entries ih =>
    unfold fieldValue
    simp only [Logged.value_bind]
    exact (entryValues_lasts ih same).andThen fun fs => .refl _
  | null | bool | int | float | tagged =>
    unfold fieldValue
    exact .refl _

theorem fieldValues_retyped
    (alike : ∀ n, Option.Rel store.Retyped (env.vars.get? n) (vars.get? n)) {place : Location}
    {raws : List (String × RawValue)}
    (same : ∀ n ∈ raws.flatMap (·.2.bare), env.vars.get? n = vars.get? n)
    (none : (store.fieldValues env place raws).value.2.2 = []) :
    (store.fieldValues { env with vars := vars } place raws).value =
      (store.fieldValues env place raws).value := by
  induction raws with
  | nil => rfl
  | cons f rest ih =>
    obtain ⟨name, raw⟩ := f
    rw [List.flatMap_cons, List.forall_mem_append] at same
    simp only [fieldValues, Logged.value_bind] at none ⊢
    dsimp only at same
    have lasts := fieldValue_lasts alike same.1 (place.child name)
    cases found : (store.fieldValue env (place.child name) raw).value.value with
    | error d =>
      rw [found] at none
      cases none
    | ok v =>
      rw [found] at none
      rw [lasts v found, found, ih same.2 none]

/-! ### Pipes -/

section Pipes

variable {t u : Ty}

/-- What a type implements is asked of its expansion. -/
theorem resolve_synonym (same : store.normalize t = store.normalize u) (r : TraitRef) :
    (store.resolve t r).value = (store.resolve u r).value := by
  have asked (trait : TraitDecl) : store.obligation trait t r = store.obligation trait u r := by
    unfold obligation
    rw [same]
  have inside : store.resolveInside store.maxDepth [] t r =
      store.resolveInside store.maxDepth [] u r := by
    unfold resolveInside
    simp only [asked]
  unfold resolve resolveTo
  simp only [Logged.value_bind, inside]

theorem producedItem_synonym (same : store.normalize t = store.normalize u) (input : Option Ty) :
    (store.producedItem t input).value = (store.producedItem u input).value := by
  have projected : (store.project t Builtin.source Builtin.item).value =
      (store.project u Builtin.source Builtin.item).value :=
    congrArg (fun r : Resolution => r.candidate?.bind (·.assoc? Builtin.item))
      (resolve_synonym same _)
  unfold producedItem
  simp only [Logged.value_bind, projected]
  split
  · rfl
  · simp only [Logged.value_bind, resolve_synonym same]

theorem acceptsItems_synonym (same : store.normalize t = store.normalize u) (item : Ty) :
    (store.acceptsItems t item).value = (store.acceptsItems u item).value := by
  have implements (r : TraitRef) : (store.implements t r).value = (store.implements u r).value :=
    congrArg (fun r : Resolution => r.candidate?.isSome) (resolve_synonym same r)
  unfold acceptsItems
  simp only [Logged.value_bind, implements]
  split
  · rfl
  · exact implements _

end Pipes

/-! ### Types of bindings -/

/-- The types of bindings, of which one may be spelled in another way. -/
def Respelled (store : Store) (x : String) (types types' : NameMap Ty) : Prop :=
  ∀ n, Option.Rel (fun t u => store.normalize t = store.normalize u)
      (types.get? n) (types'.get? n) ∧
    (n ≠ x → types.get? n = types'.get? n)

/-- Maps of pairs that are related, and equal under all names but one. -/
private theorem rel_get? {α : Type} {R : α → α → Prop} {x : String} {pairs pairs' : NameMap α}
    (related : List.Forall₂ (fun p q => p.1 = q.1 ∧ R p.2 q.2 ∧ (p.1 ≠ x → p.2 = q.2)) pairs pairs')
    (n : String) :
    Option.Rel R ((NameMap.ofList pairs).get? n) ((NameMap.ofList pairs').get? n) ∧
      (n ≠ x → (NameMap.ofList pairs).get? n = (NameMap.ofList pairs').get? n) := by
  have both := NameMap.rel_get?_ofList (R := fun n a b => R a b ∧ (n ≠ x → a = b)) related n
  generalize (NameMap.ofList pairs).get? n = a at both ⊢
  generalize (NameMap.ofList pairs').get? n = b at both ⊢
  cases both with
  | none => exact ⟨.none, fun _ => rfl⟩
  | some both => exact ⟨.some both.1, fun other => congrArg some (both.2 other)⟩

namespace Respelled

variable {x : String} {types types' : NameMap Ty}

/-- A binding has no type in either case, or types with the same expansion. -/
theorem get?_cases (respelled : store.Respelled x types types') (n : String) :
    types.get? n = none ∧ types'.get? n = none ∨
      ∃ t u, types.get? n = some t ∧ types'.get? n = some u ∧
        store.normalize t = store.normalize u ∧ (n ≠ x → t = u) := by
  obtain ⟨related, equal⟩ := respelled n
  generalize types.get? n = t at related equal
  generalize types'.get? n = u at related equal
  cases related with
  | none => exact Or.inl ⟨rfl, rfl⟩
  | some expands =>
    exact Or.inr ⟨_, _, rfl, rfl, expands, fun other => Option.some.inj (equal other)⟩

/-- The references to the bindings have synonymous types, all but one of them the same. -/
theorem references (respelled : store.Respelled x types types') (module : String)
    (names : List String) (n : String) :
    Option.Rel store.Retyped ((bindingEnv module names types).vars.get? n)
        ((bindingEnv module names types').vars.get? n) ∧
      (n ≠ x → (bindingEnv module names types).vars.get? n =
        (bindingEnv module names types').vars.get? n) := by
  refine rel_get? ?_ n
  rw [List.forall₂_map_left_iff, List.forall₂_map_right_iff]
  refine List.forall₂_same.mpr fun n _ => ?_
  rcases respelled.get?_cases n with ⟨untyped, untyped'⟩ | ⟨t, u, typed, typed', expands, equal⟩
  · rw [untyped, untyped']
    exact ⟨rfl, .same _, fun _ => rfl⟩
  · rw [typed, typed']
    exact ⟨rfl, .ref n expands, fun other => congrArg (Value.ref n) (equal other)⟩

theorem flows (respelled : store.Respelled x types types') {place : Location} {input : Option Ty}
    {names : List String} {pipes : List Pipe}
    (found : (store.flows types place input names).value = .ok pipes) :
    (store.flows types' place input names).value = .ok pipes := by
  induction names generalizing input pipes with
  | nil => exact found
  | cons producer rest ih =>
    cases rest with
    | nil => exact found
    | cons consumer rest =>
      unfold Store.flows at found ⊢
      rcases respelled.get?_cases producer with ⟨none, none'⟩ | ⟨t, t', typed, typed', first, -⟩
      · rw [none] at found
        rw [none']
        exact found
      rcases respelled.get?_cases consumer with ⟨none, none'⟩ | ⟨u, u', fed, fed', second, -⟩
      · rw [typed, none] at found
        rw [typed', none']
        exact found
      simp only [typed, fed, Logged.value_bind] at found
      simp only [typed', fed', Logged.value_bind]
      rw [← producedItem_synonym first]
      cases produced : (store.producedItem t input).value with
      | none =>
        rw [produced] at found
        cases found
      | some item =>
        simp only [produced, Logged.value_bind] at found ⊢
        rw [← acceptsItems_synonym second]
        cases accepted : (store.acceptsItems u item).value with
        | false =>
          simp [accepted] at found
        | true =>
          simp only [accepted, if_true, Logged.value_bind, Logged.value_pure] at found ⊢
          cases later : (store.flows types place (some item) (consumer :: rest)).value with
          | error d =>
            rw [later] at found
            cases found
          | ok more =>
            rw [later] at found
            rw [ih later, found]

theorem pipe (respelled : store.Respelled x types types') {graph : BindingGraph}
    {place : Location} {written : String} {pipes : List Pipe}
    (found : (store.pipe types graph place written).value = .ok pipes) :
    (store.pipe types' graph place written).value = .ok pipes := by
  unfold Store.pipe at found ⊢
  dsimp only at found ⊢
  split at found
  · cases found
  · rename_i stages
    rw [if_neg stages]
    split at found
    · cases found
    · rename_i known
      rw [if_neg known]
      simp only [Logged.value_bind] at found ⊢
      cases flowing : (store.flows types place none (pipeStages written)).value with
      | error d =>
        rw [pipeStages] at flowing
        rw [flowing] at found
        cases found
      | ok pipes' =>
        have flowing' := respelled.flows flowing
        rw [pipeStages] at flowing flowing'
        rw [flowing] at found
        rw [flowing']
        exact found

/-- Pipes without a fault lead along the same flows. -/
theorem bindPipes (respelled : store.Respelled x types types') {place : Location} {p : Progress}
    {i : Nat} {pipes : List String}
    (none : (store.bindPipes types place p i pipes).value.1.faults = []) :
    (store.bindPipes types' place p i pipes).value =
      (store.bindPipes types place p i pipes).value := by
  induction pipes generalizing p i with
  | nil => rfl
  | cons written rest ih =>
    simp only [Store.bindPipes, Logged.value_bind] at none ⊢
    cases taken : (store.pipe types p.graph (place.atIndex i) written).value with
    | error faults =>
      rw [taken] at none
      have clear := faults_of_bindPipes none
      exact absurd (List.append_eq_nil_iff.mp clear).2 (pipe_eq_error taken)
    | ok flows =>
      rw [taken] at none
      rw [respelled.pipe taken]
      simp only [Logged.value_bind, Logged.value_pure] at none ⊢
      rw [ih none]

end Respelled

/-! ### Bindings -/

/-- The same binding, or code of the host for the binding `x` under another spelling of its type. -/
inductive Respells (store : Store) (scope : ModuleScope) (x : String) :
    String × BindingEntry → String × BindingEntry → Prop
  | other {b : String × BindingEntry} : b.1 ≠ x → Respells store scope x b b
  | host (code : String) {written written' : String} {t u : Ty} :
      store.bindingTy scope written = .ok t → store.bindingTy scope written' = .ok u →
      store.normalize t = store.normalize u →
      Respells store scope x (x, ⟨written, .host code⟩) (x, ⟨written', .host code⟩)

namespace Respells

variable {scope : ModuleScope} {x : String} {b b' : String × BindingEntry}
  {bs bs' : List (String × BindingEntry)}

theorem symm (respells : store.Respells scope x b b') : store.Respells scope x b' b := by
  cases respells with
  | other outside => exact .other outside
  | host code here there same => exact .host code there here same.symm

theorem name (respells : store.Respells scope x b b') : b.1 = b'.1 := by
  cases respells <;> rfl

theorem body (respells : store.Respells scope x b b') : b.2.body = b'.2.body := by
  cases respells <;> rfl

theorem names (all : List.Forall₂ (store.Respells scope x) bs bs') :
    bs.map (·.1) = bs'.map (·.1) := by
  induction all with
  | nil => rfl
  | cons here _ ih => rw [List.map_cons, List.map_cons, ih, here.name]

theorem host_of_eq (respells : store.Respells scope x b b') (own : b.1 = x) :
    ∃ code, b.2.body = .host code := by
  cases respells with
  | other outside => exact absurd own outside
  | host code => exact ⟨code, rfl⟩

theorem faults (all : List.Forall₂ (store.Respells scope x) bs bs') (lets : Location) :
    (store.bindingTypes scope lets bs').2 = (store.bindingTypes scope lets bs).2 := by
  unfold bindingTypes
  dsimp only
  induction all with
  | nil => rfl
  | cons here _ ih =>
    cases here with
    | other => simp only [List.map_cons, List.filterMap_cons, ih]
    | host code here there => simp only [List.map_cons, List.filterMap_cons, here, there, ih]

theorem respelled (all : List.Forall₂ (store.Respells scope x) bs bs') (lets : Location) :
    store.Respelled x (store.bindingTypes scope lets bs).1
      (store.bindingTypes scope lets bs').1 := by
  refine rel_get? ?_
  induction all with
  | nil => exact .nil
  | @cons b b' _ _ here _ ih =>
    cases here with
    | other =>
      simp only [List.map_cons, List.filterMap_cons]
      cases store.bindingTy scope b.2.ty with
      | error => exact ih
      | ok t => exact .cons ⟨rfl, rfl, fun _ => rfl⟩ ih
    | host code here there same =>
      simp only [List.map_cons, List.filterMap_cons, here, there]
      exact .cons ⟨rfl, same, fun other => absurd rfl other⟩ ih

end Respells

namespace Respelled

variable {scope : ModuleScope} {x : String} {types types' : NameMap Ty}

/-- A binding that is constructed without a fault is constructed alike. -/
theorem bindOne (respelled : store.Respelled x types types') {module name : String}
    {names : List String} {p : Progress} {t u : Ty} {body : BindingBody} {place : Location}
    (same : (∃ code, body = .host code) ∨ t = u) (hidden : x ∉ body.bare)
    (clean : (store.bindOne (bindingEnv module names types) p name t body place).value.Clean) :
    (store.bindOne (bindingEnv module names types') p name u body place).value =
      (store.bindOne (bindingEnv module names types) p name t body place).value := by
  cases body with
  | host code => rfl
  | fields raws =>
    obtain rfl : t = u := same.resolve_left nofun
    have alike (n : String) := (respelled.references module names n).1
    have visible : ∀ n ∈ raws.flatMap (·.2.bare),
        (bindingEnv module names types).vars.get? n =
          (bindingEnv module names types').vars.get? n := by
      intro n member
      have other : n ≠ x := fun same => hidden (same ▸ member)
      exact (respelled.references module names n).2 other
    simp only [Store.bindOne, Logged.value_bind] at clean ⊢
    by_cases none : (store.fieldValues (bindingEnv module names types) place raws).value.2.2 = []
    · have fields := fieldValues_retyped alike visible none
      change (store.fieldValues (bindingEnv module names types') place raws).value = _ at fields
      rw [fields]
    · rw [if_pos (by simpa using none)] at clean
      exact absurd (Progress.clean_of_fail clean).2 none

/-- Bindings that are constructed without a fault are constructed alike. -/
theorem bindEach (respelled : store.Respelled x types types') {module : String}
    {names : List String} {lets : Location} {p : Progress} {bs bs' : List (String × BindingEntry)}
    (all : List.Forall₂ (store.Respells scope x) bs bs') (hidden : ∀ b ∈ bs, x ∉ b.2.body.bare)
    (clean : (store.bindEach (bindingEnv module names types) types lets p bs).value.Clean) :
    (store.bindEach (bindingEnv module names types') types' lets p bs').value =
      (store.bindEach (bindingEnv module names types) types lets p bs).value := by
  induction all generalizing p with
  | nil => rfl
  | @cons b b' rest rest' here _ ih =>
    rw [List.forall_mem_cons] at hidden
    have running : ¬ p.aborted = true := by
      rw [(clean_of_bindEach rfl clean).2]
      exact Bool.false_ne_true
    simp only [Store.bindEach, if_neg running, ← here.name, ← here.body] at clean ⊢
    rcases respelled.get?_cases b.1 with ⟨none, none'⟩ | ⟨t, u, typed, typed', -, equal⟩
    · simp only [none] at clean
      simp only [none, none']
      exact ih hidden.2 clean
    · -- The binding itself is of the host, which its type does not matter to.
      have same : (∃ code, b.2.body = .host code) ∨ t = u := by
        by_cases own : b.1 = x
        · exact Or.inl (here.host_of_eq own)
        · exact Or.inr (equal own)
      simp only [typed, Logged.value_bind] at clean
      simp only [typed, typed', Logged.value_bind]
      rw [respelled.bindOne same hidden.1 (clean_of_bindEach rfl clean)]
      exact ih hidden.2 clean

end Respelled

/-! ### Plans -/

/-- A plan with the aliases in the types of its steps expanded. -/
def expandPlan (store : Store) (p : Plan) : Plan :=
  { p with steps := p.steps.map fun s => { s with ty := store.normalize s.ty } }

theorem Respelled.stepsOf {x : String} {types types' : NameMap Ty}
    (respelled : store.Respelled x types types') (p : Progress) (order : List String) :
    (stepsOf p types' order).map (fun s => { s with ty := store.normalize s.ty }) =
      (stepsOf p types order).map fun s => { s with ty := store.normalize s.ty } := by
  unfold Store.stepsOf
  dsimp only
  rw [List.map_filterMap, List.map_filterMap]
  refine List.filterMap_congr fun name _ => ?_
  rcases respelled.get?_cases name with ⟨none, none'⟩ | ⟨t, u, typed, typed', expands, -⟩
  · rw [none, none']
  · rw [typed, typed']
    cases p.constructions.get? name with
    | none => rfl
    | some c => simp only [Option.map_some, expands]

/-- A plan is made where nothing is at fault. -/
theorem planIn_eq_ok {d : Document} {scope : ModuleScope} {g : Plan} :
    (store.planIn d scope).value = .ok g ↔
      (store.progressIn scope d).value.aborted = false ∧ ∃ p pipes order,
        (store.bindPipes (store.typesIn scope d) (d.location.child "pipe")
          (store.progressIn scope d).value 0 d.pipes).value = (p, pipes) ∧
        p.faults = [] ∧ graphFaults p.graph (d.location.child "let") = [] ∧
        p.graph.order = .ok order ∧
        g = ⟨d.origin, d.module, d.name, stepsOf p (store.typesIn scope d) order, pipes⟩ := by
  change (store.progressIn scope d >>= _).value = _ ↔ _
  rw [Logged.value_bind]
  cases (store.progressIn scope d).value.aborted with
  | true => simp
  | false =>
    rw [if_neg Bool.false_ne_true]
    change (store.bindPipes (store.typesIn scope d) (d.location.child "pipe")
      (store.progressIn scope d).value 0 d.pipes >>= _).value = _ ↔ _
    rw [Logged.value_bind]
    generalize (store.bindPipes (store.typesIn scope d) (d.location.child "pipe")
      (store.progressIn scope d).value 0 d.pipes).value = r
    obtain ⟨p, pipes⟩ := r
    dsimp only
    cases none : (p.faults ++ graphFaults p.graph (d.location.child "let")) with
    | cons f rest =>
      refine iff_of_false nofun ?_
      rintro ⟨-, q, flows, order, same, first, second, -⟩
      cases same
      rw [first, second] at none
      cases none
    | nil =>
      obtain ⟨first, second⟩ := List.append_eq_nil_iff.mp none
      cases sorted : p.graph.order with
      | error names =>
        refine iff_of_false nofun ?_
        rintro ⟨-, q, flows, order, same, -, -, sorted', -⟩
        cases same
        cases sorted.symm.trans sorted'
      | ok order =>
        constructor
        · intro found
          cases found
          exact ⟨rfl, p, pipes, order, rfl, first, second, sorted, rfl⟩
        · rintro ⟨-, q, flows, order', same, -, -, sorted', rfl⟩
          cases same
          cases sorted.symm.trans sorted'
          rfl

theorem clean_of_planIn {d : Document} {scope : ModuleScope} {g : Plan}
    (found : (store.planIn d scope).value = .ok g) : (store.progressIn scope d).value.Clean := by
  obtain ⟨running, p, pipes, order, taken, clear, -⟩ := planIn_eq_ok.mp found
  have piped : (store.bindPipes (store.typesIn scope d) (d.location.child "pipe")
      (store.progressIn scope d).value 0 d.pipes).value.1.faults = [] := by
    rw [taken, clear]
  exact ⟨faults_of_bindPipes piped, running⟩

/-- A document that has a plan has the same one under another spelling of a type, up to aliases. -/
theorem planIn_respells {d : Document} {scope : ModuleScope} {x : String}
    {bs : List (String × BindingEntry)}
    (all : List.Forall₂ (store.Respells scope x) d.bindings bs)
    (hidden : ∀ b ∈ d.bindings, x ∉ b.2.body.bare) {g : Plan}
    (found : (store.planIn d scope).value = .ok g) :
    ∃ g', (store.planIn { d with bindings := bs } scope).value = .ok g' ∧
      store.expandPlan g' = store.expandPlan g := by
  have respelled : store.Respelled x (store.typesIn scope d)
      (store.typesIn scope { d with bindings := bs }) :=
    Respells.respelled all (d.location.child "let")
  obtain ⟨running, p, pipes, order, taken, clear, acyclic, sorted, rfl⟩ := planIn_eq_ok.mp found
  have piped : (store.bindPipes (store.typesIn scope d) (d.location.child "pipe")
      (store.progressIn scope d).value 0 d.pipes).value.1.faults = [] := by
    rw [taken, clear]
  have entered : store.enteredIn scope { d with bindings := bs } = store.enteredIn scope d := by
    unfold enteredIn
    rw [Respells.names all, ← Respells.faults all (d.location.child "let")]
    rfl
  have progress : (store.progressIn scope { d with bindings := bs }).value =
      (store.progressIn scope d).value := by
    unfold progressIn
    rw [entered]
    unfold envIn
    rw [← Respells.names all]
    exact respelled.bindEach all hidden (clean_of_planIn found)
  have taken' : (store.bindPipes (store.typesIn scope { d with bindings := bs })
      (d.location.child "pipe") (store.progressIn scope { d with bindings := bs }).value 0
      d.pipes).value = (p, pipes) := by
    rw [progress, respelled.bindPipes piped, taken]
  exact ⟨_, planIn_eq_ok.mpr
      ⟨progress ▸ running, p, pipes, order, taken', clear, acyclic, sorted, rfl⟩,
    congrArg (Plan.mk _ _ _ · _) (respelled.stepsOf p order)⟩

end Store
end Pipeline

import Pipeline.Proofs.Scope.Binding

/-!
# Scopes built step by step

A scope grows by bindings of names and of extensions. What a run of such steps makes of a scope is
told by the steps as a collection: their order decides neither whether a step is refused nor,
globs that disagree apart, what a name stands for.
-/

set_option autoImplicit false
set_option relaxedAutoImplicit false

namespace Pipeline

/-- One thing entered into a scope. -/
inductive ScopeStep where
  | name (name : String) (symbol : Symbol) (strength : Strength)
  | extension (name path : String)
deriving DecidableEq, Repr

namespace ScopeStep

/-- The scope after the step, or the path it conflicts with. -/
def apply (scope : ModuleScope) : ScopeStep → Except String ModuleScope
  | name n symbol strength => scope.bind n symbol strength
  | extension n path => scope.bindExtension n path

/-- The binding of a name that the step is. -/
def binding? (wanted : String) : ScopeStep → Option Binding
  | name n symbol strength => if n = wanted then some ⟨symbol, strength⟩ else none
  | extension _ _ => none

/-- The extension that the step brings into scope under a name. -/
def extension? (wanted : String) : ScopeStep → Option String
  | name _ _ _ => none
  | extension n path => if n = wanted then some path else none

/-- True of steps that an import can lead to. -/
def IsImport : ScopeStep → Prop
  | name _ _ strength => strength ≠ .prelude
  | extension _ _ => True

end ScopeStep

namespace ModuleScope

/-- The scope after all the steps, or the path that the first one refused conflicts with. -/
def applyAll (scope : ModuleScope) (steps : List ScopeStep) : Except String ModuleScope :=
  steps.foldlM ScopeStep.apply scope

/-- The bindings of a name by a scope and by steps. -/
def bindings (base : ModuleScope) (steps : List ScopeStep) (name : String) : List Binding :=
  ((base.names.get? name).map fun e => ⟨e.symbol, e.strength⟩).toList ++
    steps.filterMap (ScopeStep.binding? name)

/-- The extensions under a name in a scope and by steps. -/
def extensionPaths (base : ModuleScope) (steps : List ScopeStep) (name : String) : List String :=
  (base.extensions.get? name).toList ++ steps.filterMap (ScopeStep.extension? name)

/-- No name is left undecided. -/
def Decided (scope : ModuleScope) : Prop :=
  ∀ name entry, scope.names.get? name = some entry → entry.rivals = []

/-- What a name was made by bindings. -/
def Summarized : Option NameEntry → List Binding → Prop
  | none, bindings => bindings = []
  | some entry, bindings => entry.Summarizes bindings

/-- What steps made of a scope, none of them refused. -/
structure Reflects (base : ModuleScope) (steps : List ScopeStep) (scope : ModuleScope) : Prop where
  names : ∀ name, Summarized (scope.names.get? name) (bindings base steps name)
  extensions : ∀ name path,
    scope.extensions.get? name = some path ↔ path ∈ extensionPaths base steps name

/-- Steps that do not contradict each other or the scope they start from. -/
structure Consistent (base : ModuleScope) (steps : List ScopeStep) : Prop where
  names : ∀ name, ∀ b ∈ bindings base steps name, ∀ c ∈ bindings base steps name,
    b.strength = .explicit → c.strength = .explicit → b.symbol = c.symbol
  extensions : ∀ name, ∀ path ∈ extensionPaths base steps name,
    ∀ other ∈ extensionPaths base steps name, path = other

/-- Scopes in which every name stands for the same, undecided names for the same rivals. -/
structure Agrees (a b : ModuleScope) : Prop where
  names : ∀ name, Option.Rel NameEntry.Agrees (a.names.get? name) (b.names.get? name)
  extensions : ∀ name, a.extensions.get? name = b.extensions.get? name

variable {base scope scope' : ModuleScope} {done steps : List ScopeStep} {step : ScopeStep}

theorem bind_eq_ok {name : String} {symbol : Symbol} {strength : Strength}
    (bound : scope.bind name symbol strength = .ok scope') :
    ∃ entry, (scope.names.get? name = none ∧ entry = ⟨symbol, strength, []⟩ ∨
        ∃ before, scope.names.get? name = some before ∧
          NameEntry.rebind before symbol strength = .ok entry) ∧
      scope' = { scope with names := scope.names.insert name entry } := by
  unfold bind at bound
  split at bound
  · rename_i fresh
    cases bound
    exact ⟨_, Or.inl ⟨fresh, rfl⟩, rfl⟩
  · rename_i before known
    split at bound
    · rename_i entry taken
      cases bound
      exact ⟨entry, Or.inr ⟨before, known, taken⟩, rfl⟩
    · cases bound

theorem bindExtension_eq_ok {name path : String}
    (bound : scope.bindExtension name path = .ok scope') :
    scope.extensions.get? name = some path ∧ scope' = scope ∨
      scope.extensions.get? name = none ∧
        scope' = { scope with extensions := scope.extensions.insert name path } := by
  unfold bindExtension at bound
  split at bound
  · rename_i other known
    split at bound
    · rename_i same
      cases bound
      exact Or.inl ⟨same ▸ known, rfl⟩
    · cases bound
  · rename_i fresh
    cases bound
    exact Or.inr ⟨fresh, rfl⟩

private theorem bindings_concat (name : String) :
    bindings base (done ++ [step]) name =
      bindings base done name ++ (step.binding? name).toList := by
  cases here : step.binding? name <;>
    simp [bindings, List.filterMap_append, here]

private theorem extensionPaths_concat (name : String) :
    extensionPaths base (done ++ [step]) name =
      extensionPaths base done name ++ (step.extension? name).toList := by
  cases here : step.extension? name <;>
    simp [extensionPaths, List.filterMap_append, here]

/-- Before the first step a scope without undecided names is what it is. -/
theorem Reflects.refl (decided : base.Decided) : Reflects base [] base where
  names name := by
    cases known : base.names.get? name with
    | none => simp [Summarized, bindings, known]
    | some entry =>
      obtain ⟨symbol, strength, rivals⟩ := entry
      obtain rfl : rivals = [] := decided name _ known
      simpa [Summarized, bindings, known] using NameEntry.summarizes_single symbol strength
  extensions name path := by simp [extensionPaths]

/-- One more step that is not refused. -/
theorem Reflects.concat (before : Reflects base done scope)
    (applied : step.apply scope = .ok scope') : Reflects base (done ++ [step]) scope' := by
  cases step with
  | name n symbol strength =>
    obtain ⟨entry, origin, rfl⟩ := bind_eq_ok applied
    refine ⟨fun other => ?_, fun other path => ?_⟩
    · have summary := before.names other
      rw [bindings_concat, NameMap.get?_insert]
      by_cases same : n = other
      · subst same
        simp only [if_pos, ScopeStep.binding?, Option.toList_some]
        rcases origin with ⟨fresh, rfl⟩ | ⟨entry', known, taken⟩
        · rw [fresh] at summary
          rw [show bindings base done n = [] from summary]
          exact NameEntry.summarizes_single symbol strength
        · rw [known] at summary
          exact NameEntry.Summarizes.rebind summary taken
      · simpa [ScopeStep.binding?, same] using summary
    · rw [extensionPaths_concat]
      simpa [ScopeStep.extension?] using before.extensions other path
  | extension n path =>
    refine ⟨fun other => ?_, fun other path' => ?_⟩
    · have summary := before.names other
      rw [bindings_concat]
      rcases bindExtension_eq_ok applied with ⟨-, rfl⟩ | ⟨-, rfl⟩ <;>
        simpa [ScopeStep.binding?] using summary
    · rw [extensionPaths_concat, List.mem_append, ← before.extensions other path']
      rcases bindExtension_eq_ok applied with ⟨known, rfl⟩ | ⟨fresh, rfl⟩
      · by_cases same : n = other
        · subst same
          simp [ScopeStep.extension?, known, eq_comm]
        · simp [ScopeStep.extension?, same]
      · rw [NameMap.get?_insert]
        by_cases same : n = other
        · subst same
          simp [ScopeStep.extension?, fresh, eq_comm]
        · simp [ScopeStep.extension?, same]

theorem Reflects.append (before : Reflects base done scope)
    (applied : scope.applyAll steps = .ok scope') : Reflects base (done ++ steps) scope' := by
  induction steps generalizing done scope with
  | nil =>
    cases applied
    simpa using before
  | cons first rest ih =>
    cases here : first.apply scope with
    | error path => simp [applyAll, here, Bind.bind, Except.bind] at applied
    | ok next =>
      have later : next.applyAll rest = .ok scope' := by
        simpa [applyAll, here, Bind.bind, Except.bind] using applied
      simpa using ih (before.concat here) later

/-- Steps none of which is refused do not contradict each other. -/
theorem Reflects.consistent (all : Reflects base steps scope) : Consistent base steps where
  names name b memberB c memberC explicitB explicitC := by
    have summary := all.names name
    cases known : scope.names.get? name with
    | none =>
      rw [known] at summary
      rw [show bindings base steps name = [] from summary] at memberB
      cases memberB
    | some entry =>
      rw [known] at summary
      exact (NameEntry.Summarizes.agreed summary b memberB explicitB).trans
        (NameEntry.Summarizes.agreed summary c memberC explicitC).symm
  extensions name path member other member' :=
    Option.some.inj (((all.extensions name path).mpr member).symm.trans
      ((all.extensions name other).mpr member'))

/-- A step that contradicts nothing before it is not refused. -/
theorem Reflects.progress (before : Reflects base done scope) (isImport : step.IsImport)
    (consistent : Consistent base (done ++ [step])) : ∃ scope', step.apply scope = .ok scope' := by
  cases step with
  | name n symbol strength =>
    have agrees := consistent.names n
    rw [bindings_concat] at agrees
    simp only [ScopeStep.binding?, if_pos, Option.toList_some, List.mem_append,
      List.mem_singleton] at agrees
    simp only [ScopeStep.apply, bind]
    have summary := before.names n
    split
    · exact ⟨_, rfl⟩
    · rename_i entry known
      rw [known] at summary
      obtain ⟨entry', taken⟩ := NameEntry.Summarizes.rebind_taken summary isImport
        fun explicit b member explicitB => agrees b (Or.inl member) _ (Or.inr rfl) explicitB explicit
      rw [taken]
      exact ⟨_, rfl⟩
  | extension n path =>
    have agrees := consistent.extensions n
    rw [extensionPaths_concat] at agrees
    simp only [ScopeStep.extension?, if_pos, Option.toList_some, List.mem_append,
      List.mem_singleton] at agrees
    simp only [ScopeStep.apply, bindExtension]
    split
    · rename_i other known
      have same : other = path :=
        agrees other (Or.inl ((before.extensions n other).mp known)) path (Or.inr rfl)
      rw [if_pos same]
      exact ⟨_, rfl⟩
    · exact ⟨_, rfl⟩

theorem Consistent.mono {others : List ScopeStep} (consistent : Consistent base steps)
    (fewer : ∀ s ∈ others, s ∈ steps) : Consistent base others := by
  have named {name : String} {b : Binding} (member : b ∈ bindings base others name) :
      b ∈ bindings base steps name := by
    simp only [bindings, List.mem_append, List.mem_filterMap] at member ⊢
    exact member.imp_right fun ⟨s, listed, here⟩ => ⟨s, fewer s listed, here⟩
  have extended {name path : String} (member : path ∈ extensionPaths base others name) :
      path ∈ extensionPaths base steps name := by
    simp only [extensionPaths, List.mem_append, List.mem_filterMap] at member ⊢
    exact member.imp_right fun ⟨s, listed, here⟩ => ⟨s, fewer s listed, here⟩
  exact ⟨fun name b memberB c memberC => consistent.names name b (named memberB) c (named memberC),
    fun name path member other member' =>
      consistent.extensions name path (extended member) other (extended member')⟩

/-- Steps that do not contradict each other are taken in any order. -/
theorem Reflects.run (before : Reflects base done scope) (imports : ∀ s ∈ steps, s.IsImport)
    (consistent : Consistent base (done ++ steps)) : ∃ scope', scope.applyAll steps = .ok scope' := by
  induction steps generalizing done scope with
  | nil => exact ⟨scope, rfl⟩
  | cons first rest ih =>
    obtain ⟨next, applied⟩ := before.progress (imports first List.mem_cons_self)
      (consistent.mono fun s member => by
        rcases List.mem_append.mp member with old | new
        · exact List.mem_append_left _ old
        · exact List.mem_append_right _ (List.mem_singleton.mp new ▸ List.mem_cons_self))
    obtain ⟨last, later⟩ := ih (before.concat applied)
      (fun s member => imports s (List.mem_cons_of_mem _ member)) (by simpa using consistent)
    refine ⟨last, ?_⟩
    simpa [applyAll, applied, Bind.bind, Except.bind] using later

private theorem eq_of_prelude_binding (imports : ∀ s ∈ steps, s.IsImport) {name : String}
    {b : Binding} (member : b ∈ bindings base steps name) (weak : b.strength = .prelude) :
    (base.names.get? name).map (fun e => ⟨e.symbol, e.strength⟩) = some b := by
  rcases List.mem_append.mp member with old | new
  · exact Option.mem_toList.mp old
  · obtain ⟨s, listed, here⟩ := List.mem_filterMap.mp new
    have isImport := imports s listed
    cases s with
    | name n symbol strength =>
      simp only [ScopeStep.binding?] at here
      split at here
      · cases here
        exact absurd weak isImport
      · cases here
    | extension n path => cases here

private theorem Summarized.agrees {known? other? : Option NameEntry} {bs others : List Binding}
    (summary : Summarized known? bs) (summary' : Summarized other? others)
    (same : ∀ b, b ∈ others ↔ b ∈ bs)
    (once : ∀ b ∈ bs, ∀ c ∈ bs, b.strength = .prelude → c.strength = .prelude →
      b.symbol = c.symbol) : Option.Rel NameEntry.Agrees known? other? := by
  cases known? with
  | none =>
    obtain rfl : bs = [] := summary
    cases other? with
    | none => exact .none
    | some other => cases (same _).mp (NameEntry.Summarizes.bound summary')
  | some entry =>
    cases other? with
    | none =>
      obtain rfl : others = [] := summary'
      cases (same _).mpr (NameEntry.Summarizes.bound summary)
    | some other => exact .some (NameEntry.Summarizes.agrees summary summary' same once)

/-- Two runs of the same steps lead to scopes that agree. -/
theorem Reflects.agrees {others : List ScopeStep} (all : Reflects base steps scope)
    (all' : Reflects base others scope') (imports : ∀ s ∈ steps, s.IsImport)
    (same : ∀ s, s ∈ others ↔ s ∈ steps) : scope.Agrees scope' where
  names name := by
    refine (all.names name).agrees (all'.names name) (by simp [bindings, same]) ?_
    intro b memberB c memberC weakB weakC
    have equal := (eq_of_prelude_binding imports memberB weakB).symm.trans
      (eq_of_prelude_binding imports memberC weakC)
    rw [Option.some.inj equal]
  extensions name := by
    refine Option.ext fun path => ?_
    rw [all.extensions name path, all'.extensions name path]
    simp [extensionPaths, same]

end ModuleScope
end Pipeline

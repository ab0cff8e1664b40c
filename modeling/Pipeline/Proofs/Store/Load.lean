import Pipeline.Proofs.Schema.Renumbering
import Pipeline.Proofs.Scope.Invariants
import Pipeline.Proofs.Store.Completion
import Pipeline.Proofs.Store.Declarations
import Pipeline.Store.Load

/-!
# Loading documents in any order

The order of documents decides nothing. Documents make a store in every order or in none, and in
the stores that they make obligations and calls are resolved in the same way, up to the numbers of
impls and to the order in which equally good candidates are listed.
-/

set_option autoImplicit false
set_option relaxedAutoImplicit false

namespace Pipeline.Store

/-! ### What a store is assembled of -/

/-- The names that documents declare. -/
def namesOf (ds : List Document) : Names := (Names.empty.addDocuments ds).1

/-- The scopes of documents, and the faults in them. -/
def scopesOf (ds : List Document) : NameMap ModuleScope × List Diagnostic :=
  ModuleScope.ofDocuments (namesOf ds).index ds

/-- The declarations of documents, and the faults in them. -/
def declarationsOf (ds : List Document) : Declarations × List Diagnostic :=
  Declarations.ofDocuments (namesOf ds).index (scopesOf ds).1 ds .empty

/-- What the impls of documents are completed with. -/
def contextOf (ds : List Document) : Context :=
  ⟨(declarationsOf ds).1.types, (declarationsOf ds).1.traits, (namesOf ds).origins⟩

/-- The impls of documents, and the faults in them. -/
def completedOf (ds : List Document) : List ImplDecl × List Diagnostic :=
  (ImplDecl.completeAll (contextOf ds) (declarationsOf ds).1.pending
    (declarationsOf ds).1.ports).value

/-- The store that documents make. -/
def ofDocuments (ds : List Document) (maxDepth : Nat) : Store :=
  ⟨(namesOf ds).index, (scopesOf ds).1, (declarationsOf ds).1.types, (declarationsOf ds).1.traits,
    (completedOf ds).1, (declarationsOf ds).1.extensions, (declarationsOf ds).1.schemas, maxDepth⟩

/-- No step of the assembly of documents finds a fault. -/
structure Sound (ds : List Document) : Prop where
  names : (namesOf ds).faults = []
  scopes : (scopesOf ds).2 = []
  declarations : (declarationsOf ds).2 = []
  impls : (completedOf ds).2 = []

/-- The first step with faults is the last. -/
private theorem assemble_value {ds all : List Document} (maxDepth : Nat)
    (whole : Prelude.document :: ds = all) :
    (assemble ds maxDepth).value =
      if !(namesOf all).faults.isEmpty then .error (namesOf all).faults
      else if !(scopesOf all).2.isEmpty then .error (scopesOf all).2
      else if !(declarationsOf all).2.isEmpty then .error (declarationsOf all).2
      else if !(completedOf all).2.isEmpty then .error (completedOf all).2
      else .ok (ofDocuments all maxDepth) := by
  -- The documents are kept under a name: the prelude is not to be looked into.
  unfold assemble
  rw [whole]
  cases declared : Names.empty.addDocuments all with
  | mk names kept =>
    have same : namesOf all = names := congrArg Prod.fst declared
    rw [same]
    dsimp only
    split
    · rfl
    · rename_i clean
      have faultless : (namesOf all).faults = [] := by simpa [same] using clean
      have documents : kept = all := by
        rw [← Names.addDocuments_kept all Names.empty faultless, declared]
      subst same documents
      change (if !(scopesOf kept).2.isEmpty then _ else
        if !(declarationsOf kept).2.isEmpty then _ else _ :
          Logged (Except (List Diagnostic) Store)).value = _
      split
      · rfl
      · split
        · rfl
        · change (if !(completedOf kept).2.isEmpty then _ else _ :
            Logged (Except (List Diagnostic) Store)).value = _
          split <;> rfl

theorem assemble_eq_ok {ds : List Document} {maxDepth : Nat} {s : Store} :
    (assemble ds maxDepth).value = .ok s ↔
      Sound (Prelude.document :: ds) ∧ ofDocuments (Prelude.document :: ds) maxDepth = s := by
  rw [assemble_value maxDepth rfl]
  generalize Prelude.document :: ds = all
  constructor
  · intro assembled
    repeat' split at assembled
    all_goals cases assembled
    rename_i names scopes declarations impls
    simp only [Bool.not_eq_true', Bool.not_eq_false, List.isEmpty_iff]
      at names scopes declarations impls
    exact ⟨⟨names, scopes, declarations, impls⟩, rfl⟩
  · rintro ⟨sound, rfl⟩
    simp [sound.names, sound.scopes, sound.declarations, sound.impls]

/-! ### Documents in another order -/

variable {ds ds' : List Document}

theorem Sound.once (sound : Sound ds) : DeclaredOnce ds :=
  (((Names.adds_addDocuments ds).faultless Names.empty).mp sound.names).2.once

private theorem Sound.namesOf_perm (sound : Sound ds) (perm : ds.Perm ds') :
    namesOf ds' = namesOf ds :=
  Names.addDocuments_perm perm Names.empty sound.names

private theorem Sound.scopesOf_perm (sound : Sound ds) (perm : ds.Perm ds') :
    (scopesOf ds).1 = (scopesOf ds').1 ∧ (scopesOf ds).2.Perm (scopesOf ds').2 := by
  rw [scopesOf, scopesOf, sound.namesOf_perm perm]
  exact ModuleScope.ofDocuments_perm (namesOf ds).index perm sound.once.modules

private theorem scopesOf_own (module : String) (scope : ModuleScope)
    (found : (scopesOf ds).1.get? module = some scope) : scope.module = module :=
  ModuleScope.ofDocuments_own found

private theorem Sound.declarationsOf_perm (sound : Sound ds) (perm : ds.Perm ds') :
    (declarationsOf ds).1.Same (declarationsOf ds').1 ∧
      (declarationsOf ds).2.Perm (declarationsOf ds').2 := by
  rw [declarationsOf, declarationsOf, sound.namesOf_perm perm, ← (sound.scopesOf_perm perm).1]
  exact Declarations.ofDocuments_perm scopesOf_own perm sound.once

private theorem Sound.contextOf_perm (sound : Sound ds) (perm : ds.Perm ds') :
    contextOf ds' = contextOf ds := by
  have same := (sound.declarationsOf_perm perm).1
  simp only [contextOf, sound.namesOf_perm perm, same.types, same.traits]

/-- Documents that make a store make it in every order, but for the order of its impls. -/
theorem Sound.perm (sound : Sound ds) (perm : ds.Perm ds') (maxDepth : Nat) :
    Sound ds' ∧ ∃ σ : Equiv.Perm Nat,
      (ofDocuments ds maxDepth).Reorders σ (completedOf ds').1 ∧
        ofDocuments ds' maxDepth = (ofDocuments ds maxDepth).withImpls (completedOf ds').1 := by
  have names := sound.namesOf_perm perm
  obtain ⟨scopes, scopeFaults⟩ := sound.scopesOf_perm perm
  obtain ⟨declarations, declarationFaults⟩ := sound.declarationsOf_perm perm
  have context := sound.contextOf_perm perm
  have own (path : String) (decl : TypeDecl)
      (found : (contextOf ds).types.get? path = some decl) : decl.path = path :=
    Declarations.types_path found
  obtain ⟨clean, σ, impls, impl?⟩ := ImplDecl.completeAll_perm own declarations.pending
    declarations.ports (Declarations.ports_once scopesOf_own sound.once) sound.impls
  have completed : completedOf ds' = (ImplDecl.completeAll (contextOf ds)
      (declarationsOf ds').1.pending (declarationsOf ds').1.ports).value := by
    rw [completedOf, context]
  refine ⟨⟨names ▸ sound.names, ?_, ?_, completed ▸ clean⟩, σ, ?_, ?_⟩
  · exact List.perm_nil.mp (sound.scopes ▸ scopeFaults.symm)
  · exact List.perm_nil.mp (sound.declarations ▸ declarationFaults.symm)
  · exact ⟨completed ▸ impls, completed ▸ impl?⟩
  · simp only [ofDocuments, withImpls, names, ← scopes, ← declarations.types,
      ← declarations.traits, ← declarations.extensions, ← declarations.schemas]

theorem load_eq_ok {maxDepth : Nat} {s : Store} :
    (load ds maxDepth).value = .ok s ↔
      (assemble ds maxDepth).value = .ok s ∧ s.verifyDefaults.value = [] := by
  unfold load
  simp only [Logged.value_bind]
  cases (assemble ds maxDepth).value with
  | error faults => simp
  | ok store =>
    simp only [Logged.value_bind, Except.ok.injEq]
    split
    · rename_i faulty
      simp only [Bool.not_eq_true', List.isEmpty_eq_false_iff] at faulty
      refine iff_of_false nofun ?_
      rintro ⟨rfl, clean⟩
      exact faulty clean
    · rename_i clean
      simp only [Bool.not_eq_true', Bool.not_eq_false, List.isEmpty_iff] at clean
      simp only [Logged.value_bind, Logged.value_pure, Except.ok.injEq]
      refine (and_iff_left_of_imp ?_).symm
      rintro rfl
      exact clean

/-- A store that loads is made of sound documents. -/
theorem sound_of_load {maxDepth : Nat} {s : Store} (loaded : (load ds maxDepth).value = .ok s) :
    Sound (Prelude.document :: ds) ∧ ofDocuments (Prelude.document :: ds) maxDepth = s :=
  assemble_eq_ok.mp (load_eq_ok.mp loaded).1

/-- Stores that resolve obligations and calls in the same way, up to the numbers of impls and to
the order in which equally good candidates are listed. -/
structure Alike (σ : Equiv.Perm Nat) (s s' : Store) : Prop where
  /-- The impl of a number in one store is the one of the new number in the other. -/
  impl? : ∀ i, s'.impl? (σ i) = (s.impl? i).map (·.renumber σ)
  resolve : ∀ ty t, Resolution.Renumbered σ (s.resolve ty t).value (s'.resolve ty t).value
  resolveTo : ∀ depth ty t,
    Resolution.Renumbered σ (s.resolveTo depth ty t).value (s'.resolveTo depth ty t).value
  resolveCall : ∀ receiver name visible, MethodResolution.Renumbered σ
    (s.resolveCall receiver name visible).value (s'.resolveCall receiver name visible).value

theorem Reorders.alike {s : Store} {σ : Equiv.Perm Nat} {impls : List ImplDecl}
    (reorders : s.Reorders σ impls) : s.Alike σ (s.withImpls impls) where
  impl? := reorders.impl
  resolve := resolve_agree reorders
  resolveTo := resolveTo_agree reorders
  resolveCall := resolveCall_agree reorders

/-- Documents that load make a store in every order, and the stores are alike. -/
private theorem load_perm (perm : ds.Perm ds') {maxDepth : Nat} {s : Store}
    (loaded : (load ds maxDepth).value = .ok s) :
    ∃ s', (load ds' maxDepth).value = .ok s' ∧ ∃ σ, s.Alike σ s' := by
  obtain ⟨assembled, defaults⟩ := load_eq_ok.mp loaded
  obtain ⟨sound, rfl⟩ := assemble_eq_ok.mp assembled
  obtain ⟨sound', σ, reorders, same⟩ := sound.perm (perm.cons Prelude.document) maxDepth
  refine ⟨_, load_eq_ok.mpr ⟨assemble_eq_ok.mpr ⟨sound', same⟩, ?_⟩, σ, reorders.alike⟩
  exact (verifyDefaults_agree reorders).mpr defaults

/-- The order of documents does not matter: they load in every order or in none, and obligations
and calls are resolved in the same way in the stores that they make. -/
theorem load_order_irrelevant (ds ds' : List Document) (perm : ds.Perm ds') (maxDepth : Nat) :
    ((∃ s, (load ds maxDepth).value = .ok s) ↔ ∃ s', (load ds' maxDepth).value = .ok s') ∧
      ∀ s s', (load ds maxDepth).value = .ok s → (load ds' maxDepth).value = .ok s' →
        ∃ σ : Equiv.Perm Nat, s.Alike σ s' := by
  refine ⟨⟨?_, ?_⟩, ?_⟩
  · rintro ⟨s, loaded⟩
    obtain ⟨s', loaded', -⟩ := load_perm perm loaded
    exact ⟨s', loaded'⟩
  · rintro ⟨s', loaded'⟩
    obtain ⟨s, loaded, -⟩ := load_perm perm.symm loaded'
    exact ⟨s, loaded⟩
  · intro s s' loaded loaded'
    obtain ⟨other, again, alike⟩ := load_perm perm loaded
    rw [loaded'] at again
    cases again
    exact alike

/-- A document of one type whose values can be compared. -/
def comparable (module type : String) : Document where
  module := module
  origin := module
  version := supportedVersion
  kind := .struct
  types := [(type, Prelude.nativeType [])]
  impls := [Prelude.equality type]

/-- Two documents, each with an impl, make stores in which the impls have changed places. -/
theorem load_order_irrelevant_two :
    [comparable "a" "A", comparable "b" "B"].Perm [comparable "b" "B", comparable "a" "A"] ∧
      ∃ s s', (load [comparable "a" "A", comparable "b" "B"] 4).value = .ok s ∧
        (load [comparable "b" "B", comparable "a" "A"] 4).value = .ok s' ∧
        (s.impls.map (·.target) ≠ s'.impls.map (·.target)) ∧ ∃ σ, s.Alike σ s' := by
  have swapped : [comparable "a" "A", comparable "b" "B"].Perm
      [comparable "b" "B", comparable "a" "A"] := List.Perm.swap _ _ []
  -- One evaluation for both facts: the first documents load, and the impls change places.
  have moved : ((load [comparable "a" "A", comparable "b" "B"] 4).value.toOption.map
        fun s => s.impls.map (·.target)).isSome = true ∧
      (load [comparable "a" "A", comparable "b" "B"] 4).value.toOption.map
          (fun s => s.impls.map (·.target)) ≠
        (load [comparable "b" "B", comparable "a" "A"] 4).value.toOption.map
          fun s => s.impls.map (·.target) := by
    decide +kernel
  obtain ⟨both, alike⟩ := load_order_irrelevant _ _ swapped 4
  cases loaded : (load [comparable "a" "A", comparable "b" "B"] 4).value with
  | error faults =>
    rw [loaded] at moved
    cases moved.1
  | ok s =>
    obtain ⟨s', loaded'⟩ := both.mp ⟨s, loaded⟩
    refine ⟨swapped, s, s', rfl, loaded', ?_, alike s s' loaded loaded'⟩
    rw [loaded, loaded'] at moved
    exact fun same => moved.2 (congrArg some same)

end Pipeline.Store

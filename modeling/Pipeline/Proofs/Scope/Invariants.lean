import Pipeline.Proofs.Data.Insertion
import Pipeline.Proofs.Scope.Steps
import Pipeline.Store.Load

/-!
# What binding names preserves

The scope of a document is made by binding symbols and extensions, one after another. A property
of scopes that each of these steps preserves is thus one of the scope of the document. The symbols
bound are those of declared paths and the one of the component; before the imports none of them is
bound by a glob.
-/

set_option autoImplicit false
set_option relaxedAutoImplicit false

namespace Pipeline.ModuleScope

/-- A property of scopes that is preserved by binding the symbols that may be bound with a
strength, and by bringing extensions into scope. -/
structure Invariant (property : ModuleScope → Prop) (bindable : Symbol → Strength → Prop) :
    Prop where
  bind : ∀ {scope scope' : ModuleScope} {name : String} {symbol : Symbol} {strength : Strength},
    property scope → bindable symbol strength → scope.bind name symbol strength = .ok scope' →
      property scope'
  bindExtension : ∀ {scope scope' : ModuleScope} {name path : String},
    property scope → scope.bindExtension name path = .ok scope' → property scope'

variable {index : SymbolIndex} {scope : ModuleScope} {property : ModuleScope → Prop}
  {bindable : Symbol → Strength → Prop}

namespace Invariant

variable (invariant : Invariant property bindable)

include invariant

/-! ### Imports -/

theorem bindPath {name path : String} {strength : Strength} (holds : property scope)
    (declared : ∀ symbol, index.symbol? path = some symbol → bindable symbol strength) :
    property (scope.bindPath index name path strength).1 := by
  unfold ModuleScope.bindPath
  dsimp only
  split
  · exact holds
  · rename_i next named
    have bound : property next := by
      split at named
      · rename_i symbol found
        exact invariant.bind holds (declared symbol found) named
      · cases named
        exact holds
    split
    · split
      · exact bound
      · rename_i extended
        exact invariant.bindExtension bound extended
    · exact bound

theorem bindMembers {module : String} {strength : Strength} {members : List String}
    (holds : property scope)
    (declared : ∀ path symbol, index.symbol? path = some symbol → bindable symbol strength) :
    property (scope.bindMembers index module strength members).1 := by
  induction members generalizing scope with
  | nil => exact holds
  | cons name rest ih =>
    have first : property (scope.bindPath index name (Path.child module name) strength).1 :=
      invariant.bindPath holds (declared _)
    unfold ModuleScope.bindMembers
    split
    · rename_i bound
      rw [bound] at first
      exact ih first
    · rename_i bound
      rw [bound] at first
      exact first

variable (imported : ∀ path symbol strength, index.symbol? path = some symbol →
  strength ≠ .prelude → bindable symbol strength)

include imported

theorem bindImport {written : String} (holds : property scope) :
    property (scope.bindImport index written).1 := by
  unfold ModuleScope.bindImport
  dsimp only
  split
  · split
    · exact holds
    · split
      · exact holds
      · exact invariant.bindMembers holds fun path symbol found =>
          imported path symbol _ found (by decide)
  · split
    · exact invariant.bindPath holds fun symbol found => imported _ symbol _ found (by decide)
    · exact holds

theorem bindImports {place : Location} {i : Nat} {uses : List String} (holds : property scope) :
    property (scope.bindImports index place i uses).1 := by
  induction uses generalizing scope i with
  | nil => exact holds
  | cons written rest ih =>
    simp only [ModuleScope.bindImports]
    exact ih (invariant.bindImport imported holds)

omit imported

/-! ### The prelude and the names of the module itself -/

variable (named : ∀ path symbol strength, index.symbol? path = some symbol →
  strength ≠ .glob → bindable symbol strength)

include named

theorem bindPrelude (holds : property scope) : property (scope.bindPrelude index) := by
  unfold ModuleScope.bindPrelude
  split
  · exact holds
  · refine List.foldlRecOn (motive := property) _ _ holds fun scope before name _ => ?_
    split
    · rename_i symbol found
      split
      · rename_i bound
        exact invariant.bind before (named _ symbol _ found (by decide)) bound
      · exact before
    · exact before

theorem bindOwnSymbol {place : Location} {name path : String} (holds : property scope) :
    property (scope.bindOwnSymbol index place name path).1 := by
  unfold ModuleScope.bindOwnSymbol
  split
  · rename_i symbol found
    split
    · rename_i bound
      exact invariant.bind holds (named path symbol _ found (by decide)) bound
    · exact holds
  · exact holds

omit named in
theorem bindOwnExtension {place : Location} {name path : String} (holds : property scope) :
    property (scope.bindOwnExtension index place name path).1 := by
  unfold ModuleScope.bindOwnExtension
  split
  · split
    · rename_i bound
      exact invariant.bindExtension holds bound
    · exact holds
  · exact holds

theorem bindOwn {place : Location} {members : List String} (holds : property scope) :
    property (scope.bindOwn index place members).1 := by
  induction members generalizing scope with
  | nil => exact holds
  | cons name rest ih =>
    exact ih (invariant.bindOwnExtension (invariant.bindOwnSymbol named holds))

omit named

variable {d : Document} (component : d.isPlain = false → bindable ⟨.type, d.module⟩ .explicit)

include component

theorem bindComponent (holds : property scope) : property (scope.bindComponent d).1 := by
  unfold ModuleScope.bindComponent
  split
  · exact holds
  · rename_i role
    split
    · rename_i bound
      exact invariant.bind holds (component (by simpa using role)) bound
    · exact holds

include named imported

/-- What each step preserves holds of the scope of a document. -/
theorem ofDocument (holds : property (.empty d.module d.origin)) :
    property (ofDocument index d).1 :=
  invariant.bindImports imported
    (invariant.bindComponent component (invariant.bindOwn named (invariant.bindPrelude named holds)))

end Invariant
end Pipeline.ModuleScope

/-! ### Scopes of documents in any order

The scope of a document is the scope of its module, whatever is bound in it. Documents of different
modules thus have the same scopes in every order. -/

namespace Pipeline.ModuleScope

/-- Binding names leaves a scope the one of its module. -/
private theorem invariant_module (module : String) :
    Invariant (fun scope => scope.module = module) fun _ _ => True where
  bind same _ bound := by
    obtain ⟨entry, -, rfl⟩ := bind_eq_ok bound
    exact same
  bindExtension same bound := by
    rcases bindExtension_eq_ok bound with ⟨-, rfl⟩ | ⟨-, rfl⟩ <;> exact same

/-- The scope of a document is the scope of its module. -/
theorem ofDocument_module (index : SymbolIndex) (d : Document) :
    (ofDocument index d).1.module = d.module :=
  (invariant_module d.module).ofDocument (fun _ _ _ _ _ => trivial) (fun _ _ _ _ _ => trivial)
    (fun _ => trivial) rfl

/-- The scopes of documents of different modules do not depend on their order. -/
theorem ofDocuments_perm (index : SymbolIndex) {ds ds' : List Document} (perm : ds.Perm ds')
    (once : (ds.map (·.module)).Nodup) :
    (ofDocuments index ds).1 = (ofDocuments index ds').1 ∧
      (ofDocuments index ds).2.Perm (ofDocuments index ds').2 := by
  have bound := perm.map (ofDocument index)
  refine ⟨NameMap.ofList_perm (bound.map _) ?_, bound.flatMap_right _⟩
  simpa only [List.map_map, Function.comp_def, ofDocument_module] using once

/-- Each scope is found under its own module. -/
theorem ofDocuments_own {index : SymbolIndex} {ds : List Document} {module : String}
    {scope : ModuleScope} (found : (ofDocuments index ds).1.get? module = some scope) :
    scope.module = module := by
  have member := NameMap.mem_of_get?_ofList found
  obtain ⟨b, -, same⟩ := List.mem_map.mp member
  cases same
  rfl

end Pipeline.ModuleScope

import Mathlib.Data.List.Basic
import Pipeline.Proofs.Scope.Invariants
import Pipeline.Proofs.Scope.Steps

/-!
# The order of imports

The imports of a document are steps on the scope that its prelude and its own names make, so their
order decides nothing but which of several rivals a name keeps that globs leave undecided. Nothing
asks for that symbol, except a path that goes on behind the name.
-/

set_option autoImplicit false
set_option relaxedAutoImplicit false

namespace Pipeline

/-- The paths that the prelude and documents declare. -/
def Names.indexOf (documents : List Document) : SymbolIndex :=
  (Names.empty.addDocuments (Prelude.document :: documents)).1.index

/-- The document with other imports. -/
def Document.importing (d : Document) (uses : List String) : Document := { d with uses := uses }

/-- What a document imports is nothing that it declares. -/
theorem Names.indexOf_importing (before after : List Document) (d : Document)
    (uses : List String) :
    indexOf (before ++ d.importing uses :: after) = indexOf (before ++ d :: after) := by
  have names (documents : List Document) (n : Names) :
      (n.addDocuments (documents ++ d.importing uses :: after)).1 =
        (n.addDocuments (documents ++ d :: after)).1 := by
    induction documents generalizing n with
    | nil =>
      have same : n.addDocument (d.importing uses) = n.addDocument d := rfl
      simp only [List.nil_append, addDocuments, same]
    | cons first rest ih => simp only [List.cons_append, addDocuments, ih]
  exact congrArg Names.index (names (Prelude.document :: before) .empty)

namespace ModuleScope

/-- The steps by which a path enters a scope under a name. -/
def pathSteps (index : SymbolIndex) (name path : String) (strength : Strength) :
    List ScopeStep :=
  ((index.symbol? path).map fun symbol => .name name symbol strength).toList ++
    if index.extensions.contains path then [.extension name path] else []

/-- The steps that an import stands for, unless it is a fault in every scope. -/
def importSteps? (index : SymbolIndex) (written : String) : Option (List ScopeStep) :=
  let i := Import.ofText written
  if i.isGlob then
    if i.givenName.isSome then none
    else (index.modules.get? i.path).map fun members =>
      members.flatMap fun name => pathSteps index name (Path.child i.path name) .glob
  else if (index.symbol? i.path).isSome || index.extensions.contains i.path then
    some (pathSteps index (i.givenName.getD (Path.last i.path)) i.path .explicit)
  else none

/-- The steps that imports stand for. -/
def importSteps (index : SymbolIndex) (uses : List String) : List ScopeStep :=
  uses.flatMap fun written => (importSteps? index written).getD []

/-- The names that a module sees before the imports of its document are bound. -/
def beforeImports (index : SymbolIndex) (d : Document) : ModuleScope × List Diagnostic :=
  let own := ((empty d.module d.origin).bindPrelude index).bindOwn index d.location
    (index.members d.module)
  let component := own.1.bindComponent d
  (component.1, own.2 ++ component.2)

theorem ofDocument_eq (index : SymbolIndex) (d : Document) :
    ofDocument index d =
      (((beforeImports index d).1.bindImports index ((d.location.child "permute").child "use")
          0 d.uses).1,
        (beforeImports index d).2 ++ ((beforeImports index d).1.bindImports index
          ((d.location.child "permute").child "use") 0 d.uses).2) := rfl

variable {index : SymbolIndex} {scope scope' : ModuleScope}

@[simp] theorem applyAll_nil : scope.applyAll [] = .ok scope := rfl

@[simp] theorem applyAll_cons (step : ScopeStep) (steps : List ScopeStep) :
    scope.applyAll (step :: steps) = step.apply scope >>= fun s => s.applyAll steps := rfl

/-- Steps are taken if the first of them are, and then the others. -/
theorem applyAll_append_eq_ok {steps others : List ScopeStep} :
    scope.applyAll (steps ++ others) = .ok scope' ↔
      ∃ next, scope.applyAll steps = .ok next ∧ next.applyAll others = .ok scope' := by
  rw [applyAll, List.foldlM_append]
  cases taken : scope.applyAll steps <;>
    simp [applyAll, show steps.foldlM ScopeStep.apply scope = _ from taken, Bind.bind, Except.bind]

theorem bindPath_iff {name path : String} {strength : Strength} :
    scope.bindPath index name path strength = (scope', none) ↔
      scope.applyAll (pathSteps index name path strength) = .ok scope' := by
  unfold bindPath pathSteps
  cases index.symbol? path with
  | none =>
    by_cases extended : path ∈ index.extensions
    · cases entered : scope.bindExtension name path <;>
        simp [extended, entered, ScopeStep.apply, Bind.bind, Except.bind]
    · simp [extended]
  | some symbol =>
    cases bound : scope.bind name symbol strength with
    | error other => simp [bound, ScopeStep.apply, Bind.bind, Except.bind]
    | ok next =>
      by_cases extended : path ∈ index.extensions
      · cases entered : next.bindExtension name path <;>
          simp [bound, extended, entered, ScopeStep.apply, Bind.bind, Except.bind]
      · simp [bound, extended, ScopeStep.apply, Bind.bind, Except.bind]

theorem bindMembers_iff {module : String} {strength : Strength} {members : List String} :
    scope.bindMembers index module strength members = (scope', none) ↔
      scope.applyAll (members.flatMap fun name =>
        pathSteps index name (Path.child module name) strength) = .ok scope' := by
  induction members generalizing scope with
  | nil => simp [bindMembers]
  | cons name rest ih =>
    rw [List.flatMap_cons, applyAll_append_eq_ok]
    simp only [← bindPath_iff, ← ih, bindMembers]
    rcases scope.bindPath index name (Path.child module name) strength with ⟨next, none | fault⟩ <;>
      simp

/-- An import is no fault if it stands for steps none of which is refused. -/
theorem bindImport_iff {written : String} :
    scope.bindImport index written = (scope', none) ↔
      ∃ steps, importSteps? index written = some steps ∧ scope.applyAll steps = .ok scope' := by
  simp only [bindImport, importSteps?]
  split
  · split
    · simp
    · cases index.modules.get? (Import.ofText written).path <;> simp [bindMembers_iff]
  · split <;> simp [bindPath_iff]

/-- Imports are no faults if each stands for steps and none of these is refused. -/
theorem bindImports_iff {place : Location} {i : Nat} {uses : List String} :
    scope.bindImports index place i uses = (scope', []) ↔
      (∀ written ∈ uses, (importSteps? index written).isSome) ∧
        scope.applyAll (importSteps index uses) = .ok scope' := by
  induction uses generalizing scope i with
  | nil => simp [bindImports, importSteps]
  | cons written rest ih =>
    have first : scope.bindImports index place i (written :: rest) = (scope', []) ↔
        ∃ next, scope.bindImport index written = (next, none) ∧
          next.bindImports index place (i + 1) rest = (scope', []) := by
      simp only [bindImports]
      rcases scope.bindImport index written with ⟨next, none | fault⟩ <;> simp [Prod.ext_iff]
    simp only [first, bindImport_iff, ih, importSteps, List.flatMap_cons, applyAll_append_eq_ok]
    cases steps : importSteps? index written with
    | none => simp [steps]
    | some taken =>
      constructor
      · rintro ⟨next, ⟨_, same, here⟩, others, later⟩
        cases same
        exact ⟨by simpa [steps] using others, next, here, later⟩
      · rintro ⟨others, next, here, later⟩
        exact ⟨next, ⟨_, rfl, here⟩, by simpa [steps] using others, later⟩

/-- A binding that is none by a glob leaves no name undecided. -/
private theorem invariant_decided : Invariant Decided fun _ strength => strength ≠ .glob where
  bind := by
    intro scope scope' name symbol strength decided notGlob bound
    obtain ⟨entry, origin, rfl⟩ := bind_eq_ok bound
    intro other found known
    rw [NameMap.get?_insert] at known
    split at known
    · cases known
      rcases origin with ⟨-, rfl⟩ | ⟨before, known, taken⟩
      · rfl
      · rcases NameEntry.rebind_eq_ok taken with
          ⟨-, rfl⟩ | ⟨-, rfl⟩ | ⟨-, -, rfl⟩ | ⟨-, glob, -, -⟩
        · rfl
        · exact decided _ _ known
        · exact decided _ _ known
        · exact absurd glob notGlob
    · exact decided other found known
  bindExtension decided bound := by
    rcases bindExtension_eq_ok bound with ⟨-, rfl⟩ | ⟨-, rfl⟩ <;> exact decided

/-- Only globs leave names undecided. -/
theorem beforeImports_decided (index : SymbolIndex) (d : Document) :
    (beforeImports index d).1.Decided := by
  have nothing : (empty d.module d.origin).Decided := nofun
  have named : ∀ path symbol strength, index.symbol? path = some symbol →
      strength ≠ Strength.glob → strength ≠ Strength.glob := fun _ _ _ _ other => other
  exact invariant_decided.bindComponent (fun _ => by decide)
    (invariant_decided.bindOwn named (invariant_decided.bindPrelude named nothing))

private theorem isImport_of_mem_pathSteps {name path : String} {strength : Strength}
    (imported : strength ≠ .prelude) {step : ScopeStep}
    (member : step ∈ pathSteps index name path strength) : step.IsImport := by
  unfold pathSteps at member
  rcases List.mem_append.mp member with named | extended
  · obtain ⟨symbol, -, rfl⟩ := Option.map_eq_some_iff.mp (Option.mem_toList.mp named)
    exact imported
  · split at extended
    · rw [List.mem_singleton.mp extended]
      trivial
    · cases extended

private theorem isImport_of_mem_importSteps {uses : List String} {step : ScopeStep}
    (member : step ∈ importSteps index uses) : step.IsImport := by
  obtain ⟨written, -, here⟩ := List.mem_flatMap.mp member
  simp only [importSteps?] at here
  split at here
  · split at here
    · cases here
    · cases members : index.modules.get? (Import.ofText written).path with
      | none =>
        rw [members] at here
        cases here
      | some names =>
        rw [members] at here
        obtain ⟨name, -, inside⟩ := List.mem_flatMap.mp here
        exact isImport_of_mem_pathSteps (by decide) inside
  · split at here
    · exact isImport_of_mem_pathSteps (by decide) here
    · cases here

variable {d : Document} {uses : List String}

/-- The imports of a document without faults can be written in any order, and the names it sees
stand for the same then. -/
theorem ofDocument_importing (perm : d.uses.Perm uses) (clean : (ofDocument index d).2 = []) :
    (ofDocument index (d.importing uses)).2 = [] ∧
      (ofDocument index d).1.Agrees (ofDocument index (d.importing uses)).1 := by
  have start : Reflects (beforeImports index d).1 [] (beforeImports index d).1 :=
    .refl (beforeImports_decided index d)
  have parts := clean
  rw [ofDocument_eq] at parts
  obtain ⟨own, imports⟩ := List.append_eq_nil_iff.mp parts
  obtain ⟨stand, applied⟩ := bindImports_iff.mp (Prod.ext rfl imports)
  have all : Reflects (beforeImports index d).1 (importSteps index d.uses)
    (ofDocument index d).1 := start.append applied
  have same : ∀ step, step ∈ importSteps index uses ↔ step ∈ importSteps index d.uses :=
    fun step => (perm.flatMap_right _).symm.mem_iff
  have consistent : Consistent (beforeImports index d).1 (importSteps index uses) :=
    all.consistent.mono fun step member => (same step).mp member
  obtain ⟨scope', applied'⟩ := start.run (fun _ => isImport_of_mem_importSteps) consistent
  have all' : Reflects (beforeImports index d).1 (importSteps index uses) scope' :=
    start.append applied'
  have bound : (beforeImports index d).1.bindImports index
      ((d.location.child "permute").child "use") 0 uses = (scope', []) :=
    bindImports_iff.mpr ⟨fun written member => stand written (perm.mem_iff.mpr member), applied'⟩
  have whole : ofDocument index (d.importing uses) = (scope', []) := by
    have before : beforeImports index (d.importing uses) = beforeImports index d := rfl
    have place : (d.importing uses).location = d.location := rfl
    have written : (d.importing uses).uses = uses := rfl
    rw [ofDocument_eq, before, place, written, bound, own]
    rfl
  rw [whole]
  exact ⟨rfl, all.agrees all' (fun _ => isImport_of_mem_importSteps) same⟩

/-- The name that a path of several segments starts from is not left undecided. -/
def StartsDecided (scope : ModuleScope) (written : String) : Prop :=
  ∀ parts ∈ splitFirst? written, ∀ entry ∈ scope.names.get? parts.1, entry.rivals = []

instance (scope : ModuleScope) (written : String) : Decidable (scope.StartsDecided written) :=
  inferInstanceAs (Decidable (∀ parts ∈ splitFirst? written, ∀ entry ∈ scope.names.get? parts.1,
    entry.rivals = []))

private theorem Agrees.entries (agrees : scope.Agrees scope') (name : String) :
    (scope.names.get? name = none ∧ scope'.names.get? name = none) ∨
      ∃ entry entry', scope.names.get? name = some entry ∧
        scope'.names.get? name = some entry' ∧ entry.Agrees entry' := by
  have entries := agrees.names name
  generalize scope.names.get? name = here, scope'.names.get? name = there at entries
  cases entries with
  | none => exact Or.inl ⟨rfl, rfl⟩
  | some agree => exact Or.inr ⟨_, _, rfl, rfl, agree⟩

theorem Agrees.expand? (agrees : scope.Agrees scope') {first : String}
    (decided : ∀ entry, scope.names.get? first = some entry → entry.rivals = [])
    (more : List String) : scope'.expand? first more = scope.expand? first more := by
  have same : scope'.lookup? first = scope.lookup? first := by
    unfold lookup?
    rcases agrees.entries first with ⟨none, none'⟩ | ⟨entry, entry', known, known', agree⟩
    · rw [none, none']
    · rw [known, known', Option.map_some, Option.map_some, agree.symbol (decided entry known)]
  simp only [ModuleScope.expand?, same]

theorem Agrees.resolvePath (agrees : scope.Agrees scope') {written : String}
    (decided : scope.StartsDecided written) :
    scope'.resolvePath written index = scope.resolvePath written index := by
  unfold ModuleScope.resolvePath
  split
  · rename_i first second rest segments
    have starts := decided (first, second :: rest) (by simp [splitFirst?, segments])
    rw [agrees.expand? starts]
  · rcases agrees.entries written with ⟨none, none'⟩ | ⟨entry, entry', known, known', agree⟩
    · simp [none, none']
    · by_cases one : entry.rivals = []
      · simp [known, known', ← agree.rivals, one, agree.symbol one]
      · simp [known, known', ← agree.rivals, one]

theorem Agrees.resolveExtension? (agrees : scope.Agrees scope') {written : String}
    (decided : scope.StartsDecided written) :
    scope'.resolveExtension? written index = scope.resolveExtension? written index := by
  unfold ModuleScope.resolveExtension?
  rw [agrees.extensions written]
  split
  · rfl
  · split
    · rename_i first second rest segments
      have starts := decided (first, second :: rest) (by simp [splitFirst?, segments])
      rw [agrees.expand? starts]
    · rfl

/-- The order in which a document without faults writes its imports decides nothing: it still has
no faults, and what each path names, or why it names nothing, is the same, except where a path goes
on behind a name that globs leave undecided. -/
theorem resolution_of_reordered_imports (before after : List Document) (d : Document)
    (uses : List String) (perm : d.uses.Perm uses)
    (clean : (ofDocument (Names.indexOf (before ++ d :: after)) d).2 = []) :
    let index := Names.indexOf (before ++ d :: after)
    let index' := Names.indexOf (before ++ d.importing uses :: after)
    let scope := (ofDocument index d).1
    let scope' := (ofDocument index' (d.importing uses)).1
    (ofDocument index' (d.importing uses)).2 = [] ∧
      ∀ written, scope.StartsDecided written →
        scope'.resolvePath written index' = scope.resolvePath written index ∧
        scope'.resolveExtension? written index' = scope.resolveExtension? written index := by
  intro index index' scope scope'
  have same : index' = index := Names.indexOf_importing before after d uses
  obtain ⟨clean', agrees⟩ := ofDocument_importing perm clean
  simp only [scope', same]
  exact ⟨clean', fun written decided => ⟨agrees.resolvePath decided, agrees.resolveExtension? decided⟩⟩

/-- A document of plain declarations. -/
def plainDocument (module : String) (types : List (String × TypeEntry)) (uses : List String) :
    Document where
  module := module
  origin := module
  version := supportedVersion
  kind := .struct
  explain := none
  types := types
  uses := uses

/-- Two modules of one name, each with a type of one name. -/
def sameNames : List Document :=
  [plainDocument "a::m" [("T", ⟨[], [], [], none, none, none⟩)] [],
    plainDocument "b::m" [("T", ⟨[], [], [], none, none, none⟩)] []]

/-- A document that imports everything next to both of them. -/
def bothImported : Document := plainDocument "p" [] ["a::*", "b::*"]

/-- In either order the name of the modules is undecided between the two. -/
theorem resolution_of_reordered_globs :
    let index := Names.indexOf (sameNames ++ [bothImported.importing ["b::*", "a::*"]])
    let found := ofDocument index (bothImported.importing ["b::*", "a::*"])
    found.2 = [] ∧
      found.1.resolvePath "m" index = .error (.ambiguous "m" ["a::m", "b::m"]) ∧
      found.1.resolvePath "b::m::T" index = .ok ⟨.type, "b::m::T"⟩ := by
  intro index found
  have clean : (ofDocument (Names.indexOf (sameNames ++ [bothImported])) bothImported).2 = [] := by
    decide +kernel
  obtain ⟨clean', same⟩ := resolution_of_reordered_imports sameNames [] bothImported
    ["b::*", "a::*"] (List.Perm.swap _ _ _) clean
  have undecided := (same "m" (by decide +kernel)).1
  have spelledOut := (same "b::m::T" (by decide +kernel)).1
  exact ⟨clean', undecided.trans (by decide +kernel), spelledOut.trans (by decide +kernel)⟩

/-- Behind a name left undecided the first of the globs counts. -/
theorem path_behind_reordered_globs :
    let index := Names.indexOf (sameNames ++ [bothImported])
    (ofDocument index bothImported).2 = [] ∧
      (ofDocument index bothImported).1.resolvePath "m::T" index = .ok ⟨.type, "a::m::T"⟩ ∧
      (ofDocument index (bothImported.importing ["b::*", "a::*"])).1.resolvePath "m::T" index =
        .ok ⟨.type, "b::m::T"⟩ := by
  decide +kernel

end ModuleScope
end Pipeline

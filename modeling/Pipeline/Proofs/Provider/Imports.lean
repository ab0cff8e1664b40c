import Pipeline.Proofs.Fault.Noted
import Pipeline.Proofs.Provider.Closure
import Pipeline.Proofs.Store.Index

/-!
# Imports of collected documents

An import binds the same names among the documents collected as among all documents of the provider,
unless the choice of the modules it needs leaves out what the index would have found: below a module
that is also a directory, beside a directory of the same path, and in the prelude.
-/

set_option autoImplicit false
set_option relaxedAutoImplicit false

namespace Pipeline

namespace Collect

variable {available : List String}

theorem namesPrelude_iff {written : String} : namesPrelude written = true ↔
    (Path.segments (Import.ofText written).path).head? = some preludeModule :=
  decide_eq_true_iff

/-- The modules that an import outside the prelude needs. -/
theorem modulesForImport_cases (available : List String) {written : String}
    (outside : namesPrelude written = false) :
    let path := (Import.ofText written).path
    (path ∈ available ∧ modulesForImport available written = some [path]) ∨
    (path ∉ available ∧ below available path ≠ [] ∧
      modulesForImport available written = some (below available path)) ∨
    (path ∉ available ∧ below available path = [] ∧
      modulesForImport available written =
        (nearest? available (Path.segments path).reverse).map ([·])) := by
  rw [← Bool.not_eq_true, namesPrelude_iff] at outside
  unfold modulesForImport
  dsimp only
  rw [if_neg outside]
  by_cases known : (Import.ofText written).path ∈ available
  · exact Or.inl ⟨known, if_pos (List.contains_iff_mem.mpr known)⟩
  · rw [if_neg (List.contains_iff_mem.not.mpr known)]
    by_cases directory : below available (Import.ofText written).path = []
    · exact Or.inr (Or.inr ⟨known, directory, by rw [directory]; rfl⟩)
    · refine Or.inr (Or.inl ⟨known, directory, if_pos ?_⟩)
      simpa using directory

/-- What is declared in an available module is found nearest to it. -/
theorem nearest?_of_child {path module name : String}
    (split : Path.segments path = Path.segments module ++ [name]) (known : module ∈ available)
    (unknown : path ∉ available) :
    nearest? available (Path.segments path).reverse = some module := by
  have last : nearest? available (Path.segments path).reverse =
      nearest? available (Path.segments module).reverse := by
    rw [split, List.reverse_append, List.reverse_singleton, List.singleton_append, nearest?]
    rw [if_neg]
    rw [List.contains_iff_mem, List.reverse_cons, List.reverse_reverse, ← split,
      Path.ofSegments_segments]
    exact unknown
  rw [last]
  cases reversed : (Path.segments module).reverse with
  | nil => exact absurd (List.reverse_eq_nil_iff.mp reversed) (Path.segments_ne_nil module)
  | cons first more =>
    rw [nearest?, ← reversed, List.reverse_reverse, Path.ofSegments_segments,
      if_pos (List.contains_iff_mem.mpr known)]

end Collect

namespace Provider

/-- All documents of a provider that can be read. -/
def documents (provider : Provider) (listed : List String) : List Document :=
  (NameSet.ofList listed).filterMap provider.document?

/-- What is presupposed of an import: that documents collected for other reasons are those it needs
besides the modules that are requested for it. -/
structure Covers (available : List String) (documents all : List Document) (written : String) :
    Prop where
  /-- What declares the path of a module, if that module is collected for it. -/
  plain : (Import.ofText written).isGlob = false →
    (Import.ofText written).path ∈ available ∨
      Collect.below available (Import.ofText written).path ≠ [] →
    ∀ d ∈ all, (Import.ofText written).path ∈ d.declared → d.module ∈ documents.map (·.module)
  /-- What lies below a module that has a document of its own. -/
  glob : (Import.ofText written).isGlob = true → (Import.ofText written).path ∈ available →
    ∀ d ∈ all, Text.startsWith (Path.child (Import.ofText written).path "") d.module = true →
      d.module ∈ documents.map (·.module)
  /-- What lies in the prelude. -/
  prelude : Collect.namesPrelude written = true →
    ∀ d ∈ all, (Path.segments d.module).head? = some preludeModule →
      d.module ∈ documents.map (·.module)

variable {provider : Provider} {listed entries modules : List String} {documents : List Document}

/-! ### Documents and their modules -/

theorem mem_documents (keys : ∀ m d, provider.fetch m = some (.ok d) → d.module = m)
    {d : Document} :
    d ∈ provider.documents listed ↔
      d.module ∈ NameSet.ofList listed ∧ provider.fetch d.module = some (.ok d) := by
  have read {m : String} : provider.document? m = some d ↔ provider.fetch m = some (.ok d) := by
    unfold document?
    rcases provider.fetch m with _ | _ | _ <;> simp [Except.toOption]
  unfold Provider.documents
  simp only [List.mem_filterMap, read]
  constructor
  · rintro ⟨m, known, answer⟩
    obtain rfl := keys m d answer
    exact ⟨known, answer⟩
  · rintro ⟨known, answer⟩
    exact ⟨d.module, known, answer⟩

variable {available : List String}

theorem Collected.map_module
    (collected : provider.Collected available entries modules documents)
    (keys : ∀ m d, provider.fetch m = some (.ok d) → d.module = m) :
    documents.map (·.module) = modules :=
  (map_eq_of_forall₂ collected.each fun m d answer => keys m d answer).trans modules.map_id

theorem Collected.fetch_module (collected : provider.Collected available entries modules documents)
    (keys : ∀ m d, provider.fetch m = some (.ok d) → d.module = m) :
    ∀ d ∈ documents, provider.fetch d.module = some (.ok d) := by
  intro d member
  obtain ⟨m, -, answer⟩ := exists_of_forall₂ collected.each member
  rwa [keys m d answer]

/-- What the import of a document collected requests is collected. -/
theorem Collected.requested (collected : provider.Collected available entries modules documents)
    (keys : ∀ m d, provider.fetch m = some (.ok d) → d.module = m) {d : Document}
    (member : d ∈ documents) {written : String} (used : written ∈ d.uses) {needed : List String}
    (found : Collect.modulesForImport available written = some needed) :
    ∀ m ∈ needed, m ∈ documents.map (·.module) := by
  intro m inside
  have reached : d.module ∈ modules := by
    rw [← collected.map_module keys]
    exact List.mem_map_of_mem member
  rw [collected.map_module keys, collected.least]
  refine .needed ((collected.least _).mp reached) ?_
  rw [Collect.needs_of_fetch (collected.fetch_module keys d member)]
  exact List.mem_flatMap.mpr ⟨written, used, by rwa [found]⟩

/-- The documents collected are among those of the provider, and each stands for its module. -/
theorem Collected.subset (collected : provider.Collected (NameSet.ofList listed) entries modules
    documents) (keys : ∀ m d, provider.fetch m = some (.ok d) → d.module = m)
    (known : ∀ m ∈ entries, m ∈ NameSet.ofList listed) :
    documents ⊆ provider.documents listed := by
  intro d member
  have available : ∀ m, provider.Reaches (NameSet.ofList listed) entries m →
      m ∈ NameSet.ofList listed := by
    rintro m (inside | ⟨-, needed⟩)
    · exact known m inside
    · unfold needs at needed
      split at needed
      · exact Collect.mem_available_of_requested m needed
      · cases needed
  have reached : d.module ∈ modules := by
    rw [← collected.map_module keys]
    exact List.mem_map_of_mem member
  exact (mem_documents keys).mpr ⟨available _ ((collected.least _).mp reached),
    collected.fetch_module keys d member⟩

theorem Collected.mem_of_module (collected : provider.Collected available entries modules documents)
    (keys : ∀ m d, provider.fetch m = some (.ok d) → d.module = m) {d : Document}
    (listed : d ∈ provider.documents listed) (member : d.module ∈ documents.map (·.module)) :
    d ∈ documents := by
  obtain ⟨other, inside, same⟩ := List.mem_map.mp member
  have answer := collected.fetch_module keys other inside
  rw [same, ((mem_documents keys).mp listed).2] at answer
  cases answer
  exact inside

/-! ### What an import needs -/

/-- What lies below a path of the prelude is of the prelude. -/
private theorem prelude_below {path module : String}
    (inside : (Path.segments path).head? = some preludeModule)
    (below : module = path ∨ Text.startsWith (Path.child path "") module = true) :
    (Path.segments module).head? = some preludeModule := by
  have plain : Path.Plain preludeModule := by decide
  rcases below with rfl | below
  · exact inside
  · obtain ⟨rest, goes⟩ := Text.startsWith_iff.mp below
    rw [Path.head?_segments_iff plain] at inside ⊢
    rw [Path.toList_child] at goes
    rcases inside with same | ⟨more, same⟩ <;> rw [same] at goes
    · exact Or.inr ⟨rest, by simpa using goes⟩
    · exact Or.inr ⟨more ++ ':' :: ':' :: rest, by simpa using goes⟩

section

variable (collected : provider.Collected (NameSet.ofList listed) entries modules documents)
  (keys : ∀ m d, provider.fetch m = some (.ok d) → d.module = m) {d : Document}
  (member : d ∈ documents) {written : String} (used : written ∈ d.uses)
  (covers : Covers (NameSet.ofList listed) documents (provider.documents listed) written)

include collected keys member used covers

/-- For a glob, all that lies at its path or below is collected. -/
theorem Covers.mem_of_glob (isGlob : (Import.ofText written).isGlob = true) {other : Document}
    (among : other ∈ provider.documents listed)
    (below : other.module = (Import.ofText written).path ∨
      Text.startsWith (Path.child (Import.ofText written).path "") other.module = true) :
    other ∈ documents := by
  refine collected.mem_of_module keys among ?_
  have known := ((mem_documents keys).mp among).1
  cases prelude : Collect.namesPrelude written with
  | true =>
    exact covers.prelude prelude other among
      (prelude_below (Collect.namesPrelude_iff.mp prelude) below)
  | false =>
    have requested {needed : List String} (found : Collect.modulesForImport (NameSet.ofList listed)
        written = some needed) := collected.requested keys member used found
    rcases Collect.modulesForImport_cases (NameSet.ofList listed) prelude with
      ⟨here, found⟩ | ⟨missing, -, found⟩ | ⟨missing, nothing, -⟩
    · rcases below with same | below
      · exact same ▸ requested found _ List.mem_cons_self
      · exact covers.glob isGlob here other among below
    · rcases below with same | below
      · exact absurd (same ▸ known) missing
      · exact requested found _ (List.mem_filter.mpr ⟨known, below⟩)
    · rcases below with same | below
      · exact absurd (same ▸ known) missing
      · exact absurd below (List.filter_eq_nil_iff.mp nothing other.module known)

/-- For a path, all that declares it is collected. -/
theorem Covers.mem_of_declared (notGlob : (Import.ofText written).isGlob = false)
    {other : Document} (among : other ∈ provider.documents listed) (plain : other.Plain)
    (declared : (Import.ofText written).path ∈ other.declared) : other ∈ documents := by
  refine collected.mem_of_module keys among ?_
  have known := ((mem_documents keys).mp among).1
  have place : (Import.ofText written).path = other.module ∨
      ∃ name, Path.segments (Import.ofText written).path =
        Path.segments other.module ++ [name] := by
    rcases Names.mem_declared declared with same | ⟨name, named, same⟩
    · exact Or.inl same
    · exact Or.inr ⟨name, by rw [same, Path.segments_child plain.1 (plain.2 name named)]⟩
  cases prelude : Collect.namesPrelude written with
  | true =>
    refine covers.prelude prelude other among ?_
    have inside := Collect.namesPrelude_iff.mp prelude
    rcases place with same | ⟨name, split⟩
    · rw [← same]
      exact inside
    · rw [split, List.head?_append_of_ne_nil _ (Path.segments_ne_nil _)] at inside
      exact inside
  | false =>
    rcases Collect.modulesForImport_cases (NameSet.ofList listed) prelude with
      ⟨here, -⟩ | ⟨-, directory, -⟩ | ⟨missing, -, found⟩
    · exact covers.plain notGlob (Or.inl here) other among declared
    · exact covers.plain notGlob (Or.inr directory) other among declared
    · rcases place with same | ⟨name, split⟩
      · exact absurd (same ▸ known) missing
      · rw [Collect.nearest?_of_child split known missing] at found
        exact collected.requested keys member used found _ List.mem_cons_self

/-- For a path that is a module, some document that opens it is collected. -/
theorem Covers.exists_opened {other : Document} (among : other ∈ provider.documents listed)
    (opened : (Import.ofText written).path ∈ other.opened) :
    ∃ d ∈ documents, (Import.ofText written).path ∈ d.opened := by
  have known := ((mem_documents keys).mp among).1
  have itself (inside : other.module ∈ documents.map (·.module)) :
      ∃ d ∈ documents, (Import.ofText written).path ∈ d.opened :=
    ⟨other, collected.mem_of_module keys among inside, opened⟩
  have below := (Names.mem_opened opened).imp_left Eq.symm
  cases prelude : Collect.namesPrelude written with
  | true =>
    exact itself (covers.prelude prelude other among
      (prelude_below (Collect.namesPrelude_iff.mp prelude) below))
  | false =>
    have requested {needed : List String} (found : Collect.modulesForImport (NameSet.ofList listed)
        written = some needed) := collected.requested keys member used found
    rcases Collect.modulesForImport_cases (NameSet.ofList listed) prelude with
      ⟨-, found⟩ | ⟨missing, -, found⟩ | ⟨missing, nothing, -⟩
    · obtain ⟨d, inside, same⟩ := List.mem_map.mp (requested found _ List.mem_cons_self)
      exact ⟨d, inside, same ▸ Names.module_mem_opened d⟩
    · rcases below with same | below
      · exact absurd (same ▸ known) missing
      · exact itself (requested found _ (List.mem_filter.mpr ⟨known, below⟩))
    · rcases below with same | below
      · exact absurd (same ▸ known) missing
      · exact absurd below (List.filter_eq_nil_iff.mp nothing other.module known)

/-- The documents collected bind an import as all documents of the provider do. -/
theorem Covers.bindImport (once : documents.Nodup)
    (subset : documents ⊆ provider.documents listed)
    (clean : Names.Faultless (provider.documents listed))
    (plain : ∀ d ∈ provider.documents listed, d.Plain) (scope : ModuleScope) :
    scope.bindImport (Names.indexOf documents) written =
      scope.bindImport (Names.indexOf (provider.documents listed)) written := by
  have clean' := Names.faultless_of_subset once subset clean
  refine ModuleScope.bindImport_congr (fun notGlob => ?_) (fun isGlob => ?_) scope
  · refine Names.sameAt_of_subset clean' clean subset (fun other among declared => ?_)
      fun other among opened => ?_
    · exact covers.mem_of_declared collected keys member used notGlob among (plain other among)
        declared
    · exact covers.exists_opened collected keys member used among opened
  · have each : ∀ other ∈ provider.documents listed, other.module = (Import.ofText written).path ∨
        Text.startsWith (Path.child (Import.ofText written).path "") other.module = true →
          other ∈ documents :=
      fun other => covers.mem_of_glob collected keys member used isGlob
    have opened {other : Document} (among : other ∈ provider.documents listed)
        (opened : (Import.ofText written).path ∈ other.opened) : other ∈ documents :=
      each other among ((Names.mem_opened opened).imp_left Eq.symm)
    refine ⟨Names.modules_of_subset clean' clean subset fun other among => opened among,
      fun name inside => ?_⟩
    obtain ⟨source, declaring, here⟩ := (Names.mem_members_iff clean).mp inside
    have plain' := List.forall_mem_cons.mpr ⟨Prelude.document_plain, plain⟩
    obtain ⟨segments, named⟩ := Names.plain_of_mem_members (plain' source declaring) here
    have split := Path.segments_child segments (named name rfl)
    refine Names.sameAt_of_subset clean' clean subset (fun other among declared => ?_)
      fun other among opened => ⟨other, ?_, opened⟩
    · rcases Names.mem_declared declared with same | ⟨other', named', same⟩
      · exact each other among (Or.inr (same ▸ Path.startsWith_child _ _))
      · rw [same, Path.segments_child (plain other among).1 ((plain other among).2 other' named')]
          at split
        have around := congrArg Path.ofSegments (List.append_inj' split rfl).1
        rw [Path.ofSegments_segments, Path.ofSegments_segments] at around
        exact each other among (Or.inl around)
    · rcases Names.mem_opened opened with same | below
      · exact each other among (Or.inr (same ▸ Path.startsWith_child _ _))
      · exact each other among (Or.inr (Path.startsWith_of_child below))

end

/-- **Collecting fetches what the imports need.** Whatever a provider collects, each import of each
document collected binds the same names, with the same symbols, among these documents as among all
documents of the provider, where these declare their names without a fault and without colons in
them, and where the documents collected cover the import: those that declare the path of a module
that is collected, those below a module imported as a whole that has a document of its own, and
those that a provider has in the prelude. -/
theorem bindImport_collected (provider : Provider) {listed entries : List String}
    (listing : provider.modules = .ok listed)
    (keys : ∀ m d, provider.fetch m = some (.ok d) → d.module = m) {documents : List Document}
    (found : (provider.collect entries).value = .ok documents)
    (clean : Names.Faultless (provider.documents listed))
    (plain : ∀ d ∈ provider.documents listed, d.Plain) {d : Document} (member : d ∈ documents)
    {written : String} (used : written ∈ d.uses)
    (covers : Covers (NameSet.ofList listed) documents (provider.documents listed) written)
    (scope : ModuleScope) :
    scope.bindImport (Names.indexOf documents) written =
      scope.bindImport (Names.indexOf (provider.documents listed)) written := by
  rcases provider.collect_cases listing entries with
    ⟨complete, modules, others, found', collected⟩ | ⟨-, faults, failed⟩
  · rw [found] at found'
    cases found'
    have once : documents.Nodup :=
      List.Nodup.of_map (·.module) (collected.map_module keys ▸ collected.once)
    exact covers.bindImport collected keys member used once
      (collected.subset keys complete.known) clean plain scope
  · rw [found] at failed
    cases failed

theorem keys_ofDocuments (documents : List Document) :
    ∀ m d, (ofDocuments documents).fetch m = some (.ok d) → d.module = m := by
  intro m d answer
  obtain ⟨other, found, same⟩ := Option.map_eq_some_iff.mp answer
  cases same
  simpa using List.find?_some found

/-- A module that is also a directory, imported as a whole among other imports. -/
def shopProvider (uses : List String) : Provider :=
  ofDocuments [typesDocument "app" ("shop::*" :: uses) [], typesDocument "shop" [] ["Item"],
    typesDocument "shop::money" [] ["Cents"], typesDocument "unused::Item" [] []]

/-- The modules of that provider. -/
def shopModules : List String := ["app", "shop", "shop::money", "unused::Item"]

/-- Some document collected has an import. -/
private theorem exists_using {result : Except (List Diagnostic) (List Document)}
    {documents : List Document} {written : String} (found : result = .ok documents)
    (imported : result.toOption.map (·.any (·.uses.contains written)) = some true) :
    ∃ d ∈ documents, written ∈ d.uses := by
  rw [found] at imported
  simpa using List.any_eq_true.mp (Option.some.inj imported)

/-- What is below the module is there, collected for another import. -/
theorem shopProvider_glob :
    ∃ documents, ((shopProvider ["shop::money::Cents"]).collect ["app"]).value = .ok documents ∧
      documents.map (·.module) = ["app", "shop", "shop::money"] ∧
      ∀ scope : ModuleScope, scope.bindImport (Names.indexOf documents) "shop::*" =
        scope.bindImport (Names.indexOf
          ((shopProvider ["shop::money::Cents"]).documents shopModules)) "shop::*" := by
  have made : ((shopProvider ["shop::money::Cents"]).collect ["app"]).value.toOption.map
      (·.map (·.module)) = some ["app", "shop", "shop::money"] := by
    decide +kernel
  cases found : ((shopProvider ["shop::money::Cents"]).collect ["app"]).value with
  | error faults =>
    rw [found] at made
    cases made
  | ok documents =>
    rw [found] at made
    have named : documents.map (·.module) = ["app", "shop", "shop::money"] := Option.some.inj made
    obtain ⟨d, member, used⟩ : ∃ d ∈ documents, "shop::*" ∈ d.uses :=
      exists_using found (by decide +kernel)
    have clean : Names.Faultless ((shopProvider ["shop::money::Cents"]).documents shopModules) :=
      List.isEmpty_iff.mp (by decide +kernel)
    have covers : Covers (NameSet.ofList shopModules) documents
        ((shopProvider ["shop::money::Cents"]).documents shopModules) "shop::*" := by
      refine ⟨fun notGlob => absurd notGlob (by decide +kernel), fun _ _ => ?_,
        fun prelude => absurd prelude (by decide +kernel)⟩
      rw [named]
      decide +kernel
    exact ⟨documents, rfl, named, bindImport_collected (shopProvider ["shop::money::Cents"]) rfl
      (keys_ofDocuments _) found clean (by decide +kernel) member used covers⟩

/-- What is below a module of its own is left out where nothing else asks for it. -/
theorem collect_leaves_submodules_out : ¬ ∀ (provider : Provider) (listed entries : List String)
    (documents : List Document), provider.modules = .ok listed →
      (∀ m d, provider.fetch m = some (.ok d) → d.module = m) →
      (provider.collect entries).value = .ok documents →
      ∀ d ∈ documents, ∀ written ∈ d.uses, ∀ scope : ModuleScope,
        scope.bindImport (Names.indexOf documents) written =
          scope.bindImport (Names.indexOf (provider.documents listed)) written := by
  intro all
  have left : ((shopProvider []).collect ["app"]).value.toOption.map (fun documents =>
      ((ModuleScope.empty "app" "app").bindImport (Names.indexOf documents) "shop::*").1.lookup?
        "money") = some none := by
    decide +kernel
  have bound : ((ModuleScope.empty "app" "app").bindImport
      (Names.indexOf ((shopProvider []).documents shopModules)) "shop::*").1.lookup? "money" =
        some ⟨.module, "shop::money"⟩ := by
    decide +kernel
  cases found : ((shopProvider []).collect ["app"]).value with
  | error faults =>
    rw [found] at left
    cases left
  | ok documents =>
    obtain ⟨d, member, used⟩ : ∃ d ∈ documents, "shop::*" ∈ d.uses :=
      exists_using found (by decide +kernel)
    have same := all (shopProvider []) shopModules ["app"] documents rfl (keys_ofDocuments _) found
      d member "shop::*" used (.empty "app" "app")
    rw [found] at left
    have nothing : ((ModuleScope.empty "app" "app").bindImport (Names.indexOf documents)
        "shop::*").1.lookup? "money" = none := Option.some.inj left
    rw [same, bound] at nothing
    cases nothing

end Provider
end Pipeline

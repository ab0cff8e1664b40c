import Pipeline.Proofs.Store.Load
import Pipeline.Proofs.Store.Telling

/-!
# Every name is declared

In documents without faults, each type and each trait that was entered among the names is read, so
that a path which stands for a type is the path of a declaration. What is read of a document is
read in the scope of its module, where every name stands for what is declared.
-/

set_option autoImplicit false
set_option relaxedAutoImplicit false

namespace Pipeline.Store

variable {ds : List Document}

/-! ### Names -/

/-- The names of documents without faults are all those that the documents add. -/
theorem Sound.symbols (sound : Sound ds) : (namesOf ds).index.symbols =
    NameMap.ofList (ds.flatMap fun d => (Names.ofDocument d).symbols) := by
  have names := (Names.adds_addDocuments ds).result Names.empty sound.names
  have symbols : (Names.ofDocuments ds).symbols =
      ds.flatMap fun d => (Names.ofDocument d).symbols := by
    rw [Names.ofDocuments, Names.Addition.concat_eq, List.flatMap_map]
  rw [namesOf, names, Names.enter, ← symbols]
  rfl

theorem Sound.get?_symbol (sound : Sound ds) {d : Document} (member : d ∈ ds) {path : String}
    {kind : SymbolKind} (added : (path, kind) ∈ (Names.ofDocument d).symbols) :
    (namesOf ds).index.symbols.get? path = some kind := by
  rw [sound.symbols]
  refine NameMap.get?_ofList ?_ (List.mem_flatMap.mpr ⟨d, member, added⟩)
  rw [List.map_flatMap]
  exact sound.once.symbols

/-- What a document adds to the symbols: its component, its types and its traits. -/
theorem mem_symbols {d : Document} {path : String} {kind : SymbolKind} :
    (path, kind) ∈ (Names.ofDocument d).symbols ↔
      (d.isPlain = false ∧ path = d.module ∧ kind = .type) ∨
      (∃ e ∈ d.types, path = Path.child d.module e.1 ∧ kind = .type) ∨
      ∃ e ∈ d.traits, path = Path.child d.module e.1 ∧ kind = .trait := by
  have component : (path, kind) ∈ (Names.ofComponent d).symbols ↔
      d.isPlain = false ∧ path = d.module ∧ kind = .type := by
    unfold Names.ofComponent
    split <;> simp_all
  have none {α : Type} (l : List α) : l.flatMap (fun _ => ([] : List (String × SymbolKind))) = [] :=
    by simp
  simp only [Names.ofDocument, Names.ofBody, Names.Addition.symbols_append,
    Names.Addition.concat_eq, List.flatMap_map, none, List.nil_append, List.append_nil,
    List.mem_append, component, List.mem_flatMap, List.mem_singleton, Prod.mk.injEq, or_assoc]

/-! ### Scopes -/

/-- The scope of a document among those of all documents. -/
theorem Sound.scope (sound : Sound ds) {d : Document} (member : d ∈ ds) :
    (scopesOf ds).1.get? d.module = some (ModuleScope.ofDocument (namesOf ds).index d).1 := by
  refine NameMap.get?_ofList ?_ ?_
  · simpa only [List.map_map, Function.comp_def, ModuleScope.ofDocument_module] using
      sound.once.modules
  · simp only [List.map_map, List.mem_map]
    exact ⟨d, member, by simp [ModuleScope.ofDocument_module]⟩

theorem Sound.grounded (sound : Sound ds) {d : Document} (member : d ∈ ds) :
    (ModuleScope.ofDocument (namesOf ds).index d).1.Grounded (namesOf ds).index := by
  refine ModuleScope.ofDocument_grounded fun role => ?_
  exact SymbolIndex.symbol?_of_get?
    (sound.get?_symbol member (mem_symbols.mpr (Or.inl ⟨role, rfl, rfl⟩)))

/-- The site at which a document is read. -/
def siteOf (ds : List Document) (d : Document) : Site :=
  ⟨(ModuleScope.ofDocument (namesOf ds).index d).1, (namesOf ds).index, []⟩

theorem siteOf_module (ds : List Document) (d : Document) : (siteOf ds d).module = d.module :=
  ModuleScope.ofDocument_module _ d

/-- What is read of the documents is read of each of them in its own scope. -/
theorem Sound.read_eq (sound : Sound ds) :
    ds.filterMap (Declarations.readIn (namesOf ds).index (scopesOf ds).1) =
      ds.map fun d => (siteOf ds d).declared d := by
  rw [← List.filterMap_eq_map]
  refine List.filterMap_congr fun d member => ?_
  simp [Declarations.readIn, sound.scope member, siteOf]

theorem Sound.declarations_eq (sound : Sound ds) : (declarationsOf ds).1 =
    (ds.map fun d => (siteOf ds d).declared d).foldl Declarations.add .empty := by
  rw [declarationsOf, Declarations.ofDocuments_eq, sound.read_eq]

theorem Sound.faults (sound : Sound ds) {d : Document} (member : d ∈ ds) :
    ((siteOf ds d).declarations d).faults = [] := by
  have all := sound.declarations
  rw [declarationsOf, Declarations.ofDocuments_eq, List.flatMap_eq_nil_iff] at all
  have here := all d member
  rwa [Declarations.faultsIn, sound.scope member] at here

/-! ### Declarations -/

/-- The faults of the declarations of a document, section by section. -/
private theorem faults_declarations (site : Site) (d : Document) : (site.declarations d).faults =
    d.types.flatMap (fun e =>
        (site.typeDecl ((d.location.child "types").child e.1) e.1 e.2).faults) ++
      (d.traits.flatMap (fun e =>
        (site.traitDecl ((d.location.child "traits").child e.1) e.1 e.2).faults) ++
      (d.impls.zipIdx.flatMap (fun e =>
        (site.implDecl ((d.location.child "impls").atIndex e.2) e.1).faults) ++
      (d.extensions.flatMap (fun e =>
        (site.extensionDecl ((d.location.child "extensions").child e.1) e.1 e.2).faults) ++
      (d.componentKind?.toList.flatMap fun kind => (site.component d kind).faults)))) := by
  unfold Site.declarations Noted.collect
  simp only [Bind.bind, Pure.pure, Noted.attempt, List.flatMap_map]
  cases d.componentKind? <;> simp

/-- Every section of a document without faults is read as a whole. -/
structure ReadsWhole (site : Site) (d : Document) : Prop where
  types : ∀ e ∈ d.types, ∃ t ∈ (site.declared d).types,
    ∃ place, (site.typeDecl place e.1 e.2).value = some t
  traits : ∀ e ∈ d.traits, ∃ t ∈ (site.declared d).traits,
    ∃ place, (site.traitDecl place e.1 e.2).value = some t
  impls : List.Forall₂
    (fun e p => (site.implDecl ((d.location.child "impls").atIndex e.2) e.1).value = some p)
    d.impls.zipIdx (site.declared d).impls
  component : d.isPlain = false → ∃ c, (site.declared d).component = some c

private theorem readsWhole {site : Site} {d : Document}
    (clean : (site.declarations d).faults = []) :
    ReadsWhole site d := by
  rw [faults_declarations] at clean
  simp only [List.append_eq_nil_iff, List.flatMap_eq_nil_iff] at clean
  obtain ⟨types, traits, impls, -, component⟩ := clean
  refine ⟨fun e member => ?_, fun e member => ?_, ?_, fun role => ?_⟩
  · obtain ⟨t, read⟩ := (Site.tells_typeDecl e.1 e.2).value (types e member)
    exact ⟨t, List.mem_filterMap.mpr ⟨e, member, read⟩, _, read⟩
  · obtain ⟨t, read⟩ := (Site.tells_traitDecl e.1 e.2).value (traits e member)
    exact ⟨t, List.mem_filterMap.mpr ⟨e, member, read⟩, _, read⟩
  · exact forall₂_filterMap fun e member => Site.tells_implDecl e.1 (impls e member)
  · obtain ⟨kind, known⟩ : ∃ kind, d.componentKind? = some kind := by
      rw [← Option.isSome_iff_exists, ← Option.not_isNone]
      simpa [Document.isPlain] using role
    obtain ⟨c, read⟩ := (Site.tells_component d kind).value (component kind (by simp [known]))
    exact ⟨c, by simp [Site.declared, known, read]⟩

theorem Sound.readsWhole (sound : Sound ds) {d : Document} (member : d ∈ ds) :
    ReadsWhole (siteOf ds d) d := Store.readsWhole (sound.faults member)

/-- A type that is read is declared under its path. -/
theorem Sound.contains_type (sound : Sound ds) {d : Document} (member : d ∈ ds)
    {entry : String × TypeDecl} (read : entry ∈ ((siteOf ds d).declared d).typeEntries) :
    (declarationsOf ds).1.types.contains entry.1 = true := by
  rw [sound.declarations_eq, Declarations.foldl_add, NameMap.contains_foldl]
  refine Or.inr (List.mem_map_of_mem (List.mem_flatMap.mpr ⟨_, ?_, read⟩))
  exact List.mem_map_of_mem member

theorem Sound.contains_trait (sound : Sound ds) {d : Document} (member : d ∈ ds)
    {entry : String × TraitDecl} (read : entry ∈ ((siteOf ds d).declared d).traitEntries) :
    (declarationsOf ds).1.traits.contains entry.1 = true := by
  rw [sound.declarations_eq, Declarations.foldl_add, NameMap.contains_foldl]
  refine Or.inr (List.mem_map_of_mem (List.mem_flatMap.mpr ⟨_, ?_, read⟩))
  exact List.mem_map_of_mem member

/-- Every path that stands for a type is the path of a declared type. -/
theorem Sound.declares_type (sound : Sound ds) {path : String}
    (found : (namesOf ds).index.symbols.get? path = some .type) :
    (declarationsOf ds).1.types.contains path = true := by
  rw [sound.symbols] at found
  obtain ⟨d, member, added⟩ := List.mem_flatMap.mp (NameMap.mem_of_get?_ofList found)
  have whole := sound.readsWhole member
  rcases mem_symbols.mp added with ⟨role, rfl, -⟩ | ⟨e, inside, rfl, -⟩ | ⟨e, -, -, other⟩
  · obtain ⟨c, read⟩ := whole.component role
    obtain ⟨kind, -, one⟩ := Option.bind_eq_some_iff.mp read
    have path := (Site.component_of one).decl
    rw [siteOf_module] at path
    rw [← path]
    have entry : (c.decl.path, c.decl) ∈ ((siteOf ds d).declared d).typeEntries :=
      List.mem_append_right _ (by simp [read])
    exact sound.contains_type member entry
  · obtain ⟨t, read, place, one⟩ := whole.types e inside
    rw [← siteOf_module ds d, ← Site.typeDecl_path one]
    exact sound.contains_type member (List.mem_append_left _ (List.mem_map_of_mem read))
  · cases other

/-- Every path that stands for a trait is the path of a declared trait. -/
theorem Sound.declares_trait (sound : Sound ds) {path : String}
    (found : (namesOf ds).index.symbols.get? path = some .trait) :
    (declarationsOf ds).1.traits.contains path = true := by
  rw [sound.symbols] at found
  obtain ⟨d, member, added⟩ := List.mem_flatMap.mp (NameMap.mem_of_get?_ofList found)
  have whole := sound.readsWhole member
  rcases mem_symbols.mp added with ⟨-, -, other⟩ | ⟨e, -, -, other⟩ | ⟨e, inside, rfl, -⟩
  · cases other
  · cases other
  · obtain ⟨t, read, place, one⟩ := whole.traits e inside
    rw [← siteOf_module ds d, ← Site.traitDecl_path one]
    exact sound.contains_trait member (List.mem_map_of_mem read)

/-- What is declared as a type stands under its path. -/
theorem Sound.type_entered (sound : Sound ds) {d : Document} (member : d ∈ ds) {path : String}
    {t : TypeDecl} (entry : (path, t) ∈ ((siteOf ds d).declared d).typeEntries) :
    (declarationsOf ds).1.types.get? path = some t := by
  have once : (((ds.map fun d => (siteOf ds d).declared d).flatMap (·.typeEntries)).map
      (·.1)).Nodup := by
    rw [← sound.read_eq]
    exact Declarations.entries_nodup (fun _ _ found => ModuleScope.ofDocuments_own found)
      (fun _ _ => Site.typeEntries_subperm) sound.once.symbols
  rw [sound.declarations_eq, Declarations.foldl_add]
  exact NameMap.get?_ofList once (List.mem_flatMap.mpr ⟨_, List.mem_map_of_mem member, entry⟩)

/-- Under its path stands what is read of the entry of a type. -/
theorem Sound.type_read (sound : Sound ds) {d : Document} (member : d ∈ ds)
    {e : String × TypeEntry} (listed : e ∈ d.types) :
    ∃ t place, (declarationsOf ds).1.types.get? (Path.child d.module e.1) = some t ∧
      ((siteOf ds d).typeDecl place e.1 e.2).value = some t := by
  obtain ⟨t, read, place, one⟩ := (sound.readsWhole member).types e listed
  refine ⟨t, place, ?_, one⟩
  rw [← siteOf_module ds d, ← Site.typeDecl_path one]
  exact sound.type_entered member (List.mem_append_left _ (List.mem_map_of_mem read))

/-- Under its path stands what is read of the entry of a trait. -/
theorem Sound.trait_read (sound : Sound ds) {d : Document} (member : d ∈ ds)
    {e : String × TraitEntry} (listed : e ∈ d.traits) :
    ∃ trait place, (declarationsOf ds).1.traits.get? (Path.child d.module e.1) = some trait ∧
      ((siteOf ds d).traitDecl place e.1 e.2).value = some trait := by
  obtain ⟨t, read, place, one⟩ := (sound.readsWhole member).traits e listed
  refine ⟨t, place, ?_, one⟩
  have once : (((ds.map fun d => (siteOf ds d).declared d).flatMap (·.traitEntries)).map
      (·.1)).Nodup := by
    rw [← sound.read_eq]
    exact Declarations.entries_nodup (fun _ _ found => ModuleScope.ofDocuments_own found)
      (fun _ _ => Site.traitEntries_subperm) sound.once.symbols
  rw [sound.declarations_eq, Declarations.foldl_add, ← siteOf_module ds d,
    ← Site.traitDecl_path one]
  exact NameMap.get?_ofList once (List.mem_flatMap.mpr
    ⟨_, List.mem_map_of_mem member, List.mem_map_of_mem read⟩)

/-! ### Where declarations come from -/

/-- What a map of declarations holds was read of some document. -/
private theorem exists_of_mem_values {α : Type} {entries : Declared → List (String × α)} {a : α}
    (member : a ∈ (NameMap.ofList
      ((ds.map fun d => (siteOf ds d).declared d).flatMap entries)).values) : ∃ d ∈ ds,
      ∃ path, (path, a) ∈ entries ((siteOf ds d).declared d) := by
  obtain ⟨⟨path, b⟩, inside, same⟩ := List.mem_map.mp member
  cases same
  obtain ⟨read, origin, entered⟩ := List.mem_flatMap.mp (NameMap.mem_of_mem_ofList inside)
  obtain ⟨d, among, rfl⟩ := List.mem_map.mp origin
  exact ⟨d, among, path, entered⟩

/-- A type is declared by an entry of a document or is its component. -/
theorem Sound.origin_type (sound : Sound ds) {t : TypeDecl}
    (member : t ∈ (declarationsOf ds).1.types.values) : ∃ d ∈ ds,
      (∃ e ∈ d.types, ∃ place, ((siteOf ds d).typeDecl place e.1 e.2).value = some t) ∨
      ∃ kind c, d.componentKind? = some kind ∧ ((siteOf ds d).component d kind).value = some c ∧
        c.decl = t := by
  rw [sound.declarations_eq, Declarations.foldl_add] at member
  obtain ⟨d, among, path, entered⟩ := exists_of_mem_values member
  refine ⟨d, among, ?_⟩
  rcases List.mem_append.mp entered with plain | component
  · obtain ⟨u, inside, same⟩ := List.mem_map.mp plain
    cases same
    obtain ⟨e, listed, read⟩ := List.mem_filterMap.mp inside
    exact Or.inl ⟨e, listed, _, read⟩
  · obtain ⟨c, inside, same⟩ := List.mem_map.mp component
    cases same
    obtain ⟨kind, role, read⟩ := Option.bind_eq_some_iff.mp (Option.mem_toList.mp inside)
    exact Or.inr ⟨kind, c, role, read, rfl⟩

theorem Sound.origin_trait (sound : Sound ds) {t : TraitDecl}
    (member : t ∈ (declarationsOf ds).1.traits.values) :
    ∃ d ∈ ds, ∃ e ∈ d.traits, ∃ place,
      ((siteOf ds d).traitDecl place e.1 e.2).value = some t := by
  rw [sound.declarations_eq, Declarations.foldl_add] at member
  obtain ⟨d, among, path, entered⟩ := exists_of_mem_values member
  obtain ⟨u, inside, same⟩ := List.mem_map.mp entered
  cases same
  obtain ⟨e, listed, read⟩ := List.mem_filterMap.mp inside
  exact ⟨d, among, e, listed, _, read⟩

theorem Sound.origin_extension (sound : Sound ds) {t : ExtensionDecl}
    (member : t ∈ (declarationsOf ds).1.extensions.values) :
    ∃ d ∈ ds, ∃ e ∈ d.extensions, ∃ place,
      ((siteOf ds d).extensionDecl place e.1 e.2).value = some t := by
  rw [sound.declarations_eq, Declarations.foldl_add] at member
  obtain ⟨d, among, path, entered⟩ := exists_of_mem_values member
  obtain ⟨u, inside, same⟩ := List.mem_map.mp entered
  cases same
  obtain ⟨e, listed, read⟩ := List.mem_filterMap.mp inside
  exact ⟨d, among, e, listed, _, read⟩

theorem Sound.origin_schema (sound : Sound ds) {t : Schema}
    (member : t ∈ (declarationsOf ds).1.schemas.values) :
    ∃ d ∈ ds, ∃ kind c, ((siteOf ds d).component d kind).value = some c ∧ c.schema = t := by
  rw [sound.declarations_eq, Declarations.foldl_add] at member
  obtain ⟨d, among, path, entered⟩ := exists_of_mem_values member
  obtain ⟨c, inside, same⟩ := List.mem_map.mp entered
  cases same
  obtain ⟨kind, -, read⟩ := Option.bind_eq_some_iff.mp (Option.mem_toList.mp inside)
  exact ⟨d, among, kind, c, read, rfl⟩

theorem Sound.origin_ports (sound : Sound ds) {p : Ports}
    (member : p ∈ (declarationsOf ds).1.ports) :
    ∃ d ∈ ds, ∃ kind c, d.componentKind? = some kind ∧
      ((siteOf ds d).component d kind).value = some c ∧ c.ports = p := by
  rw [sound.declarations_eq, Declarations.foldl_add] at member
  obtain ⟨read, origin, entered⟩ := List.mem_flatMap.mp member
  obtain ⟨d, among, rfl⟩ := List.mem_map.mp origin
  obtain ⟨c, inside, rfl⟩ := List.mem_map.mp entered
  obtain ⟨kind, role, one⟩ := Option.bind_eq_some_iff.mp (Option.mem_toList.mp inside)
  exact ⟨d, among, kind, c, role, one, rfl⟩

/-- The schema of a component stands under its path, and so does its type. -/
theorem Sound.schema_read (sound : Sound ds) {path : String} {schema : Schema}
    (found : (declarationsOf ds).1.schemas.get? path = some schema) :
    ∃ d ∈ ds, ∃ kind c, ((siteOf ds d).component d kind).value = some c ∧
      (declarationsOf ds).1.types.get? path = some c.decl := by
  rw [sound.declarations_eq, Declarations.foldl_add] at found
  obtain ⟨read, origin, entered⟩ := List.mem_flatMap.mp (NameMap.mem_of_get?_ofList found)
  obtain ⟨d, among, rfl⟩ := List.mem_map.mp origin
  obtain ⟨c, inside, same⟩ := List.mem_map.mp entered
  cases same
  obtain ⟨kind, role, one⟩ := Option.bind_eq_some_iff.mp (Option.mem_toList.mp inside)
  refine ⟨d, among, kind, c, one, ?_⟩
  have of := Site.component_of one
  rw [of.schema, ← of.decl]
  refine sound.type_entered among (List.mem_append_right _ ?_)
  exact List.mem_map_of_mem inside

/-- What is declared as a type is a type by its name. -/
theorem Sound.symbol_type (sound : Sound ds) {t : TypeDecl}
    (member : t ∈ (declarationsOf ds).1.types.values) :
    (namesOf ds).index.symbols.get? t.path = some .type := by
  obtain ⟨d, among, ⟨e, listed, place, read⟩ | ⟨kind, c, role, read, rfl⟩⟩ :=
    sound.origin_type member
  · rw [Site.typeDecl_path read, siteOf_module]
    exact sound.get?_symbol among (mem_symbols.mpr (Or.inr (Or.inl ⟨e, listed, rfl, rfl⟩)))
  · rw [(Site.component_of read).decl, siteOf_module]
    have component : d.isPlain = false := by simp [Document.isPlain, role]
    exact sound.get?_symbol among (mem_symbols.mpr (Or.inl ⟨component, rfl, rfl⟩))

/-- What is declared as a trait is a trait by its name. -/
theorem Sound.symbol_trait (sound : Sound ds) {t : TraitDecl}
    (member : t ∈ (declarationsOf ds).1.traits.values) :
    (namesOf ds).index.symbols.get? t.path = some .trait := by
  obtain ⟨d, among, e, listed, place, read⟩ := sound.origin_trait member
  rw [Site.traitDecl_path read, siteOf_module]
  exact sound.get?_symbol among (mem_symbols.mpr (Or.inr (Or.inr ⟨e, listed, rfl, rfl⟩)))

/-- An impl as it is written, with what is seen there and its place. -/
structure WrittenImpl where
  site : Site
  place : Location
  entry : ImplEntry

/-- The impls of a document. -/
def writtenIn (site : Site) (d : Document) : List WrittenImpl :=
  d.impls.zipIdx.map fun e => ⟨site, (d.location.child "impls").atIndex e.2, e.1⟩

/-- The impls of documents, in their order. -/
def writtenImpls (ds : List Document) : List WrittenImpl :=
  ds.flatMap fun d => writtenIn (siteOf ds d) d

theorem map_entry_writtenImpls (ds : List Document) :
    (writtenImpls ds).map (·.entry) = ds.flatMap (·.impls) := by
  rw [writtenImpls, List.map_flatMap]
  refine List.flatMap_congr fun d _ => ?_
  rw [writtenIn, List.map_map]
  exact List.zipIdx_map_fst 0 d.impls

/-- Each impl written in the documents is read at its place, in their order. -/
theorem Sound.impls_placed (sound : Sound ds) :
    List.Forall₂ (fun w p => (w.site.implDecl w.place w.entry).value = some p) (writtenImpls ds)
      (declarationsOf ds).1.pending := by
  have pending : (declarationsOf ds).1.pending =
      ds.flatMap fun d => ((siteOf ds d).declared d).impls := by
    rw [sound.declarations_eq, Declarations.foldl_add]
    simp only [Declarations.empty, List.nil_append, List.flatMap_map]
  have same : List.Forall₂ (fun d d' => d ∈ ds ∧ d' = d) ds ds :=
    List.forall₂_same.mpr fun d member => ⟨member, rfl⟩
  rw [pending]
  refine List.rel_flatMap same ?_
  rintro d _ ⟨member, rfl⟩
  exact List.forall₂_map_left_iff.mpr (sound.readsWhole member).impls

theorem Sound.impls_read (sound : Sound ds) :
    List.Forall₂ (fun e p => ∃ d ∈ ds, e ∈ d.impls ∧
        ∃ place, ((siteOf ds d).implDecl place e).value = some p)
      (ds.flatMap (·.impls)) (declarationsOf ds).1.pending := by
  rw [← map_entry_writtenImpls, List.forall₂_map_left_iff]
  refine ((List.forall₂_and_left _ _).mpr ⟨fun w inside => inside, sound.impls_placed⟩).imp ?_
  rintro w p ⟨inside, read⟩
  obtain ⟨d, member, inside⟩ := List.mem_flatMap.mp inside
  obtain ⟨e, listed, rfl⟩ := List.mem_map.mp inside
  exact ⟨d, member, List.fst_mem_of_mem_zipIdx listed, _, read⟩

end Pipeline.Store

import Mathlib.Data.List.Perm.Subperm
import Pipeline.Proofs.Fault.Noted
import Pipeline.Proofs.Store.Names
import Pipeline.Store.Load

/-!
# Declarations read in any order

Each document is read by itself, in the scope of its module and with the names of all documents.
Every declaration stands under a path that its document has added to the names. Documents that
add each name once thus have the same declarations in every order.
-/

set_option autoImplicit false
set_option relaxedAutoImplicit false

namespace Pipeline

/-! ### The declarations of a document -/

/-- All parts of a component stand under the path of its module. -/
structure ComponentDecl.Of (c : ComponentDecl) (module : String) : Prop where
  decl : c.decl.path = module
  schema : c.schema.component = module
  ports : c.ports.path = module

namespace Site

variable {site : Site} {place : Location} {name : String}

theorem typeDecl_path {e : TypeEntry} {t : TypeDecl}
    (read : (site.typeDecl place name e).value = some t) :
    t.path = Path.child site.module name := by
  obtain ⟨generics, -, read⟩ := Noted.value_bind_eq_some.mp read
  split at read
  · cases read
  · obtain ⟨kind, -, read⟩ := Noted.value_bind_eq_some.mp read
    cases read
    rfl

theorem traitDecl_path {e : TraitEntry} {t : TraitDecl}
    (read : (site.traitDecl place name e).value = some t) :
    t.path = Path.child site.module name := by
  obtain ⟨generics, -, read⟩ := Noted.value_bind_eq_some.mp read
  obtain ⟨assoc, -, read⟩ := Noted.value_bind_eq_some.mp read
  obtain ⟨methods, -, read⟩ := Noted.value_bind_eq_some.mp read
  split at read
  all_goals
    obtain ⟨specialization, -, read⟩ := Noted.value_bind_eq_some.mp read
    cases read
    rfl

theorem extensionDecl_path {e : ExtensionEntry} {t : ExtensionDecl}
    (read : (site.extensionDecl place name e).value = some t) :
    t.path = Path.child site.module name := by
  obtain ⟨generics, -, read⟩ := Noted.value_bind_eq_some.mp read
  obtain ⟨target, -, read⟩ := Noted.value_bind_eq_some.mp read
  obtain ⟨bounds, -, read⟩ := Noted.value_bind_eq_some.mp read
  obtain ⟨methods, -, read⟩ := Noted.value_bind_eq_some.mp read
  cases read
  rfl

theorem component_of {d : Document} {kind : ComponentKind} {c : ComponentDecl}
    (read : (site.component d kind).value = some c) : c.Of site.module := by
  obtain ⟨generics, -, read⟩ := Noted.value_bind_eq_some.mp read
  obtain ⟨input, -, read⟩ := Noted.value_bind_eq_some.mp read
  obtain ⟨output, -, read⟩ := Noted.value_bind_eq_some.mp read
  obtain ⟨item, -, read⟩ := Noted.value_bind_eq_some.mp read
  obtain ⟨columns, -, read⟩ := Noted.value_bind_eq_some.mp read
  obtain ⟨columnChecks, -, read⟩ := Noted.value_bind_eq_some.mp read
  obtain ⟨params, -, read⟩ := Noted.value_bind_eq_some.mp read
  obtain ⟨checks, -, read⟩ := Noted.value_bind_eq_some.mp read
  cases read
  exact ⟨rfl, rfl, rfl⟩

/-- The declarations of a document that no fault prevents. -/
def declared (site : Site) (d : Document) : Declared where
  types := d.types.filterMap fun e =>
    (site.typeDecl ((d.location.child "types").child e.1) e.1 e.2).value
  traits := d.traits.filterMap fun e =>
    (site.traitDecl ((d.location.child "traits").child e.1) e.1 e.2).value
  impls := d.impls.zipIdx.filterMap fun e =>
    (site.implDecl ((d.location.child "impls").atIndex e.2) e.1).value
  extensions := d.extensions.filterMap fun e =>
    (site.extensionDecl ((d.location.child "extensions").child e.1) e.1 e.2).value
  component := d.componentKind?.bind fun kind => (site.component d kind).value

/-- Faults never keep a document from being read to its end. -/
theorem declarations_value (site : Site) (d : Document) :
    (site.declarations d).value = some (site.declared d) := by
  unfold declarations declared Noted.collect
  simp only [List.filterMap_map]
  cases d.componentKind? <;> rfl

end Site

/-! ### The paths of declarations -/

namespace Declared

/-- The types by their paths, that of the component included. -/
def typeEntries (d : Declared) : List (String × TypeDecl) :=
  d.types.map (fun t => (t.path, t)) ++ d.component.toList.map fun c => (c.decl.path, c.decl)

/-- The traits by their paths. -/
def traitEntries (d : Declared) : List (String × TraitDecl) := d.traits.map fun t => (t.path, t)

/-- The extensions by their paths. -/
def extensionEntries (d : Declared) : List (String × ExtensionDecl) :=
  d.extensions.map fun e => (e.path, e)

/-- The schema of the component by its path. -/
def schemaEntries (d : Declared) : List (String × Schema) :=
  d.component.toList.map fun c => (c.schema.component, c.schema)

/-- The ports of the component. -/
def ports (d : Declared) : List Ports := d.component.toList.map (·.ports)

end Declared

/-- What is read from some of the members of a list keeps what was known of them. -/
private theorem filterMap_map_sublist {α β γ : Type} {f : α → Option β} {g : β → γ} {h : α → γ}
    (each : ∀ a b, f a = some b → g b = h a) (l : List α) :
    ((l.filterMap f).map g).Sublist (l.map h) := by
  induction l with
  | nil => exact List.Sublist.refl []
  | cons a rest ih =>
    rw [List.filterMap_cons, List.map_cons]
    cases read : f a with
    | none => exact ih.cons _
    | some b =>
      rw [List.map_cons, each a b read]
      exact ih.cons_cons _

namespace Names

theorem symbols_ofDocument (d : Document) :
    (ofDocument d).symbols.map (·.1) = (if d.isPlain then [] else [d.module]) ++
      d.types.map (fun e => Path.child d.module e.1) ++
      d.traits.map fun e => Path.child d.module e.1 := by
  have component : (ofComponent d).symbols.map (·.1) = if d.isPlain then [] else [d.module] := by
    unfold ofComponent
    split <;> rfl
  simp [ofDocument, ofBody, Addition.concat_eq, component, List.flatMap_map, ← List.map_eq_flatMap,
    Function.comp_def]

theorem extensions_ofDocument (d : Document) :
    (ofDocument d).extensions = d.extensions.map fun e => Path.child d.module e.1 := by
  have component : (ofComponent d).extensions = [] := by
    unfold ofComponent
    split <;> rfl
  have nothing {α : Type} (l : List α) : l.flatMap (fun _ => ([] : List String)) = [] := by simp
  simp [ofDocument, ofBody, Addition.concat_eq, component, List.flatMap_map, ← List.map_eq_flatMap,
    Function.comp_def, nothing]

theorem origins_ofDocument (d : Document) : (ofDocument d).origins = [(d.module, d.origin)] := by
  have component : (ofComponent d).origins = [] := by
    unfold ofComponent
    split <;> rfl
  simp [ofDocument, ofBody, Addition.concat_eq, component, List.flatMap_map]

end Names

namespace Site

variable {site : Site} {d : Document}

private theorem component_cases (own : site.module = d.module) :
    (site.declared d).component = none ∨
      d.isPlain = false ∧ ∃ c, (site.declared d).component = some c ∧ c.Of d.module := by
  cases found : (site.declared d).component with
  | none => exact Or.inl rfl
  | some c =>
    obtain ⟨kind, role, read⟩ := Option.bind_eq_some_iff.mp found
    refine Or.inr ⟨?_, c, rfl, own ▸ component_of read⟩
    simp [Document.isPlain, role]

/-- Types and the component stand under paths that the document has added to the names. -/
theorem typeEntries_subperm (own : site.module = d.module) :
    ((site.declared d).typeEntries.map (·.1)).Subperm
      ((Names.ofDocument d).symbols.map (·.1)) := by
  have types : ((site.declared d).types.map (·.path)).Sublist
      (d.types.map fun e => Path.child d.module e.1) :=
    filterMap_map_sublist (fun e t read => own ▸ typeDecl_path read) d.types
  have component : ((site.declared d).component.toList.map (·.decl.path)).Sublist
      (if d.isPlain then [] else [d.module]) := by
    rcases component_cases own with none | ⟨role, c, found, of⟩
    · rw [none]
      exact List.nil_sublist _
    · simp [found, role, of.decl]
  rw [Names.symbols_ofDocument, Declared.typeEntries, List.map_append, List.map_map, List.map_map]
  refine ((types.append component).subperm.trans List.perm_append_comm.subperm).trans ?_
  exact (List.sublist_append_left _ _).subperm

theorem traitEntries_subperm (own : site.module = d.module) :
    ((site.declared d).traitEntries.map (·.1)).Subperm
      ((Names.ofDocument d).symbols.map (·.1)) := by
  have traits : ((site.declared d).traits.map (·.path)).Sublist
      (d.traits.map fun e => Path.child d.module e.1) :=
    filterMap_map_sublist (fun e t read => own ▸ traitDecl_path read) d.traits
  rw [Names.symbols_ofDocument, Declared.traitEntries, List.map_map]
  exact (traits.trans (List.sublist_append_right _ _)).subperm

theorem extensionEntries_subperm (own : site.module = d.module) :
    ((site.declared d).extensionEntries.map (·.1)).Subperm (Names.ofDocument d).extensions := by
  rw [Names.extensions_ofDocument, Declared.extensionEntries, List.map_map]
  exact (filterMap_map_sublist (fun e t read => own ▸ extensionDecl_path read) d.extensions).subperm

theorem schemaEntries_subperm (own : site.module = d.module) :
    ((site.declared d).schemaEntries.map (·.1)).Subperm [d.module] := by
  rw [Declared.schemaEntries]
  rcases component_cases own with none | ⟨-, c, found, of⟩
  · simp [none]
  · simp [found, of.schema, List.Subperm.refl]

theorem ports_subperm (own : site.module = d.module) :
    ((site.declared d).ports.map (·.path)).Subperm [d.module] := by
  rw [Declared.ports]
  rcases component_cases own with none | ⟨-, c, found, of⟩
  · simp [none]
  · simp [found, of.ports, List.Subperm.refl]

end Site
/-! ### The declarations of all documents -/

/-- Documents that declare every name once. -/
structure DeclaredOnce (ds : List Document) : Prop where
  symbols : (ds.flatMap fun d => (Names.ofDocument d).symbols.map (·.1)).Nodup
  extensions : (ds.flatMap fun d => (Names.ofDocument d).extensions).Nodup
  modules : (ds.map (·.module)).Nodup

/-- What is added without a fault is declared once. -/
theorem Names.Addition.Fits.once {ds : List Document} {n : Names}
    (fits : (Names.ofDocuments ds).Fits n) : DeclaredOnce ds := by
  have symbols := fits.symbols.1
  have extensions := fits.extensions.1
  have origins := fits.origins.1
  simp only [Names.ofDocuments, Names.Addition.concat_eq, List.flatMap_map, List.map_flatMap,
    Names.origins_ofDocument, List.map_cons, List.map_nil] at symbols extensions origins
  rw [← List.map_eq_flatMap] at origins
  exact ⟨symbols, extensions, origins⟩

namespace Declarations

/-- The declarations of documents in the order in which they were read. -/
theorem foldl_add (read : List Declared) (ds : Declarations) :
    read.foldl add ds = {
      types := (read.flatMap (·.typeEntries)).foldl (fun m p => m.insert p.1 p.2) ds.types
      traits := (read.flatMap (·.traitEntries)).foldl (fun m p => m.insert p.1 p.2) ds.traits
      pending := ds.pending ++ read.flatMap (·.impls)
      extensions :=
        (read.flatMap (·.extensionEntries)).foldl (fun m p => m.insert p.1 p.2) ds.extensions
      schemas := (read.flatMap (·.schemaEntries)).foldl (fun m p => m.insert p.1 p.2) ds.schemas
      ports := ds.ports ++ read.flatMap (·.ports) } := by
  induction read generalizing ds with
  | nil => simp
  | cons d rest ih =>
    rw [List.foldl_cons, ih]
    cases found : d.component <;>
      simp [add, addComponent, found, Declared.typeEntries, Declared.traitEntries,
        Declared.extensionEntries, Declared.schemaEntries, Declared.ports, List.foldl_map,
        List.foldl_append]

/-- What is read of a document, if its module has a scope. -/
def readIn (index : SymbolIndex) (scopes : NameMap ModuleScope) (d : Document) : Option Declared :=
  (scopes.get? d.module).map fun scope => Site.declared ⟨scope, index, []⟩ d

/-- The faults of a document, if its module has a scope. -/
def faultsIn (index : SymbolIndex) (scopes : NameMap ModuleScope) (d : Document) :
    List Diagnostic :=
  match scopes.get? d.module with
  | none => []
  | some scope => (Site.declarations ⟨scope, index, []⟩ d).faults

theorem ofDocuments_eq (index : SymbolIndex) (scopes : NameMap ModuleScope) (ds : List Document)
    (start : Declarations) :
    ofDocuments index scopes ds start =
      ((ds.filterMap (readIn index scopes)).foldl add start,
        ds.flatMap (faultsIn index scopes)) := by
  induction ds generalizing start with
  | nil => rfl
  | cons d rest ih =>
    unfold ofDocuments
    rw [List.filterMap_cons, List.flatMap_cons]
    unfold readIn faultsIn
    cases scopes.get? d.module with
    | none => exact ih start
    | some scope =>
      simp only [Site.declarations_value, ih]
      rfl

/-- Declarations that are the same but for the order of impls and components. -/
structure Same (a b : Declarations) : Prop where
  types : a.types = b.types
  traits : a.traits = b.traits
  pending : a.pending.Perm b.pending
  extensions : a.extensions = b.extensions
  schemas : a.schemas = b.schemas
  ports : a.ports.Perm b.ports

variable {index : SymbolIndex} {scopes : NameMap ModuleScope}

/-- What documents declare once is read once. -/
theorem entries_nodup {α : Type} {entries : Declared → List α} {key : α → String}
    {names : Document → List String}
    (own : ∀ module scope, scopes.get? module = some scope → scope.module = module)
    (each : ∀ (site : Site) (d : Document), site.module = d.module →
      ((entries (site.declared d)).map key).Subperm (names d)) {ds : List Document}
    (once : (ds.flatMap names).Nodup) :
    (((ds.filterMap (readIn index scopes)).flatMap entries).map key).Nodup := by
  have inside : (((ds.filterMap (readIn index scopes)).flatMap entries).map key).Subperm
      (ds.flatMap names) := by
    clear once
    induction ds with
    | nil => exact List.Subperm.refl []
    | cons d rest ih =>
      rw [List.filterMap_cons, List.flatMap_cons]
      cases found : scopes.get? d.module with
      | none =>
        simp only [readIn, found, Option.map_none]
        exact ih.trans (List.sublist_append_right _ _).subperm
      | some scope =>
        simp only [readIn, found, Option.map_some, List.flatMap_cons, List.map_append]
        exact (each ⟨scope, index, []⟩ d (own _ _ found)).append ih
  obtain ⟨between, perm, sublist⟩ := inside
  exact perm.nodup_iff.mp (sublist.nodup once)

/-- Documents that declare every name once have the same declarations in every order. -/
theorem ofDocuments_perm
    (own : ∀ module scope, scopes.get? module = some scope → scope.module = module)
    {ds ds' : List Document} (perm : ds.Perm ds') (once : DeclaredOnce ds) :
    (ofDocuments index scopes ds empty).1.Same (ofDocuments index scopes ds' empty).1 ∧
      (ofDocuments index scopes ds empty).2.Perm (ofDocuments index scopes ds' empty).2 := by
  have read := perm.filterMap (readIn index scopes)
  have modules : (ds.flatMap fun d => [d.module]).Nodup := by
    rw [← List.map_eq_flatMap]
    exact once.modules
  rw [ofDocuments_eq, ofDocuments_eq, foldl_add, foldl_add]
  refine ⟨⟨?_, ?_, ?_, ?_, ?_, ?_⟩, perm.flatMap_right _⟩
  · exact NameMap.ofList_perm (read.flatMap_right _)
      (entries_nodup own (fun _ _ => Site.typeEntries_subperm) once.symbols)
  · exact NameMap.ofList_perm (read.flatMap_right _)
      (entries_nodup own (fun _ _ => Site.traitEntries_subperm) once.symbols)
  · exact (read.flatMap_right _).append_left []
  · exact NameMap.ofList_perm (read.flatMap_right _)
      (entries_nodup own (fun _ _ => Site.extensionEntries_subperm) once.extensions)
  · exact NameMap.ofList_perm (read.flatMap_right _)
      (entries_nodup own (fun _ _ => Site.schemaEntries_subperm) modules)
  · exact (read.flatMap_right _).append_left []

/-- Every type stands under its own path. -/
theorem types_path {ds : List Document} {path : String} {decl : TypeDecl}
    (found : (ofDocuments index scopes ds empty).1.types.get? path = some decl) :
    decl.path = path := by
  rw [ofDocuments_eq, foldl_add] at found
  have member := NameMap.mem_of_get?_ofList found
  obtain ⟨d, -, inside⟩ := List.mem_flatMap.mp member
  rcases List.mem_append.mp inside with inside | inside <;>
    obtain ⟨t, -, same⟩ := List.mem_map.mp inside <;> cases same <;> rfl

/-- Every trait stands under its own path. -/
theorem traits_path {ds : List Document} {path : String} {decl : TraitDecl}
    (found : (ofDocuments index scopes ds empty).1.traits.get? path = some decl) :
    decl.path = path := by
  rw [ofDocuments_eq, foldl_add] at found
  obtain ⟨d, -, inside⟩ := List.mem_flatMap.mp (NameMap.mem_of_get?_ofList found)
  obtain ⟨t, -, same⟩ := List.mem_map.mp inside
  cases same
  rfl

/-- Every component takes part in pipelines once. -/
theorem ports_once
    (own : ∀ module scope, scopes.get? module = some scope → scope.module = module)
    {ds : List Document} (once : DeclaredOnce ds) :
    ((ofDocuments index scopes ds empty).1.ports.map (·.path)).Nodup := by
  have modules : (ds.flatMap fun d => [d.module]).Nodup := by
    rw [← List.map_eq_flatMap]
    exact once.modules
  rw [ofDocuments_eq, foldl_add]
  exact entries_nodup own (fun _ _ => Site.ports_subperm) modules

end Declarations
end Pipeline

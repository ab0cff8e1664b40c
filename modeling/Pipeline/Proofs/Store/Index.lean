import Mathlib.Data.List.Flatten
import Pipeline.Proofs.Data.Path
import Pipeline.Proofs.Scope.Imports
import Pipeline.Proofs.Store.Declarations

/-!
# The index of documents

Where documents declare their names without a fault, the index says of each path what the documents
say of it that declare it or open it as a module. Fewer documents say the same of a path if those
that declare it are among them, and if it is still a module if it was one.
-/

set_option autoImplicit false
set_option relaxedAutoImplicit false

namespace Pipeline

namespace Document

/-- The names that a document declares in its module. -/
def declaredNames (d : Document) : List String :=
  d.types.map (·.1) ++ d.traits.map (·.1) ++ d.extensions.map (·.1)

/-- The paths that a document declares, that of its component included. -/
def declared (d : Document) : List String :=
  (Names.ofDocument d).symbols.map (·.1) ++ (Names.ofDocument d).extensions

/-- The modules that are there because of a document: its own, and those around it. -/
def opened (d : Document) : List String := (Names.ofDocument d).members.map (·.1)

/-- No name in a document has a colon in it. -/
def Plain (d : Document) : Prop :=
  (∀ s ∈ Path.segments d.module, Path.Plain s) ∧ ∀ name ∈ d.declaredNames, Path.Plain name

instance (d : Document) : Decidable d.Plain :=
  inferInstanceAs (Decidable ((∀ s ∈ Path.segments d.module, Path.Plain s) ∧
    ∀ name ∈ d.declaredNames, Path.Plain name))

end Document

theorem Prelude.document_plain : Prelude.document.Plain := by decide +kernel

/-- Both indexes say the same of a path. -/
structure SymbolIndex.SameAt (a b : SymbolIndex) (path : String) : Prop where
  symbol : a.symbol? path = b.symbol? path
  extension : a.extensions.contains path = b.extensions.contains path

namespace Names

/-! ### What a document adds -/

theorem members_ofDocument (d : Document) :
    (ofDocument d).members =
      ofModule d.module ++ d.declaredNames.map fun name => (d.module, some name) := by
  have component : (ofComponent d).members = [] := by
    unfold ofComponent
    split <;> rfl
  simp [ofDocument, ofBody, Addition.concat_eq, List.flatMap_map, ← List.map_eq_flatMap,
    Document.declaredNames, component, Function.comp_def]

/-- A document declares its component under the path of the module, and everything else below. -/
theorem mem_declared {d : Document} {path : String} (declared : path ∈ d.declared) :
    path = d.module ∨ ∃ name ∈ d.declaredNames, path = Path.child d.module name := by
  rw [Document.declared, symbols_ofDocument, extensions_ofDocument] at declared
  simp only [List.mem_append, List.mem_map] at declared
  simp only [Document.declaredNames, List.mem_append, List.mem_map]
  rcases declared with ((component | ⟨t, member, rfl⟩) | ⟨t, member, rfl⟩) | ⟨e, member, rfl⟩
  · split at component
    · cases component
    · exact Or.inl (List.mem_singleton.mp component)
  · exact Or.inr ⟨t.1, Or.inl (Or.inl ⟨t, member, rfl⟩), rfl⟩
  · exact Or.inr ⟨t.1, Or.inl (Or.inr ⟨t, member, rfl⟩), rfl⟩
  · exact Or.inr ⟨e.1, Or.inr ⟨e, member, rfl⟩, rfl⟩

theorem module_mem_opened (d : Document) : d.module ∈ d.opened := by
  rw [Document.opened, members_ofDocument]
  exact List.mem_map.mpr ⟨(d.module, none), by simp [ofModule], rfl⟩

/-- What a member is of: the module of the document, or one around it whose segments go on with the
member. -/
theorem mem_members {d : Document} {path : String} {member? : Option String}
    (member : (path, member?) ∈ (ofDocument d).members) :
    (path = d.module ∧ ∀ name ∈ member?, name ∈ d.declaredNames) ∨
      ∃ i name, i + 1 < (Path.segments d.module).length ∧
        path = Path.ofSegments ((Path.segments d.module).take (i + 1)) ∧
        member? = some name ∧ name ∈ Path.segments d.module := by
  rw [members_ofDocument, List.mem_append] at member
  rcases member with member | member
  · rcases List.mem_cons.mp member with same | member
    · cases same
      exact Or.inl ⟨rfl, nofun⟩
    · obtain ⟨i, inside, same⟩ := List.mem_map.mp member
      have inside : i + 1 < (Path.segments d.module).length := by
        have := List.mem_range.mp inside
        omega
      cases same
      refine Or.inr ⟨i, _, inside, rfl, rfl, ?_⟩
      rw [List.getD_eq_getElem?_getD, List.getElem?_eq_getElem inside]
      exact List.getElem_mem inside
  · obtain ⟨name, declared, same⟩ := List.mem_map.mp member
    cases same
    exact Or.inl ⟨rfl, fun _ same => Option.some.inj same ▸ declared⟩

/-- A module around another one stands before it, with a separator behind. -/
private theorem below_of_take {path : String} {i : Nat}
    (inside : i + 1 < (Path.segments path).length) :
    Text.startsWith (Path.child (Path.ofSegments ((Path.segments path).take (i + 1))) "") path =
      true := by
  obtain ⟨first, more, split⟩ := List.exists_cons_of_ne_nil (Path.segments_ne_nil path)
  rw [split, List.length_cons] at inside
  obtain ⟨next, later, rest⟩ : ∃ next later, more.drop i = next :: later :=
    List.exists_cons_of_ne_nil (by simpa using by omega)
  have whole := Path.ofSegments_segments path
  rw [split, ← List.take_append_drop i more, rest] at whole
  refine Text.startsWith_iff.mpr
    ⟨next.toList ++ later.flatMap fun name => ':' :: ':' :: name.toList, ?_⟩
  rw [split, List.take_succ_cons, Path.toList_child, Path.toList_ofSegments, ← whole,
    Path.toList_ofSegments]
  simp

/-- What a document opens is its own module, or stands before it. -/
theorem mem_opened {d : Document} {path : String} (opened : path ∈ d.opened) :
    path = d.module ∨ Text.startsWith (Path.child path "") d.module = true := by
  obtain ⟨⟨_, member?⟩, member, rfl⟩ := List.mem_map.mp opened
  rcases mem_members member with ⟨same, -⟩ | ⟨i, name, inside, rfl, -⟩
  · exact Or.inl same
  · exact Or.inr (below_of_take inside)

/-- Where there are no colons in names, there are none in the segments of modules and of members. -/
theorem plain_of_mem_members {d : Document} (plain : d.Plain) {path : String}
    {member? : Option String} (member : (path, member?) ∈ (ofDocument d).members) :
    (∀ s ∈ Path.segments path, Path.Plain s) ∧ ∀ name ∈ member?, Path.Plain name := by
  rcases mem_members member with ⟨rfl, named⟩ | ⟨i, name, inside, rfl, rfl, named⟩
  · exact ⟨plain.1, fun name member => plain.2 name (named name member)⟩
  · refine ⟨?_, fun _ same => Option.some.inj same ▸ plain.1 name named⟩
    obtain ⟨first, more, split⟩ := List.exists_cons_of_ne_nil (Path.segments_ne_nil d.module)
    have each : ∀ s ∈ first :: more.take i, Path.Plain s := fun s member =>
      plain.1 s (split ▸ List.mem_of_mem_take (i := i + 1) member)
    rw [split, List.take_succ_cons, Path.segments_of_plain each]
    exact each

/-! ### What the index says -/

/-- The prelude and the documents declare their names without a fault. -/
def Faultless (ds : List Document) : Prop :=
  (Names.empty.addDocuments (Prelude.document :: ds)).1.faults = []

variable {ds : List Document}

theorem fits_of_faultless (clean : Faultless ds) :
    (ofDocuments (Prelude.document :: ds)).Fits .empty :=
  ((adds_addDocuments _).faultless .empty |>.mp clean).2

theorem indexOf_eq (clean : Faultless ds) :
    indexOf ds = (Names.empty.enter (ofDocuments (Prelude.document :: ds))).index :=
  congrArg Names.index ((adds_addDocuments _).result .empty clean)

private theorem enter_empty (a : Addition) :
    (Names.empty.enter a).index =
      ⟨NameMap.ofList a.symbols, NameSet.ofList a.extensions, a.members.foldl addMember []⟩ := rfl

theorem get?_symbols_iff (clean : Faultless ds) {path : String} {kind : SymbolKind} :
    (indexOf ds).symbols.get? path = some kind ↔
      ∃ d ∈ Prelude.document :: ds, (path, kind) ∈ (ofDocument d).symbols := by
  have once := (fits_of_faultless clean).symbols.1
  have inside : (path, kind) ∈ (ofDocuments (Prelude.document :: ds)).symbols ↔
      ∃ d ∈ Prelude.document :: ds, (path, kind) ∈ (ofDocument d).symbols := by
    rw [ofDocuments, Addition.concat_eq, List.mem_flatMap]
    simp only [List.mem_map, exists_exists_and_eq_and]
  rw [indexOf_eq clean, enter_empty, ← inside]
  dsimp only
  generalize (ofDocuments (Prelude.document :: ds)).symbols = symbols at once
  exact ⟨NameMap.mem_of_get?_ofList, NameMap.get?_ofList once⟩

theorem mem_extensions_iff (clean : Faultless ds) {path : String} :
    path ∈ (indexOf ds).extensions ↔
      ∃ d ∈ Prelude.document :: ds, path ∈ (ofDocument d).extensions := by
  rw [indexOf_eq clean, enter_empty]
  dsimp only
  rw [NameSet.mem_ofList, ofDocuments, Addition.concat_eq, List.mem_flatMap]
  simp only [List.mem_map, exists_exists_and_eq_and]

/-- What a module has after members have been added: it is there with those it had and with those
added, in order. -/
private theorem foldl_addMember (members : List (String × Option String)) (path : String)
    (modules : NameMap NameSet) (order : ((modules.get? path).getD []).InOrder) :
    (((members.foldl addMember modules).get? path).isSome = true ↔
      (modules.get? path).isSome = true ∨ path ∈ members.map (·.1)) ∧
    NameSet.InOrder (((members.foldl addMember modules).get? path).getD []) ∧
    ∀ name, name ∈ ((members.foldl addMember modules).get? path).getD [] ↔
      name ∈ (modules.get? path).getD [] ∨ (path, some name) ∈ members := by
  induction members generalizing modules with
  | nil => simp [order]
  | cons m rest ih =>
    obtain ⟨module, name?⟩ := m
    by_cases here : module = path
    · subst here
      have added : (addMember modules (module, name?)).get? module =
          some (name?.elim ((modules.get? module).getD []) fun name =>
            NameSet.insert name ((modules.get? module).getD [])) := by
        simp [addMember, NameMap.get?_insert]
      have kept : NameSet.InOrder (((addMember modules (module, name?)).get? module).getD []) := by
        rw [added]
        cases name? with
        | none => exact order
        | some name => exact order.insert name
      obtain ⟨there, ordered, each⟩ := ih _ kept
      refine ⟨by simp [there, added], ordered, fun name => ?_⟩
      rw [List.foldl_cons, each, added]
      cases name? <;> simp [NameSet.mem_insert, eq_comm, or_assoc, or_comm, or_left_comm]
    · have other : (addMember modules (module, name?)).get? path = modules.get? path := by
        simp [addMember, NameMap.get?_insert, here]
      obtain ⟨there, ordered, each⟩ := ih _ (other.symm ▸ order)
      refine ⟨?_, ordered, fun name => ?_⟩
      · rw [List.foldl_cons, there, other]
        simp [Ne.symm here]
      · rw [List.foldl_cons, each, other]
        simp [Ne.symm here]

theorem isSome_modules_iff (clean : Faultless ds) {path : String} :
    ((indexOf ds).modules.get? path).isSome = true ↔
      ∃ d ∈ Prelude.document :: ds, path ∈ d.opened := by
  rw [indexOf_eq clean, enter_empty]
  dsimp only
  rw [(foldl_addMember _ path [] List.Pairwise.nil).1, ofDocuments, Addition.concat_eq]
  simp only [List.map_flatMap, List.mem_flatMap, List.mem_map, exists_exists_and_eq_and,
    Document.opened]
  simp [NameMap.get?]

theorem mem_members_iff (clean : Faultless ds) {path name : String} :
    name ∈ (indexOf ds).members path ↔
      ∃ d ∈ Prelude.document :: ds, (path, some name) ∈ (ofDocument d).members := by
  rw [indexOf_eq clean, enter_empty, SymbolIndex.members]
  dsimp only
  rw [(foldl_addMember _ path [] List.Pairwise.nil).2.2, ofDocuments, Addition.concat_eq,
    List.mem_flatMap]
  simp only [List.mem_map, exists_exists_and_eq_and]
  simp [NameMap.get?]

theorem inOrder_members (clean : Faultless ds) (path : String) :
    ((indexOf ds).members path).InOrder := by
  rw [indexOf_eq clean, enter_empty, SymbolIndex.members]
  dsimp only
  generalize (ofDocuments (Prelude.document :: ds)).members = members
  exact (foldl_addMember members path [] List.Pairwise.nil).2.1

/-! ### Fewer documents -/

theorem fits_of_sublist {as bs : List Addition} (fewer : as.Sublist bs) {n : Names}
    (fits : (Addition.concat bs).Fits n) : (Addition.concat as).Fits n := by
  have fresh {taken : String → Prop} {names names' : List String} (fewer : names.Sublist names')
      (fresh : Fresh taken names') : Fresh taken names :=
    ⟨fresh.1.sublist fewer, fun name member => fresh.2 name (fewer.subset member)⟩
  obtain ⟨sound, symbols, extensions, origins⟩ := fits
  rw [Addition.concat_eq] at sound symbols extensions origins ⊢
  refine ⟨?_, fresh ?_ symbols, fresh ?_ extensions, fresh ?_ origins⟩
  · rw [List.all_eq_true] at sound ⊢
    exact fun a member => sound a (fewer.subset member)
  · exact (fewer.flatMap _).map _
  · exact fewer.flatMap _
  · exact (fewer.flatMap _).map _

/-- Some of the documents declare their names without a fault if all of them do. -/
theorem faultless_of_subset {documents all : List Document} (once : documents.Nodup)
    (subset : documents ⊆ all) (clean : Faultless all) : Faultless documents := by
  obtain ⟨some, perm, fewer⟩ := List.subperm_of_subset once subset
  have fits := fits_of_sublist (((fewer.cons_cons Prelude.document)).map ofDocument)
    (fits_of_faultless clean)
  have same := Addition.Same.of_perm ((perm.cons Prelude.document).map ofDocument)
  exact ((adds_addDocuments _).faultless .empty).mpr ⟨rfl, same.fits fits⟩

section

variable {documents all : List Document} {path : String}

/-- Of fewer documents the same holds as of all, if those of which it holds are among them. -/
private theorem exists_iff_of_subset (subset : documents ⊆ all) {holds : Document → Prop}
    (kept : ∀ d ∈ all, holds d → ∃ d ∈ documents, holds d) :
    (∃ d ∈ Prelude.document :: documents, holds d) ↔ ∃ d ∈ Prelude.document :: all, holds d := by
  simp only [List.mem_cons, exists_eq_or_imp]
  exact or_congr_right ⟨fun ⟨d, member, here⟩ => ⟨d, subset member, here⟩,
    fun ⟨d, member, here⟩ => kept d member here⟩

/-- Fewer documents say the same of a path, if all that declare it are among them and one that opens
it, where there is one. -/
theorem sameAt_of_subset (clean : Faultless documents) (clean' : Faultless all)
    (subset : documents ⊆ all) (declared : ∀ d ∈ all, path ∈ d.declared → d ∈ documents)
    (opened : ∀ d ∈ all, path ∈ d.opened → ∃ d ∈ documents, path ∈ d.opened) :
    (indexOf documents).SameAt (indexOf all) path := by
  have symbols : (indexOf documents).symbols.get? path = (indexOf all).symbols.get? path := by
    refine Option.ext fun kind => ?_
    rw [get?_symbols_iff clean, get?_symbols_iff clean']
    refine exists_iff_of_subset subset fun d member here => ⟨d, declared d member ?_, here⟩
    exact List.mem_append_left _ (List.mem_map.mpr ⟨_, here, rfl⟩)
  have modules : (indexOf documents).modules.contains path =
      (indexOf all).modules.contains path := by
    refine Bool.eq_iff_iff.mpr ?_
    unfold NameMap.contains
    rw [isSome_modules_iff clean, isSome_modules_iff clean']
    exact exists_iff_of_subset subset opened
  refine ⟨?_, Bool.eq_iff_iff.mpr ?_⟩
  · unfold SymbolIndex.symbol?
    rw [symbols, modules]
  · rw [List.contains_iff_mem, List.contains_iff_mem, mem_extensions_iff clean,
      mem_extensions_iff clean']
    exact exists_iff_of_subset subset fun d member here =>
      ⟨d, declared d member (List.mem_append_right _ here), here⟩

/-- Fewer documents give a module the same members, if all that open the module are among them. -/
theorem modules_of_subset (clean : Faultless documents) (clean' : Faultless all)
    (subset : documents ⊆ all) (opened : ∀ d ∈ all, path ∈ d.opened → d ∈ documents) :
    (indexOf documents).modules.get? path = (indexOf all).modules.get? path := by
  have there : ((indexOf documents).modules.get? path).isSome =
      ((indexOf all).modules.get? path).isSome := by
    refine Bool.eq_iff_iff.mpr ?_
    rw [isSome_modules_iff clean, isSome_modules_iff clean']
    exact exists_iff_of_subset subset fun d member here => ⟨d, opened d member here, here⟩
  have members : (indexOf documents).members path = (indexOf all).members path := by
    refine (inOrder_members clean path).ext (inOrder_members clean' path) fun name => ?_
    rw [mem_members_iff clean, mem_members_iff clean']
    refine exists_iff_of_subset subset fun d member here => ⟨d, opened d member ?_, here⟩
    exact List.mem_map.mpr ⟨_, here, rfl⟩
  unfold SymbolIndex.members at members
  cases found : (indexOf documents).modules.get? path <;>
    cases found' : (indexOf all).modules.get? path <;> simp_all

end

end Names

namespace ModuleScope

variable {index index' : SymbolIndex}

theorem bindPath_congr {path : String} (same : index.SameAt index' path) (scope : ModuleScope)
    (name : String) (strength : Strength) :
    scope.bindPath index name path strength = scope.bindPath index' name path strength := by
  unfold bindPath
  rw [same.symbol, same.extension]

theorem bindMembers_congr {module : String} {members : List String}
    (same : ∀ name ∈ members, index.SameAt index' (Path.child module name)) (scope : ModuleScope)
    (strength : Strength) :
    scope.bindMembers index module strength members =
      scope.bindMembers index' module strength members := by
  induction members generalizing scope with
  | nil => rfl
  | cons name rest ih =>
    rw [List.forall_mem_cons] at same
    unfold bindMembers
    rw [bindPath_congr same.1]
    split
    · exact ih same.2 _
    · rfl

/-- An import binds the same names wherever the index says the same of its path, and for a glob of
the members of the module. -/
theorem bindImport_congr {written : String}
    (plain : (Import.ofText written).isGlob = false →
      index.SameAt index' (Import.ofText written).path)
    (glob : (Import.ofText written).isGlob = true →
      index.modules.get? (Import.ofText written).path =
          index'.modules.get? (Import.ofText written).path ∧
        ∀ name ∈ index'.members (Import.ofText written).path,
          index.SameAt index' (Path.child (Import.ofText written).path name))
    (scope : ModuleScope) :
    scope.bindImport index written = scope.bindImport index' written := by
  unfold bindImport
  dsimp only
  split
  · rename_i isGlob
    obtain ⟨modules, members⟩ := glob isGlob
    rw [modules]
    split
    · rfl
    · split
      · rfl
      · rename_i names found
        refine bindMembers_congr (fun name member => members name ?_) scope .glob
        rwa [SymbolIndex.members, found]
  · rename_i notGlob
    have same := plain (Bool.not_eq_true _ ▸ notGlob)
    rw [same.symbol, same.extension, bindPath_congr same]

end ModuleScope
end Pipeline

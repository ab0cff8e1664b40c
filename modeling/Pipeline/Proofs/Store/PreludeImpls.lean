import Pipeline.Proofs.Method.Tiers
import Pipeline.Proofs.Store.Prelude
import Pipeline.Proofs.Store.Expansion
import Pipeline.Proofs.Store.WellFormed

/-!
# The impls of the prelude

Whatever documents are loaded, the prelude's own names stand for its own declarations, so that its
impls are about its own types. The methods that it gives to a type itself are all implemented
outside the declarations. Every list has those of the prelude, so that a call of one of them on a
list means that method or none.
-/

set_option autoImplicit false
set_option relaxedAutoImplicit false

namespace Pipeline

open Noted

/-! ### The names that the prelude sees -/

namespace ModuleScope

variable {index : SymbolIndex} {scope scope' : ModuleScope}

/-- Every name stands for what its own module declares. -/
def SeesOwn (scope : ModuleScope) : Prop :=
  ∀ name entry, scope.names.get? name = some entry →
    entry.symbol.path = Path.child scope.module name

theorem SeesOwn.bind {name : String} {symbol : Symbol} {strength : Strength} (own : scope.SeesOwn)
    (path : symbol.path = Path.child scope.module name)
    (bound : scope.bind name symbol strength = .ok scope') : scope'.SeesOwn := by
  obtain ⟨entry, origin, rfl⟩ := bind_eq_ok bound
  have here : entry.symbol.path = Path.child scope.module name := by
    rcases origin with ⟨-, rfl⟩ | ⟨before, known, rebound⟩
    · exact path
    · unfold NameEntry.rebind at rebound
      repeat' split at rebound
      all_goals cases rebound
      · exact path
      all_goals exact (own name _ known :)
  intro other found listed
  rw [NameMap.get?_insert] at listed
  split at listed
  · rename_i same
    cases listed
    exact same ▸ here
  · exact own other found listed

theorem SeesOwn.bindExtension {name path : String} (own : scope.SeesOwn)
    (bound : scope.bindExtension name path = .ok scope') : scope'.SeesOwn := by
  rcases bindExtension_eq_ok bound with ⟨-, rfl⟩ | ⟨-, rfl⟩ <;> exact own

theorem SeesOwn.bindOwnSymbol {place : Location} {name : String} (own : scope.SeesOwn) :
    (scope.bindOwnSymbol index place name (Path.child scope.module name)).1.SeesOwn := by
  unfold ModuleScope.bindOwnSymbol
  split
  · rename_i symbol found
    split
    · rename_i bound
      exact own.bind (SymbolIndex.symbol?_path found) bound
    · exact own
  · exact own

theorem SeesOwn.bindOwnExtension {place : Location} {name path : String} (own : scope.SeesOwn) :
    (scope.bindOwnExtension index place name path).1.SeesOwn := by
  unfold ModuleScope.bindOwnExtension
  split
  · split
    · rename_i bound
      exact own.bindExtension bound
    · exact own
  · exact own

theorem SeesOwn.bindOwn {place : Location} {members : List String} (own : scope.SeesOwn) :
    (scope.bindOwn index place members).1.SeesOwn := by
  induction members generalizing scope with
  | nil => exact own
  | cons name rest ih => exact ih own.bindOwnSymbol.bindOwnExtension

/-- The prelude imports nothing, so that it sees its own names only. -/
theorem seesOwn_prelude (index : SymbolIndex) :
    (ofDocument index Prelude.document).1.SeesOwn := by
  have nothing : (empty Prelude.document.module Prelude.document.origin).SeesOwn := nofun
  change ((empty Prelude.document.module Prelude.document.origin).bindOwn index
    Prelude.document.location (index.members Prelude.document.module)).1.SeesOwn
  exact nothing.bindOwn

/-- A single name that stands for something stands for what its own module declares. -/
theorem SeesOwn.resolvePath (own : scope.SeesOwn) {name : String} {symbol : Symbol}
    (single : Path.segments name = [name]) (found : scope.resolvePath name index = .ok symbol) :
    symbol.path = Path.child scope.module name := by
  simp only [ModuleScope.resolvePath, single] at found
  cases listed : scope.names.get? name with
  | none =>
    rw [listed] at found
    cases found
  | some entry =>
    rw [listed] at found
    dsimp only at found
    split at found <;> cases found
    exact own name entry listed

end ModuleScope

/-! ### Impls as they are written there -/

namespace Site

variable {site : Site} {place : Location}

/-- The bodies of the methods of an impl are read one by one. -/
theorem implMethods_bodies {ofTrait : Bool} {seen : List String} {entries : List (String × String)}
    {methods : List ImplMethod}
    (found : (site.implMethods place ofTrait seen entries).value = some methods) :
    List.Forall₂ (fun e m => (MethodBody.ofText (place.child e.1) e.2).value = some m.body) entries
      methods := by
  induction entries generalizing seen methods with
  | nil =>
    cases found
    exact .nil
  | cons e rest ih =>
    obtain ⟨body, readBody, found⟩ := value_bind_eq_some.mp found
    obtain ⟨sig, -, found⟩ := value_bind_eq_some.mp found
    split at found
    · cases found
    · obtain ⟨others, there, found⟩ := value_bind_eq_some.mp found
      cases found
      exact .cons readBody (ih there)

/-- A method of an impl that is written by its signature has the name in the signature. -/
theorem implSignature_named {ofTrait : Bool} {key : String} {sig written : MethodSig}
    (signed : isSignature key = true) (parses : MethodSig.parse key = .ok written)
    (found : (site.implSignature place ofTrait key).value = some sig) :
    sig.name = written.name := by
  rw [implSignature, if_pos signed] at found
  obtain ⟨parsed, reads, found⟩ := value_bind_eq_some.mp found
  obtain ⟨params, -, found⟩ := value_bind_eq_some.mp found
  obtain ⟨ret, -, found⟩ := value_bind_eq_some.mp found
  cases found
  cases parses.symm.trans (value_ofExcept_eq_some.mp reads)
  rfl

/-- A parameter without a bound is read as its name. -/
theorem genericParams_single {name : String} {read : List Generic × List Bound}
    (parses : WrittenGeneric.parse name = .ok ⟨name, none, [], none⟩)
    (found : (site.genericParams place [name]).value = some read) :
    read = ([⟨name, .type, none⟩], []) := by
  obtain ⟨parsed, readTexts, found⟩ := value_bind_eq_some.mp found
  have texts := value_mapM_eq_some.mp readTexts
  simp only [List.zipIdx_cons, List.zipIdx_nil, List.forall₂_cons_left_iff,
    List.forall₂_nil_left_iff] at texts
  obtain ⟨written, _, one, rfl, rfl⟩ := texts
  cases parses.symm.trans (value_ofExcept_eq_some.mp one)
  cases found
  rfl

/-- A type of the module itself, applied to a parameter, is read as that type. -/
theorem ty_applied (own : site.scope.SeesOwn) {text : String} (name param : String) {t : Ty}
    (parses : Ty.parse text = .ok (.named name [.named param []]))
    (single : Path.segments name = [name]) (generics : site.generics = [param])
    (found : (site.ty place text).value = some t) :
    t = .named (Path.child site.module name) [.param param] := by
  obtain ⟨written, reads, found⟩ := value_bind_eq_some.mp found
  cases parses.symm.trans (value_ofExcept_eq_some.mp reads)
  have resolved := value_ofExcept_eq_some.mp found
  have plain : ModuleScope.parameter? name [.named param []] [param] = none := by
    simp [ModuleScope.parameter?, ModuleScope.splitFirst?, single]
  have inner : ModuleScope.parameter? param [] [param] = some (.param param) := by
    simp [ModuleScope.parameter?]
  simp only [ModuleScope.resolveTy, ModuleScope.resolveTys, generics, plain, inner] at resolved
  obtain ⟨symbol, stands, resolved⟩ := except_bind_eq_ok.mp resolved
  split at resolved
  · cases resolved
  · cases resolved
    rw [own.resolvePath single stands]
    rfl

end Site

namespace Store

variable {ds : List Document} {maxDepth : Nat} {s : Store}

/-! ### Methods of types themselves -/

/-- An impl of a type itself is in the store, as it is read. -/
theorem Sound.inherent_impl (sound : Sound ds) {doc : Document} (among : doc ∈ ds) {e : ImplEntry}
    (listed : e ∈ doc.impls) (bare : e.traitRef = none) :
    ∃ p place i, (siteOf ds doc).ReadsImpl place e p ∧ p.decl.traitRef = none ∧
      { p.decl.closeMethods with id := i } ∈ (completedOf ds).1 := by
  obtain ⟨k, found⟩ := List.mem_iff_getElem?.mp listed
  have position : doc.impls.zipIdx[k]? = some (e, k) := by
    rw [List.getElem?_zipIdx, found, Option.map_some, Nat.zero_add]
  have written : ⟨siteOf ds doc, (doc.location.child "impls").atIndex k, e⟩ ∈ writtenImpls ds :=
    List.mem_flatMap.mpr ⟨doc, among, List.mem_map.mpr ⟨_, List.mem_of_getElem? position, rfl⟩⟩
  obtain ⟨i, placed⟩ := List.mem_iff_getElem?.mp written
  obtain ⟨p, pending, read⟩ := getElem?_of_forall₂ sound.impls_placed placed
  obtain ⟨_, _, _, parts, impls⟩ := sound.parts
  obtain ⟨d, completed, done⟩ := getElem?_of_forall₂ parts.written pending
  have reads := Site.implDecl_reads read
  have traitless : p.decl.traitRef = none := by
    have found := reads.traitRef
    rw [bare] at found
    exact (Option.some.inj found).symm
  rcases PendingImpl.complete_eq_pure done with ⟨-, rfl⟩ | ⟨_, _, given, -⟩
  · refine ⟨p, _, i, reads, traitless, impls ▸ List.mem_of_getElem? (i := i) ?_⟩
    have below := (List.getElem?_eq_some_iff.mp completed).1
    rw [ImplDecl.number_getElem?, List.getElem?_append_left below, completed]
    rfl
  · cases traitless.symm.trans given

/-- Methods for which one word is written are implemented outside the declarations. -/
theorem methods_external {site : Site} {place : Location} {e : ImplEntry} {p : PendingImpl}
    (reads : site.ReadsImpl place e p) (outside : ∀ m ∈ e.methods, m.2 = "extern")
    {m : ImplMethod} (member : m ∈ p.decl.methods) : m.body = .external := by
  obtain ⟨key, listed, read⟩ := exists_of_forall₂ (Site.implMethods_bodies reads.methods) member
  have word : Text.trim "extern" = "extern" := by decide +kernel
  rw [outside key listed, MethodBody.ofText, if_pos word] at read
  exact (Option.some.inj read).symm

/-- The impl of the prelude for all lists, as it is written. -/
def listImpl : ImplEntry :=
  Prelude.methodsOf "Vec<T>" ["T"] [
    "const fn len(self) -> usize",
    "const fn is_empty(self) -> bool",
    "const fn contains(self, item: T) -> bool"]

/-- The names of its methods. -/
def listMethods : List String := ["len", "is_empty", "contains"]

/-- It is about lists, whatever else goes by the name. -/
theorem target_listImpl {site : Site} {place : Location} {p : PendingImpl}
    (own : site.scope.SeesOwn) (module : site.module = preludeModule)
    (reads : site.ReadsImpl place listImpl p) :
    p.decl.generics = [⟨"T", .type, none⟩] ∧ p.decl.bounds = [] ∧
      p.decl.target = .std "Vec" [.param "T"] := by
  obtain ⟨inline, bounds, all, readGenerics, readBounds⟩ := reads.generics
  have one := Site.genericParams_single (ok_of_toOption (by decide +kernel)) readGenerics
  simp only [Prod.mk.injEq] at one
  obtain ⟨generics, rfl⟩ := one
  have none : bounds = [] := (Option.some.inj readBounds).symm
  refine ⟨generics, by rw [all, none]; rfl, ?_⟩
  have inner : (site.inside p.decl.generics).scope.SeesOwn := own
  have inside : (site.inside p.decl.generics).generics = ["T"] := by
    rw [generics]
    rfl
  have target := Site.ty_applied inner "Vec" "T" (ok_of_toOption (by decide +kernel))
    (by decide +kernel) inside reads.target
  rw [target]
  exact congrArg (fun m => Ty.named (Path.child m "Vec") _) module

/-- It has the methods that are written in it. -/
theorem methods_listImpl {site : Site} {place : Location} {p : PendingImpl}
    (reads : site.ReadsImpl place listImpl p) {name : String}
    (listed : name ∈ listMethods) :
    ∃ m ∈ p.decl.methods, m.sig.name = name := by
  have written : ∀ name ∈ listMethods, ∃ key ∈ listImpl.methods,
      Site.isSignature key.1 = true ∧
        (MethodSig.parse key.1).toOption.map (·.name) = some name := by
    decide +kernel
  obtain ⟨key, among, signed, parses⟩ := written name listed
  obtain ⟨sig, given, rfl⟩ := Option.map_eq_some_iff.mp parses
  obtain ⟨i, position⟩ := List.mem_iff_getElem?.mp among
  obtain ⟨m, found, read⟩ := getElem?_of_forall₂ (Site.implMethods_reads reads.methods).1 position
  exact ⟨m, List.mem_of_getElem? found,
    Site.implSignature_named signed (ok_of_toOption given) read⟩

/-- The impl for all lists, with methods that are all implemented outside the declarations. -/
structure ForLists (d : ImplDecl) : Prop where
  traitRef : d.traitRef = none
  generics : d.generics = [⟨"T", .type, none⟩]
  bounds : d.bounds = []
  target : d.target = .std "Vec" [.param "T"]
  methods : ∀ name ∈ listMethods, (d.method? name).isSome = true
  external : ∀ m ∈ d.methods, m.body = .external

theorem Sound.listImpl (sound : Sound (Prelude.document :: ds)) :
    ∃ d ∈ (completedOf (Prelude.document :: ds)).1, ForLists d := by
  have listed : Store.listImpl ∈ Prelude.document.impls := by decide
  obtain ⟨p, place, i, reads, traitless, member⟩ :=
    sound.inherent_impl List.mem_cons_self listed rfl
  obtain ⟨generics, bounds, target⟩ :=
    target_listImpl (ModuleScope.seesOwn_prelude _) (siteOf_module _ _) reads
  refine ⟨_, member, traitless, generics, bounds, target, fun name listed => ?_, fun m inside => ?_⟩
  · obtain ⟨m, inside, named⟩ := methods_listImpl reads listed
    refine List.find?_isSome.mpr ⟨_, List.mem_map_of_mem inside, ?_⟩
    simpa [Site.closeSig, MethodSig.replace] using named
  · obtain ⟨read, among, rfl⟩ := List.mem_map.mp inside
    exact (methods_external reads (by decide) among :)

/-- It gives its methods to all lists. -/
theorem ForLists.inherentMethod? {d : ImplDecl} (forLists : ForLists d)
    (plain : s.synonym? (Builtin.path "Vec") = none) {name : String}
    (listed : name ∈ listMethods) (item : Ty) :
    ∃ m, s.inherentMethod? (s.normalize (.std "Vec" [item])) name d = some m ∧
      m.body = some .external := by
  obtain ⟨m, found⟩ := Option.isSome_iff_exists.mp (forLists.methods name listed)
  have list (t : Ty) : s.normalize (.std "Vec" [t]) = .std "Vec" [s.normalize t] :=
    normalizeTo_named plain [t]
  have fits : (s.instantiate d.generics d.target d.bounds
      (s.normalize (.std "Vec" [item]))).value.isSome = true := by
    simp only [instantiate, forLists.generics, forLists.bounds, forLists.target, list]
    rfl
  obtain ⟨subst, fits⟩ := Option.isSome_iff_exists.mp fits
  exact ⟨⟨name, .inherent d.id, m.sig.substitute subst, some m.body, d.module, _⟩,
    by rw [Store.inherentMethod?, found, Option.bind_some, fits]; rfl,
    congrArg some (forLists.external m (List.mem_of_find?_eq_some found))⟩

/-- Whatever is loaded, the method of a list that has the name of one of the prelude's is
implemented outside the declarations. -/
theorem resolveCall_list (loaded : (load ds maxDepth).value = .ok s) {name : String}
    (listed : name ∈ listMethods) {item : Ty} {visible : List String}
    {m : Method} (found : (s.resolveCall (.std "Vec" [item]) name visible).value = .found m) :
    m.body = some .external := by
  obtain ⟨plain, -⟩ := prelude_plain loaded (e := ("Vec", Prelude.nativeType ["T"])) (by decide)
  obtain ⟨sound, rfl⟩ := sound_of_load loaded
  obtain ⟨d, member, forLists⟩ := sound.listImpl
  obtain ⟨own, given, external⟩ := forLists.inherentMethod? plain listed item
  have first : own ∈ (ofDocuments (Prelude.document :: ds) maxDepth).firstRank
      ((ofDocuments (Prelude.document :: ds) maxDepth).normalize (.std "Vec" [item])) name
      visible := by
    refine List.mem_append_left _ ?_
    rw [inherentMethods_value]
    exact List.mem_filterMap.mpr
      ⟨d, List.mem_filter.mpr ⟨member, by simp [forLists.traitRef]⟩, given⟩
  rcases resolveCall_found found with only | ⟨none, -⟩
  · rw [only] at first
    rw [← List.mem_singleton.mp first]
    exact external
  · rw [none] at first
    cases first

end Store
end Pipeline
